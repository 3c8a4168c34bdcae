import Mathlib.Algebra.Order.Ring.Int
import FiberMachine.Proofs.Ownership.Veil

/-!
# Arithmetic on integers

What the operators make of 64-bit integers, by the laws of exact arithmetic. `Opcode.Answers` is
what executing an opcode on given operands comes to, whatever the rest of the frame and the heap:
the value it pushes or the fault it raises. Sums, differences, products and negations are exact or
overflow, a quotient is an integer exactly when nothing remains and it fits, and shifts by 0 to 63
places multiply or divide by a power of two (`Opcode.integer_arithmetic`). The remainder overflows
where the quotient does, although it would be zero (`Opcode.remainder_of_least`).
-/

namespace FiberMachine

/-! ## Integers that fit -/

namespace Integer

variable {a b : Int64} {n : Int}

/-- The number is that of a 64-bit integer. -/
def Fits (n : Int) : Prop := -2 ^ 63 ≤ n ∧ n < 2 ^ 63

theorem fits_toInt (a : Int64) : Fits a.toInt := ⟨a.le_toInt, a.toInt_lt⟩

theorem fits_iff : Fits n ↔ Int64.minValue.toInt ≤ n ∧ n ≤ Int64.maxValue.toInt := by
  rw [Fits, Int64.toInt_minValue, Int64.toInt_maxValue]
  omega

theorem ofInt?_eq_some_iff {i : Int64} : ofInt? n = some i ↔ i.toInt = n := by
  unfold ofInt?
  split
  · rename_i hfits
    have hvalue : (Int64.ofInt n).toInt = n :=
      Int64.toInt_ofInt_of_le (fits_iff.mpr hfits).1 (fits_iff.mpr hfits).2
    rw [Option.some.injEq, ← Int64.toInt_inj, hvalue]
    exact eq_comm
  · rename_i hfits
    refine iff_of_false (by rintro ⟨⟩) ?_
    rintro rfl
    exact hfits (fits_iff.mp (fits_toInt i))

theorem ofInt?_eq_none_iff : ofInt? n = none ↔ ¬ Fits n := by
  unfold ofInt?
  split
  · rename_i hfits
    exact iff_of_false (by rintro ⟨⟩) (absurd (fits_iff.mpr hfits))
  · rename_i hfits
    exact iff_of_true rfl fun h => hfits (fits_iff.mp h)

theorem toInt_ne_zero (hb : b ≠ 0) : b.toInt ≠ 0 := fun h => hb (Int64.toInt_inj.mp h)

/-- Only one quotient does not fit. -/
theorem not_fits_tdiv_iff :
    ¬ Fits (a.toInt.tdiv b.toInt) ↔ a = Int64.minValue ∧ b = -1 := by
  constructor
  · intro h
    by_contra hother
    rcases not_and_or.mp hother with ha | hb
    · exact h (Int64.toInt_div_of_ne_left a b ha ▸ fits_toInt (a / b))
    · exact h (Int64.toInt_div_of_ne_right a b hb ▸ fits_toInt (a / b))
  · rintro ⟨rfl, rfl⟩ ⟨-, hlt⟩
    exact absurd hlt (by decide)

theorem div?_of_ne (hb : b ≠ 0) : div? a b = ofInt? (a.toInt.tdiv b.toInt) := if_neg hb

theorem rem?_of_ne (hb : b ≠ 0) :
    rem? a b = if a = Int64.minValue ∧ b = -1 then none else some (a % b) := by
  have hrem : ofInt? (a.toInt.tmod b.toInt) = some (a % b) :=
    ofInt?_eq_some_iff.mpr (Int64.toInt_mod a b)
  rw [rem?, if_neg hb, div?_of_ne hb, hrem]
  split
  · rename_i hleast
    rw [ofInt?_eq_none_iff.mpr (not_fits_tdiv_iff.mpr hleast), Option.bind_none]
  · rename_i hother
    cases hq : ofInt? (a.toInt.tdiv b.toInt) with
    | none => exact absurd (not_fits_tdiv_iff.mp (ofInt?_eq_none_iff.mp hq)) hother
    | some q => rfl

/-! ## Shifts -/

/-- A number of places has 32 bits, but a word is shifted by fewer than it has. -/
theorem places?_bind_shift? (op : Int64 → Int64 → Int64) (a b : Int64) :
    (places? b).bind (shift? op a) =
      if 0 ≤ b.toInt ∧ b.toInt < 64 then some (op a b) else none := by
  by_cases hplaces : 0 ≤ b.toInt ∧ b.toInt < UInt32.size
  · have hnat : b.toInt.toNat.toUInt32.toNat = b.toInt.toNat := by
      have hlt : b.toInt.toNat < UInt32.size := (Int.toNat_lt hplaces.1).mpr hplaces.2
      exact Nat.mod_eq_of_lt hlt
    have hvalue : Int64.ofNat b.toInt.toNat = b := by
      rw [← Int64.ofInt_eq_ofNat, Int.toNat_of_nonneg hplaces.1, Int64.ofInt_toInt]
    have hlt : b.toInt.toNat.toUInt32 < 64 ↔ 0 ≤ b.toInt ∧ b.toInt < 64 := by
      rw [UInt32.lt_iff_toNat_lt, hnat]
      exact (Int.toNat_lt hplaces.1).trans (and_iff_right hplaces.1).symm
    simp only [places?, if_pos hplaces, Option.bind_some, shift?, hnat, hvalue, hlt]
  · have hbound : ¬ (0 ≤ b.toInt ∧ b.toInt < 64) := by
      unfold UInt32.size at hplaces
      omega
    rw [places?, if_neg hplaces, Option.bind_none, if_neg hbound]

/-- The shift instructions of words reduce the amount, which changes nothing from 0 to 63. -/
theorem toNat_smod (h : 0 ≤ b.toInt ∧ b.toInt < 64) :
    (b.toBitVec.smod 64).toNat = b.toInt.toNat := by
  have hmsb : b.toBitVec.msb = false := by
    rw [BitVec.msb_eq_toInt]
    exact decide_eq_false (Int.not_lt.mpr h.1)
  have hnat : b.toBitVec.toNat = b.toInt.toNat := by
    rw [← Int64.toInt_toBitVec, BitVec.toInt_eq_toNat_of_msb hmsb, Int.toNat_natCast]
  have hsmod : b.toBitVec.smod 64 = b.toBitVec % 64 := by
    simp only [BitVec.smod, hmsb]
    rfl
  rw [hsmod, BitVec.toNat_umod, hnat]
  exact Nat.mod_eq_of_lt ((Int.toNat_lt h.1).mpr h.2)

theorem toInt_shiftLeft (h : 0 ≤ b.toInt ∧ b.toInt < 64) :
    (a <<< b).toInt = (a.toInt * 2 ^ b.toInt.toNat).bmod (2 ^ 64) := by
  rw [← Int64.toInt_toBitVec, Int64.toBitVec_shiftLeft, BitVec.shiftLeft_eq',
    BitVec.toInt_shiftLeft, toNat_smod h, ← Int64.toInt_toBitVec a, BitVec.toInt_eq_toNat_bmod,
    Int.bmod_mul_bmod, Nat.shiftLeft_eq]
  push_cast
  rfl

theorem toInt_shiftRight (h : 0 ≤ b.toInt ∧ b.toInt < 64) :
    (a >>> b).toInt = a.toInt.fdiv (2 ^ b.toInt.toNat) := by
  rw [← Int64.toInt_toBitVec, Int64.toBitVec_shiftRight, BitVec.toInt_sshiftRight', toNat_smod h,
    Int64.toInt_toBitVec, Int.shiftRight_eq_div_pow]
  push_cast
  exact (Int.fdiv_eq_ediv_of_nonneg _ (Int.le_of_lt (Int.pow_pos (by decide)))).symm

end Integer

/-! ## What operators answer -/

/--
What an instruction leaves that takes operands, down to the `rest` of the stack, and pushes a value
and goes on, or raises a fault.
-/
def Local.answered (l : Local) (rest : List Value) :
    Except Fault Value → Except Fault Action × Local
  | .ok value =>
    (.ok .next, ⟨l.heap, { l.frame with
      stack := value :: rest, instruction := l.frame.instruction + 1 }⟩)
  | .error fault => (.error fault, ⟨l.heap, { l.frame with stack := rest }⟩)

theorem Local.answered_inj {l : Local} {rest : List Value} {x y : Except Fault Value}
    (h : l.answered rest x = l.answered rest y) : x = y := by
  cases x <;> cases y <;> simp_all [answered]

namespace Opcode

/-- Executing the opcode on the operands, the top of the stack first, has the given result. -/
def Answers (op : Opcode) (operands : List Value) (answer : Except Fault Value) : Prop :=
  ∀ (l : Local) (i : Instruction) (rest : List Value),
    l.frame.code.instructions[l.frame.instruction]? = some i → i.opcode = op →
    l.frame.stack = operands ++ rest → Exec.step.run l = l.answered rest answer

variable {opcode : Opcode} {operands : List Value} {a b : Int64}

theorem Answers.unique {x y : Except Fault Value} (hx : opcode.Answers operands x)
    (hy : opcode.Answers operands y) : x = y := by
  -- A frame that is about to execute the opcode tells the two answers apart.
  let code : Code := { (default : Code) with instructions := #[{ opcode }] }
  let l : Local := ⟨{}, { (default : Frame) with code, stack := operands }⟩
  have hstack : l.frame.stack = operands ++ [] := (List.append_nil operands).symm
  exact Local.answered_inj
    ((hx l { opcode } [] rfl rfl hstack).symm.trans (hy l { opcode } [] rfl rfl hstack))

theorem Answers.iff {x y : Except Fault Value} (hx : opcode.Answers operands x) :
    opcode.Answers operands y ↔ x = y :=
  ⟨hx.unique, fun h => h ▸ hx⟩

/-- Integers have no overloads. -/
theorem overload?_int (a : Int64) (name : String) : Exec.overload? (.int a) name = pure none := rfl

theorem answers_binary (op : BinaryOperator) (hop : opcode.operator? = some (.inl op))
    (a b : Int64) :
    opcode.Answers [.int b, .int a] (Operator.compute op (.int a) (.int b)) := by
  intro l i rest hi hopcode hstack
  have hbinary : Operator.binary l.heap op (.int a) (.int b) =
      (Operator.compute op (.int a) (.int b)).map .value := by cases op <;> rfl
  rw [Exec.step_of_some hi, Exec.instruction_of_operator? (hopcode ▸ hop), Sum.elim_inl,
    Exec.binary, Exec.run_pop_bind _ hstack, Exec.run_pop_bind _ rfl, overload?_int, pure_bind,
    Exec.run_heap_bind, hbinary]
  cases Operator.compute op (.int a) (.int b) <;> rfl

theorem answers_unary (op : UnaryOperator) (hop : opcode.operator? = some (.inr op))
    (a : Int64) : opcode.Answers [.int a] (Operator.unary op (.int a)) := by
  intro l i rest hi hopcode hstack
  rw [Exec.step_of_some hi, Exec.instruction_of_operator? (hopcode ▸ hop), Sum.elim_inr,
    Exec.unary, Exec.run_pop_bind _ hstack, overload?_int, pure_bind]
  cases Operator.unary op (.int a) <;> rfl

/-! ## Laws of arithmetic -/

/-- The opcode answers with the exact number, and with overflow if that does not fit. -/
structure IsExact (op : Opcode) (operands : List Value) (n : Int) : Prop where
  int_iff (i : Int64) : op.Answers operands (.ok (.int i)) ↔ i.toInt = n
  overflow_iff : op.Answers operands (.error .overflow) ↔ ¬ Integer.Fits n

theorem checked_eq_int_iff {i? : Option Int64} {i : Int64} :
    Operator.checked i? = .ok (.int i) ↔ i? = some i := by
  cases i? <;> simp [Operator.checked]

theorem checked_eq_overflow_iff {i? : Option Int64} :
    Operator.checked i? = .error .overflow ↔ i? = none := by
  cases i? <;> simp [Operator.checked]

theorem checked_ne_dividedByZero (i? : Option Int64) :
    Operator.checked i? ≠ .error .dividedByZero := by
  cases i? <;> simp [Operator.checked]

theorem checked_ne_float (i? : Option Int64) (d : Double) :
    Operator.checked i? ≠ .ok (.float d) := by
  cases i? <;> simp [Operator.checked]

theorem isExact_of_checked {n : Int}
    (h : opcode.Answers operands (Operator.checked (Integer.ofInt? n))) :
    opcode.IsExact operands n where
  int_iff _ := h.iff.trans (checked_eq_int_iff.trans Integer.ofInt?_eq_some_iff)
  overflow_iff := h.iff.trans (checked_eq_overflow_iff.trans Integer.ofInt?_eq_none_iff)

/-- The opcode answers with the number for amounts from 0 to 63, and else with overflow. -/
structure Shifts (op : Opcode) (a b : Int64) (n : Int) : Prop where
  int_iff (i : Int64) : op.Answers [.int b, .int a] (.ok (.int i)) ↔
    (0 ≤ b.toInt ∧ b.toInt < 64) ∧ i.toInt = n
  overflow_iff : op.Answers [.int b, .int a] (.error .overflow) ↔ ¬ (0 ≤ b.toInt ∧ b.toInt < 64)

theorem shifts_of_checked {shift : Int64 → Int64 → Int64} {n : Int}
    (h : opcode.Answers [.int b, .int a]
      (Operator.checked ((Integer.places? b).bind (Integer.shift? shift a))))
    (hvalue : 0 ≤ b.toInt ∧ b.toInt < 64 → (shift a b).toInt = n) : opcode.Shifts a b n where
  int_iff i := by
    rw [h.iff, checked_eq_int_iff, Integer.places?_bind_shift?]
    split
    · rename_i hb
      rw [and_iff_right hb, Option.some.injEq, ← Int64.toInt_inj, hvalue hb, eq_comm]
    · rename_i hb
      exact iff_of_false (by rintro ⟨⟩) fun h => hb h.1
  overflow_iff := by
    rw [h.iff, checked_eq_overflow_iff, Integer.places?_bind_shift?]
    split
    · rename_i hb
      exact iff_of_false (by rintro ⟨⟩) (absurd hb)
    · rename_i hb
      exact iff_of_true rfl hb

/--
Division answers with an integer exactly when that is the exact quotient, and with overflow when the
exact quotient does not fit. Where something remains it answers with a float.
-/
structure Divides (a b : Int64) : Prop where
  zero_iff : divide.Answers [.int b, .int a] (.error .dividedByZero) ↔ b = 0
  int_iff (q : Int64) : divide.Answers [.int b, .int a] (.ok (.int q)) ↔
    b ≠ 0 ∧ q.toInt * b.toInt = a.toInt
  overflow_iff : divide.Answers [.int b, .int a] (.error .overflow) ↔
    b ≠ 0 ∧ b.toInt ∣ a.toInt ∧ ¬ Integer.Fits (a.toInt / b.toInt)
  float_iff : (∃ d, divide.Answers [.int b, .int a] (.ok (.float d))) ↔
    b ≠ 0 ∧ ¬ b.toInt ∣ a.toInt

theorem divide_of_dvd (hb : b ≠ 0) (hdvd : b.toInt ∣ a.toInt) :
    Operator.compute .divide (.int a) (.int b) =
      Operator.checked (Integer.ofInt? (a.toInt / b.toInt)) := by
  have hmod : a % b = 0 := by
    rw [← Int64.toInt_inj, Int64.toInt_mod, Int64.toInt_zero, Int.tmod_eq_zero_of_dvd hdvd]
  rw [Operator.compute, Operator.divide, if_neg hb, Integer.rem?_of_ne hb,
    ← Int.tdiv_eq_ediv_of_dvd hdvd]
  by_cases hleast : a = Int64.minValue ∧ b = -1
  · rw [if_pos hleast, Integer.ofInt?_eq_none_iff.mpr (Integer.not_fits_tdiv_iff.mpr hleast),
      Operator.checked]
  · simp only [if_neg hleast, if_pos hmod, Integer.div?_of_ne hb]

theorem divide_of_not_dvd (hb : b ≠ 0) (hdvd : ¬ b.toInt ∣ a.toInt) :
    Operator.compute .divide (.int a) (.int b) =
      .ok (.float (Double.div (.ofInt64 a) (.ofInt64 b))) := by
  have hmod : a % b ≠ 0 := by
    rw [Ne, ← Int64.toInt_inj, Int64.toInt_mod, Int64.toInt_zero]
    exact fun h => hdvd (Int.dvd_of_tmod_eq_zero h)
  have hleast : ¬ (a = Int64.minValue ∧ b = -1) := by
    rintro ⟨rfl, rfl⟩
    exact hmod (by decide)
  simp only [Operator.compute, Operator.divide, if_neg hb, Integer.rem?_of_ne hb, if_neg hleast,
    if_neg hmod]

theorem divides (a b : Int64) : Divides a b := by
  have h : divide.Answers [.int b, .int a] (Operator.compute .divide (.int a) (.int b)) :=
    answers_binary .divide rfl a b
  by_cases hb : b = 0
  · subst hb
    have hzero : Operator.compute .divide (.int a) (.int 0) = .error .dividedByZero := rfl
    rw [hzero] at h
    constructor <;> simp [h.iff]
  by_cases hdvd : b.toInt ∣ a.toInt
  · rw [divide_of_dvd hb hdvd] at h
    have hexact := isExact_of_checked h
    have hquotient (q : Int64) : q.toInt = a.toInt / b.toInt ↔ q.toInt * b.toInt = a.toInt := by
      rw [eq_comm, Int.ediv_eq_iff_eq_mul_left (Integer.toInt_ne_zero hb) hdvd, eq_comm]
    constructor
    · simp [h.iff, checked_ne_dividedByZero, hb]
    · simp [hexact.int_iff, hquotient, hb]
    · simp [hexact.overflow_iff, hb, hdvd]
    · simp [h.iff, checked_ne_float, hdvd]
  · rw [divide_of_not_dvd hb hdvd] at h
    have hquotient (q : Int64) : q.toInt * b.toInt ≠ a.toInt :=
      fun hq => hdvd (Dvd.intro_left q.toInt hq)
    constructor <;> simp [h.iff, hb, hdvd, hquotient]

/--
The remainder is that of the quotient toward zero, where this quotient fits. The one that does not
fit is that of the least integer and minus one.
-/
structure Remains (a b : Int64) : Prop where
  zero_iff : remainder.Answers [.int b, .int a] (.error .dividedByZero) ↔ b = 0
  int_iff (r : Int64) : remainder.Answers [.int b, .int a] (.ok (.int r)) ↔
    b ≠ 0 ∧ ¬ (a = Int64.minValue ∧ b = -1) ∧ r.toInt = a.toInt.tmod b.toInt
  overflow_iff : remainder.Answers [.int b, .int a] (.error .overflow) ↔
    a = Int64.minValue ∧ b = -1

theorem remains (a b : Int64) : Remains a b := by
  have h : remainder.Answers [.int b, .int a] (Operator.compute .remainder (.int a) (.int b)) :=
    answers_binary .remainder rfl a b
  by_cases hb : b = 0
  · subst hb
    have hzero : Operator.compute .remainder (.int a) (.int 0) = .error .dividedByZero := rfl
    rw [hzero] at h
    constructor <;> simp [h.iff]
  rw [Operator.compute, Operator.remainder, if_neg hb, Integer.rem?_of_ne hb] at h
  by_cases hleast : a = Int64.minValue ∧ b = -1
  · rw [if_pos hleast] at h
    obtain ⟨rfl, rfl⟩ := hleast
    constructor <;> simp [h.iff, Operator.checked]
  · rw [if_neg hleast] at h
    constructor
    · simp [h.iff, Operator.checked, hb]
    · simp [h.iff, Operator.checked, hb, hleast, ← Int64.toInt_mod, Int64.toInt_inj, eq_comm]
    · simp [h.iff, Operator.checked, hleast]

/--
**The arithmetic of integers.** Each operator answers with the exact number where it fits and with
overflow where it does not, but for the remainder of the least integer by minus one. A shift wraps
to 64 bits on the left and rounds down on the right.
-/
theorem integer_arithmetic (a b : Int64) :
    add.IsExact [.int b, .int a] (a.toInt + b.toInt) ∧
    subtract.IsExact [.int b, .int a] (a.toInt - b.toInt) ∧
    multiply.IsExact [.int b, .int a] (a.toInt * b.toInt) ∧
    negate.IsExact [.int a] (-a.toInt) ∧
    Divides a b ∧ Remains a b ∧
    shiftLeft.Shifts a b ((a.toInt * 2 ^ b.toInt.toNat).bmod (2 ^ 64)) ∧
    shiftRight.Shifts a b (a.toInt.fdiv (2 ^ b.toInt.toNat)) :=
  ⟨isExact_of_checked (answers_binary .add rfl a b),
    isExact_of_checked (answers_binary .subtract rfl a b),
    isExact_of_checked (answers_binary .multiply rfl a b),
    isExact_of_checked (answers_unary .negate rfl a), divides a b, remains a b,
    shifts_of_checked (answers_binary .shiftLeft rfl a b) Integer.toInt_shiftLeft,
    shifts_of_checked (answers_binary .shiftRight rfl a b) Integer.toInt_shiftRight⟩

/-- Nothing remains when the least integer is divided by minus one, yet the remainder overflows. -/
theorem remainder_of_least :
    Int64.minValue.toInt.tmod (Int64.toInt (-1)) = 0 ∧ Integer.Fits 0 ∧
      remainder.Answers [.int (-1), .int Int64.minValue] (.error .overflow) ∧
      ¬ remainder.Answers [.int (-1), .int Int64.minValue] (.ok (.int 0)) := by
  have h : remainder.Answers [.int (-1), .int Int64.minValue] (.error .overflow) :=
    (remains _ _).overflow_iff.mpr ⟨rfl, rfl⟩
  refine ⟨by decide, Integer.fits_toInt 0, h, fun hzero => ?_⟩
  cases h.unique hzero

end Opcode

end FiberMachine
