import Mathlib.Algebra.Group.Int.Defs
import Mathlib.Algebra.GroupWithZero.Nat
import FiberMachine.Artifact.Decode

/-!
# Reading what was written

`Reads item bytes x` says that `item` takes exactly `bytes` off the front, whatever follows them,
and makes `x` of them. The relation composes along `bind` (`Reads.bind`), so every part of the
format has one lemma: what its writer yields is read back by its reader. A part of a module is read
back in its normal form, in which an opcode without operand has the operand zero.
-/

namespace FiberMachine

/-! ## Normal forms -/

/-- The instruction with the operand zero when its opcode takes none. -/
def Instruction.normalized (i : Instruction) : Instruction :=
  { i with operand := if i.opcode.hasOperand then i.operand else 0 }

def Code.normalized (c : Code) : Code :=
  { c with instructions := c.instructions.map Instruction.normalized }

def TemplateCode.normalized (t : TemplateCode) : TemplateCode :=
  { t with methods := t.methods.map Code.normalized }

def Constant.normalized : Constant → Constant
  | .code c => .code c.normalized
  | .template t => .template t.normalized
  | c => c

def LinkedModule.normalized (m : LinkedModule) : LinkedModule :=
  { m with pool := m.pool.map Constant.normalized }

namespace Artifact

/-! ## Words -/

@[simp] theorem wordBytes_length (width n : Nat) : (wordBytes width n).length = width := by
  induction width generalizing n with
  | zero => rfl
  | succ width ih => simp [wordBytes, ih]

theorem wordOf_wordBytes {width n : Nat} (h : n < 256 ^ width) :
    wordOf (wordBytes width n) = n := by
  induction width generalizing n with
  | zero =>
    have hn : n = 0 := by simpa using h
    simp [wordBytes, wordOf, hn]
  | succ width ih =>
    have hd : n / 256 < 256 ^ width := by
      rw [Nat.pow_succ] at h
      exact Nat.div_lt_of_lt_mul (by omega)
    have hb : n.toUInt8.toNat = n % 256 := by simp
    rw [wordBytes, wordOf, ih hd, hb]
    omega

theorem unsigned32_of_nonneg {n : Nat} (h : n < 2 ^ 31) : unsigned32 n = n := by
  unfold unsigned32 UInt32.size
  omega

theorem unsigned32_lt (i : Int) : unsigned32 i < 2 ^ 32 := by
  unfold unsigned32 UInt32.size
  omega

theorem signed32_unsigned32 {i : Int} (hl : -2 ^ 31 ≤ i) (hu : i < 2 ^ 31) :
    signed32 (unsigned32 i) = i := by
  unfold signed32 unsigned32 signBit UInt32.size
  split <;> omega

/-! ## The relation between bytes and values -/

/-- Whatever follows `bytes`, the reader takes exactly them and makes `x` of them. -/
def Reads {α : Type} (item : Reader α) (bytes : Bytes) (x : α) : Prop :=
  ∀ rest, item (bytes ++ rest) = .ok (x, rest)

namespace Reads

variable {α β : Type} {bytes bytes' : Bytes}

theorem pure (x : α) : Reads (pure x) [] x := fun _ => rfl

theorem bind {item : Reader α} {next : α → Reader β} {x : α} {y : β}
    (h : Reads item bytes x) (h' : Reads (next x) bytes' y) :
    Reads (item >>= next) (bytes ++ bytes') y := by
  intro rest
  rw [List.append_assoc]
  show (item (bytes ++ (bytes' ++ rest)) >>= fun p => next p.1 p.2) = _
  rw [h (bytes' ++ rest)]
  exact h' rest

/-- The reader takes the first byte. -/
theorem cons {item : Reader α} {next : α → Reader β} {b : UInt8} {x : α} {y : β}
    (h : Reads item [b] x) (h' : Reads (next x) bytes y) :
    Reads (item >>= next) (b :: bytes) y := h.bind h'

/-- What comes after the reader takes no bytes. -/
theorem last {item : Reader α} {next : α → Reader β} {x : α} {y : β}
    (h : Reads item bytes x) (h' : Reads (next x) [] y) : Reads (item >>= next) bytes y := by
  have := h.bind h'
  rwa [List.append_nil] at this

theorem map {item : Reader α} {x : α} (f : α → β) (h : Reads item bytes x) :
    Reads (item >>= fun a => Pure.pure (f a)) bytes (f x) := h.last (Reads.pure _)

/-- A reader that first looks at all the bytes that are left. -/
theorem get_bind {next : Bytes → Reader β} {y : β}
    (h : ∀ rest, next (bytes ++ rest) (bytes ++ rest) = .ok (y, rest)) :
    Reads (get >>= next) bytes y := h

end Reads

/-! ## Readers of bytes, words and strings -/

namespace Reader

theorem split_append (bytes rest : Bytes) :
    split bytes.length (bytes ++ rest) = some (bytes, rest) := by
  induction bytes with
  | nil => rfl
  | cons b bytes ih => simp [split, ih]

theorem reads_take {bytes : Bytes} {count : Nat} (h : bytes.length = count) :
    Reads (take count) bytes bytes := by
  intro rest
  simp only [take, ← h, split_append]

theorem reads_word (width : Nat) {n : Nat} (h : n < 256 ^ width) :
    Reads (word width) (wordBytes width n) n := by
  have := (reads_take (wordBytes_length width n)).map wordOf
  rwa [wordOf_wordBytes h] at this

theorem reads_u8 (b : UInt8) : Reads u8 [b] b := by
  have hb : [b] = wordBytes 1 b.toNat := by simp [wordBytes]
  have h := (reads_word 1 (n := b.toNat) b.toNat_lt).map Nat.toUInt8
  rwa [show b.toNat.toUInt8 = b from UInt8.ofNat_toNat, ← hb] at h

theorem reads_u16 (n : UInt16) : Reads u16 (wordBytes 2 n.toNat) n := by
  have h := (reads_word 2 (n := n.toNat) n.toNat_lt).map Nat.toUInt16
  rwa [show n.toNat.toUInt16 = n from UInt16.ofNat_toNat] at h

theorem reads_u32 (n : UInt32) : Reads u32 (wordBytes 4 n.toNat) n := by
  have h := (reads_word 4 (n := n.toNat) n.toNat_lt).map Nat.toUInt32
  rwa [show n.toNat.toUInt32 = n from UInt32.ofNat_toNat] at h

theorem reads_u64 (n : UInt64) : Reads u64 (wordBytes 8 n.toNat) n := by
  have h := (reads_word 8 (n := n.toNat) n.toNat_lt).map Nat.toUInt64
  rwa [show n.toNat.toUInt64 = n from UInt64.ofNat_toNat] at h

theorem reads_i32 {i : Int} (hl : -2 ^ 31 ≤ i) (hu : i < 2 ^ 31) :
    Reads i32 (wordBytes 4 (unsigned32 i)) i := by
  have := (reads_word 4 (unsigned32_lt i)).map signed32
  rwa [signed32_unsigned32 hl hu] at this

theorem reads_length {n : Nat} (h : n < 2 ^ 31) : Reads length (wordBytes 4 n) n := by
  have hi := reads_i32 (i := n) (by omega) (by omega)
  rw [unsigned32_of_nonneg h] at hi
  refine hi.last ?_
  rw [if_neg (by omega)]
  exact Reads.pure n

end Reader

/-! ## Strings -/

theorem toList_loop_eq (bytes : ByteArray) (i : Nat) (done : List UInt8) :
    ByteArray.toList.loop bytes i done = done.reverse ++ bytes.data.toList.drop i := by
  fun_induction ByteArray.toList.loop bytes i done with
  | case1 i done h ih =>
    have hi : i < bytes.data.toList.length := by simpa using h
    have hget : bytes.get! i = bytes.data.toList[i] := by
      simp [ByteArray.get!, getElem!_pos bytes.data i (by simpa using h)]
    rw [ih, hget, List.reverse_cons, List.append_assoc, List.drop_eq_getElem_cons hi]
    rfl
  | case2 i done h =>
    have hi : bytes.data.toList.length ≤ i := by simpa using h
    rw [List.drop_eq_nil_of_le hi, List.append_nil]

theorem toList_toUTF8 (s : String) : s.toUTF8.toList = s.toByteArray.data.toList := by
  simp [ByteArray.toList, toList_loop_eq]

theorem length_toUTF8 (s : String) : s.toUTF8.toList.length = s.utf8ByteSize := by
  rw [toList_toUTF8, Array.length_toList]
  rfl

theorem fromUTF8?_toUTF8 (s : String) : String.fromUTF8? s.toUTF8.toList.toByteArray = some s := by
  have hb : s.toUTF8.toList.toByteArray = s.toByteArray := by
    rw [toList_toUTF8]
    ext1
    simp
  rw [hb, String.fromUTF8?, dif_pos s.isValidUTF8]
  rfl

namespace Written

variable {bytes : Bytes}

theorem bind_eq_ok {α : Type} {w : Except LinkError α} {next : α → Written} :
    (w >>= next) = .ok bytes ↔ ∃ a, w = .ok a ∧ next a = .ok bytes := by
  cases w with
  | error e => exact ⟨(nomatch ·), fun ⟨_, h, _⟩ => nomatch h⟩
  | ok a => exact ⟨fun h => ⟨a, rfl, h⟩, fun ⟨_, h, h'⟩ => by cases h; exact h'⟩

theorem length_eq_ok {n : Nat} (h : length n = .ok bytes) : n < 2 ^ 31 ∧ bytes = wordBytes 4 n := by
  unfold length at h
  split at h
  · cases h; exact ⟨‹_›, rfl⟩
  · cases h

theorem count_eq_ok {n : Nat} (h : count n = .ok bytes) : n < 2 ^ 32 ∧ bytes = wordBytes 4 n := by
  unfold count at h
  split at h
  · cases h; exact ⟨‹_›, rfl⟩
  · cases h

theorem reads_absent : Reads Reader.string? absent none :=
  (Reader.reads_i32 (i := -1) (by decide) (by decide)).last (Reads.pure none)

theorem reads_string? {s : String} (h : string s = .ok bytes) :
    Reads Reader.string? bytes (some s) := by
  obtain ⟨front, hf, h⟩ := bind_eq_ok.1 h
  cases h
  obtain ⟨hlt, rfl⟩ := length_eq_ok hf
  have hi := Reader.reads_i32 (i := s.utf8ByteSize) (by omega) (by omega)
  rw [unsigned32_of_nonneg hlt] at hi
  refine hi.bind ?_
  rw [if_neg (by omega), if_neg (by omega)]
  have ht : Reads (Reader.text s.utf8ByteSize) s.toUTF8.toList s := by
    refine (Reader.reads_take (length_toUTF8 s)).last ?_
    rw [fromUTF8?_toUTF8]
    exact Reads.pure s
  exact ht.map some

theorem reads_string {s : String} (h : string s = .ok bytes) : Reads Reader.string bytes s :=
  (reads_string? h).last (Reads.pure s)

theorem reads_name {name? : Option String} (h : name name? = .ok bytes) :
    Reads Reader.string? bytes name? := by
  cases name? with
  | none => cases h; exact reads_absent
  | some s => exact reads_string? h

/-! ## Lists -/

/-- A list is read back item by item, each in the form `f` that its reader gives it. -/
theorem reads_all {α : Type} {write : α → Written} {item : Reader α} {f : α → α} {xs : List α}
    (H : ∀ x ∈ xs, ∀ b, write x = .ok b → Reads item b (f x)) (h : all write xs = .ok bytes) :
    Reads (Reader.repeated item xs.length) bytes (xs.map f) := by
  induction xs generalizing bytes with
  | nil => cases h; exact Reads.pure []
  | cons x xs ih =>
    obtain ⟨front, hf, h⟩ := bind_eq_ok.1 h
    obtain ⟨rest, hr, h⟩ := bind_eq_ok.1 h
    cases h
    have hx := H x (by simp) front hf
    have hxs := ih (fun y hy => H y (by simp [hy])) hr
    exact hx.bind (hxs.map (f x :: ·))

/-- A count in front of what it counts. -/
theorem reads_count {β : Type} {n : Nat} {next : UInt32 → Reader β} {front rest : Bytes} {y : β}
    (h : count n = .ok front) (H : ∀ k : UInt32, k.toNat = n → Reads (next k) rest y) :
    Reads (Reader.u32 >>= next) (front ++ rest) y := by
  obtain ⟨hlt, rfl⟩ := count_eq_ok h
  have hn : n.toUInt32.toNat = n := by simpa using Nat.mod_eq_of_lt hlt
  have hu := Reader.reads_u32 n.toUInt32
  rw [hn] at hu
  exact hu.bind (H _ hn)

/-- The bound on the number of keywords is one that the bytes of the keywords keep to. -/
theorem reads_keywords {keywords : List String} {bound : Nat} (hb : keywords.length < bound)
    (h : all string keywords = .ok bytes) :
    Reads (Reader.keywords bound) (bytes ++ absent) keywords := by
  induction keywords generalizing bytes bound with
  | nil =>
    obtain ⟨bound, rfl⟩ := Nat.exists_eq_succ_of_ne_zero (Nat.ne_of_gt hb)
    cases h
    exact reads_absent.last (Reads.pure [])
  | cons s keywords ih =>
    obtain ⟨bound, rfl⟩ := Nat.exists_eq_succ_of_ne_zero (Nat.ne_of_gt (Nat.zero_lt_of_lt hb))
    obtain ⟨front, hf, h⟩ := bind_eq_ok.1 h
    obtain ⟨rest, hr, h⟩ := bind_eq_ok.1 h
    cases h
    have hlt : keywords.length < bound := by simpa using hb
    have hxs := ih hlt hr
    rw [List.append_assoc]
    exact (reads_string? hf).bind (hxs.map (s :: ·))

theorem length_le_of_all_string {keywords : List String} (h : all string keywords = .ok bytes) :
    keywords.length ≤ bytes.length := by
  induction keywords generalizing bytes with
  | nil => simp
  | cons s keywords ih =>
    obtain ⟨front, hf, h⟩ := bind_eq_ok.1 h
    obtain ⟨rest, hr, h⟩ := bind_eq_ok.1 h
    cases h
    obtain ⟨size, hs, hf⟩ := bind_eq_ok.1 hf
    cases hf
    obtain ⟨-, rfl⟩ := length_eq_ok hs
    have := ih hr
    simp only [List.length_append, List.length_cons, wordBytes_length]
    omega

/-! ## Code -/

theorem flags_positional (s : Signature) :
    (flags s &&& variadicPositionalFlag != 0) = s.variadicPositional := by
  unfold flags
  cases s.variadicPositional <;> cases s.variadicKeyword <;> rfl

theorem flags_keyword (s : Signature) :
    (flags s &&& variadicKeywordFlag != 0) = s.variadicKeyword := by
  unfold flags
  cases s.variadicPositional <;> cases s.variadicKeyword <;> rfl

theorem reads_signature {s : Signature} {keywords : Bytes}
    (h : all string s.keywords = .ok keywords) :
    Reads Reader.signature
      (wordBytes 4 s.positional.toNat ++ (keywords ++ absent ++ [flags s])) s := by
  refine (Reader.reads_u32 s.positional).bind (Reads.get_bind fun rest => ?_)
  have hb : s.keywords.length < (keywords ++ absent ++ [flags s] ++ rest).length := by
    have := length_le_of_all_string h
    simp only [List.length_append, List.length_cons]
    omega
  refine ((reads_keywords hb h).bind ((Reader.reads_u8 (flags s)).last ?_)) rest
  rw [flags_positional, flags_keyword]
  exact Reads.pure s

theorem reads_capture {c : Capture} (h : capture c = .ok bytes) :
    Reads Reader.capture bytes c := by
  cases c with
  | slot i =>
    obtain ⟨hlt, rfl⟩ := length_eq_ok (n := i.toNat) h
    have hi := Reader.reads_i32 (i := i.toNat) (by omega) (by omega)
    rw [unsigned32_of_nonneg hlt] at hi
    refine hi.last ?_
    rw [if_neg (by omega), Int.toNat_natCast, show i.toNat.toUInt32 = i from UInt32.ofNat_toNat]
    exact Reads.pure _
  | outer i =>
    simp only [capture] at h
    split at h
    · rename_i hlt
      unfold signBit at hlt
      cases h
      have hi := Reader.reads_i32 (i := -(i.toNat : Int) - 1) (by omega) (by omega)
      refine hi.last ?_
      rw [if_pos (by omega), show (-(-(i.toNat : Int) - 1) - 1).toNat = i.toNat by omega,
        show i.toNat.toUInt32 = i from UInt32.ofNat_toNat]
      exact Reads.pure _
    · cases h

theorem reads_handler {handler? : Option UInt32} (h : handler handler? = .ok bytes) :
    Reads Reader.handler bytes handler? := by
  cases handler? with
  | none =>
    cases h
    exact (Reader.reads_i32 (i := -1) (by decide) (by decide)).last (Reads.pure none)
  | some i =>
    obtain ⟨hlt, rfl⟩ := length_eq_ok (n := i.toNat) h
    have hi := Reader.reads_i32 (i := i.toNat) (by omega) (by omega)
    rw [unsigned32_of_nonneg hlt] at hi
    refine hi.last ?_
    rw [if_neg (by omega), if_neg (by omega), Int.toNat_natCast,
      show i.toNat.toUInt32 = i from UInt32.ofNat_toNat]
    exact Reads.pure _

theorem ofOrdinal?_ordinal (op : Opcode) : Opcode.ofOrdinal? op.ordinal = some op := by
  cases op <;> rfl

theorem reads_opcode (op : Opcode) : Reads Reader.opcode [op.ordinal] op := by
  refine (Reader.reads_u8 op.ordinal).last ?_
  rw [ofOrdinal?_ordinal]
  exact Reads.pure op

theorem reads_position (p : SourcePosition) :
    Reads Reader.position (wordBytes 4 p.line.toNat ++ wordBytes 4 p.column.toNat) p :=
  (Reader.reads_u32 p.line).bind ((Reader.reads_u32 p.column).last (Reads.pure p))

theorem reads_range (r : SourceRange) : Reads Reader.range (range r) r := by
  rw [range, List.append_assoc]
  exact (reads_position r.start).bind ((reads_position r.stop).last (Reads.pure r))

theorem reads_instruction {i : Instruction} (h : instruction i = .ok bytes) :
    Reads Reader.instruction bytes i.normalized := by
  obtain ⟨hb, hh, h⟩ := bind_eq_ok.1 h
  cases h
  have htail (operand : UInt32) :
      Reads (do
        let handler ← Reader.handler
        let range ← Reader.range
        return { opcode := i.opcode, operand, handler, range }) (hb ++ range i.range)
        { i with operand } :=
    (reads_handler hh).bind ((reads_range i.range).last (Reads.pure _))
  rw [List.append_assoc]
  refine (reads_opcode i.opcode).cons ?_
  unfold operand Instruction.normalized
  cases i.opcode.hasOperand with
  | true => exact (Reader.reads_u32 i.operand).bind (htail i.operand)
  | false => exact (Reads.pure 0).bind (htail 0)

theorem reads_code {c : Code} (h : code c = .ok bytes) : Reads Reader.code bytes c.normalized := by
  obtain ⟨nb, hn, h⟩ := bind_eq_ok.1 h
  obtain ⟨kb, hk, h⟩ := bind_eq_ok.1 h
  obtain ⟨cn, hcn, h⟩ := bind_eq_ok.1 h
  obtain ⟨cb, hc, h⟩ := bind_eq_ok.1 h
  obtain ⟨_, hcs, h⟩ := bind_eq_ok.1 h
  obtain ⟨iN, hin, h⟩ := bind_eq_ok.1 h
  obtain ⟨ib, hi, h⟩ := bind_eq_ok.1 h
  obtain ⟨_, his, h⟩ := bind_eq_ok.1 h
  cases hcs
  cases his
  cases h
  have hcaptures := reads_all (f := id) (fun _ _ _ h => reads_capture h) hc
  have hinstructions := reads_all (fun _ _ _ h => reads_instruction h) hi
  rw [List.map_id] at hcaptures
  have hbytes : nb ++ wordBytes 4 c.signature.positional.toNat ++ kb ++ absent ++
      flags c.signature :: (cn ++ cb ++ (iN ++ ib)) =
      nb ++ (wordBytes 4 c.signature.positional.toNat ++ (kb ++ absent ++ [flags c.signature]) ++
        (cn ++ (cb ++ (iN ++ ib)))) := by simp
  have hcode : c.normalized =
      { c with instructions := (c.instructions.toList.map Instruction.normalized).toArray } := by
    simp [Code.normalized, ← Array.toList_map]
  rw [hbytes, hcode]
  refine (reads_name hn).bind ((reads_signature hk).bind ?_)
  refine reads_count hcn fun k hk => ?_
  rw [hk]
  refine hcaptures.bind (reads_count hin fun k hk => ?_)
  rw [hk]
  exact hinstructions.last (Reads.pure _)

theorem reads_method {c : Code} (h : method c = .ok bytes) :
    Reads Reader.method bytes c.normalized := by
  obtain ⟨body, hb, h⟩ := bind_eq_ok.1 h
  obtain ⟨front, hf, h⟩ := bind_eq_ok.1 h
  cases h
  obtain ⟨hlt, rfl⟩ := length_eq_ok hf
  refine (Reader.reads_length hlt).bind ((Reader.reads_take rfl).last fun rest => ?_)
  have hc := reads_code hb []
  rw [List.append_nil] at hc
  have hw : Reader.whole Reader.code body = .ok c.normalized := by
    simp only [Reader.whole, hc]
    rfl
  rw [hw]
  rfl

/-! ## Constants -/

theorem toUInt8_ne_zero (b : Bool) : (b.toUInt8 != 0) = b := by cases b <;> rfl

theorem reads_template {t : TemplateCode} (h : template t = .ok bytes) :
    Reads Reader.template bytes t.normalized := by
  obtain ⟨nb, hn, h⟩ := bind_eq_ok.1 h
  obtain ⟨mn, hmn, h⟩ := bind_eq_ok.1 h
  obtain ⟨mb, hm, h⟩ := bind_eq_ok.1 h
  obtain ⟨_, hms, h⟩ := bind_eq_ok.1 h
  cases hms
  cases h
  have hmethods := reads_all (fun _ _ _ h => reads_method h) hm
  refine (reads_string hn).bind ((Reader.reads_u8 t.sealed.toUInt8).cons ?_)
  refine reads_count hmn fun k hk => ?_
  rw [hk, toUInt8_ne_zero]
  exact hmethods.last (Reads.pure _)

theorem reads_constant {c : Constant} (h : constant c = .ok bytes) :
    Reads Reader.constant bytes c.normalized := by
  cases c with
  | bool b =>
    cases h
    refine (Reader.reads_u8 boolTag).cons ((Reader.reads_u8 b.toUInt8).last ?_)
    rw [toUInt8_ne_zero]
    exact Reads.pure _
  | int i =>
    cases h
    refine (Reader.reads_u8 intTag).cons ((Reader.reads_u64 i.toUInt64).last ?_)
    exact Reads.pure _
  | float d =>
    cases h
    exact (Reader.reads_u8 floatTag).cons ((Reader.reads_u64 d.bits).last
      (Reads.pure _))
  | string s =>
    obtain ⟨b, hb, h⟩ := bind_eq_ok.1 h
    cases h
    exact (Reader.reads_u8 stringTag).cons ((reads_string hb).map Constant.string)
  | code c =>
    obtain ⟨b, hb, h⟩ := bind_eq_ok.1 h
    cases h
    exact (Reader.reads_u8 codeTag).cons ((reads_code hb).map Constant.code)
  | template t =>
    obtain ⟨b, hb, h⟩ := bind_eq_ok.1 h
    cases h
    exact (Reader.reads_u8 templateTag).cons
      ((reads_template hb).map Constant.template)

theorem reads_version (v : Version) : Reads Reader.version (version v) v := by
  rw [version, List.append_assoc]
  exact (Reader.reads_u16 v.major).bind ((Reader.reads_u16 v.minor).bind
    ((Reader.reads_u32 v.patch).last (Reads.pure v)))

end Written

theorem reads_pool {m : LinkedModule} {bytes : Bytes} (h : encode m = .ok bytes) :
    Reads Reader.pool bytes m.normalized.pool.toList := by
  obtain ⟨front, hf, h⟩ := Written.bind_eq_ok.1 h
  obtain ⟨rest, hr, h⟩ := Written.bind_eq_ok.1 h
  cases h
  have hpool := Written.reads_all (fun _ _ _ h => Written.reads_constant h) hr
  have hm : m.normalized.pool.toList = m.pool.toList.map Constant.normalized := by
    simp [LinkedModule.normalized]
  rw [hm, List.append_assoc]
  refine (Written.reads_version .current).bind (Written.reads_count hf fun k hk => ?_)
  rw [hk]
  exact hpool

end Artifact

end FiberMachine
