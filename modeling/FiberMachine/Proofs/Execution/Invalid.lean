import FiberMachine.Machine
import FiberMachine.Proofs.Execution.Effect
import FiberMachine.Proofs.Execution.Slots

/-!
# Why an instruction is invalid

An instruction raises `invalidInstruction` only because the frame does not have the operands or the
argument vector that it takes, or because its own operand does not lead to a constant, a name, a
code object or a captured cell (`Exec.lacks_of_step`). Neither an instruction nor a call that is
prepared fails with a fatal fault (`Exec.mild_step`, `Machine.mild_prepareCall`).
-/

namespace FiberMachine

/-- The number of values on the stack that an instruction takes or looks at. -/
def Opcode.operands : Opcode → Nat
  | .pop | .dup | .storeLocal | .storeCell | .newCell | .storeCapture | .storeGlobal | .getAttr
  | .export | .lock | .seal | .negate | .not | .jumpIf | .jumpIfNot | .pushArg | .pushKeyword
  | .invoke | .throw => 1
  | .swap | .setAttr | .declareConst | .getIndex | .add | .subtract | .multiply | .divide
  | .remainder | .bitwiseAnd | .bitwiseOr | .bitwiseXor | .shiftLeft | .shiftRight | .equal
  | .notEqual | .lessThan | .lessThanOrEqual | .greaterThan | .greaterThanOrEqual | .call
  | .bind => 2
  | .setIndex => 3
  | _ => 0

/-- The number of argument vectors that an instruction takes or adds to. -/
def Opcode.vectors : Opcode → Nat
  | .pushArg | .pushKeyword | .call | .invoke | .newArray | .newObject => 1
  | _ => 0

/-- What the operand of the instruction is to lead to is not there. -/
def Local.Misses (l : Local) (i : Instruction) : Prop :=
  let constant := l.frame.scope.constants[i.operand.toNat]?
  match i.opcode.operandKind with
  | .none | .slot | .target => False
  | .constant => constant = none
  | .name => ∀ s, constant ≠ some (.string s)
  | .capture => l.frame.captures[i.operand.toNat]? = none
  | .code => ∀ r code, constant = some (.code r) → l.heap.code? r = some code →
    ∃ j, .outer j ∈ code.captures ∧ l.frame.captures[j.toNat]? = none

/-- The frame does not have what the instruction needs. -/
inductive Local.Lacks (l : Local) (i : Instruction) : Prop where
  | operands : l.frame.stack.length < i.opcode.operands → l.Lacks i
  | vectors : l.frame.args.length < i.opcode.vectors → l.Lacks i
  | referent : l.Misses i → l.Lacks i

/-- The constant, name or code object that the instruction refers to is there. -/
def Local.Finds (l : Local) (i : Instruction) : Prop :=
  let constant := l.frame.scope.constants[i.operand.toNat]?
  match i.opcode.operandKind with
  | .none | .slot | .target | .capture => True
  | .constant => ∃ value, constant = some value
  | .name => ∃ s, constant = some (.string s)
  | .code => ∃ r code, constant = some (.code r) ∧ l.heap.code? r = some code

/-- A captured cell that the instruction reads, writes or hands on to a closure is not there. -/
def Local.MissesCell (l : Local) (i : Instruction) : Prop :=
  ∃ j : UInt32, l.frame.captures[j.toNat]? = none ∧
    match i.opcode.operandKind with
    | .capture => j = i.operand
    | .code => ∃ r code, l.frame.scope.constants[i.operand.toNat]? = some (.code r) ∧
      l.heap.code? r = some code ∧ .outer j ∈ code.captures
    | _ => False

/-- Where constants, names and code objects are found, it is captured cells that are missing. -/
theorem Local.Misses.cell {l : Local} {i : Instruction} (h : l.Misses i) (hfinds : l.Finds i) :
    l.MissesCell i := by
  unfold Local.Misses at h
  unfold Local.Finds at hfinds
  unfold Local.MissesCell
  revert h hfinds
  cases i.opcode.operandKind with
  | none | slot | target => exact fun h => h.elim
  | constant =>
    rintro h ⟨value, hvalue⟩
    exact nomatch h.symm.trans hvalue
  | name =>
    rintro h ⟨s, hs⟩
    exact absurd hs (h s)
  | capture => exact fun h _ => ⟨i.operand, h, rfl⟩
  | code =>
    rintro h ⟨r, code, hr, hcode⟩
    obtain ⟨j, hj, hnone⟩ := h r code hr hcode
    exact ⟨j, hnone, r, code, hr, hcode, hj⟩

/-! ## Ordinary faults -/

/-- Whether the fault is neither fatal nor an invalid instruction. -/
def Fault.isOrdinary : Fault → Bool
  | .invalidInstruction => false
  | fault => !fault.isFatal

/-- The result is a value or an ordinary fault. -/
def Ordinary {α : Type} : Except Fault α → Prop
  | .ok _ => True
  | .error fault => fault.isOrdinary

section Ordinary

variable {α β : Type}

theorem Ordinary.bind {e : Except Fault α} {next : α → Except Fault β} (h : Ordinary e)
    (h' : ∀ a, Ordinary (next a)) : Ordinary (e >>= next) := by
  cases e with
  | error fault => exact h
  | ok a => exact h' a

theorem Ordinary.of_error {e : Except Fault α} (h : Ordinary e) {fault : Fault}
    (heq : e = .error fault) : fault.isOrdinary := by
  subst heq
  exact h

theorem Fault.not_isFatal_of_isOrdinary {fault : Fault} (h : fault.isOrdinary) :
    fault.isFatal = false := by
  cases fault <;> first | rfl | exact nomatch h

theorem Fault.ne_invalid_of_isOrdinary {fault : Fault} (h : fault.isOrdinary) :
    fault ≠ .invalidInstruction := by
  rintro rfl
  exact nomatch h

theorem Object.ordinary_get (o : Object) (name : String) (caller : Option ModuleId) :
    Ordinary (o.get name caller) := by
  unfold Object.get
  repeat' split
  all_goals trivial

theorem Object.isOrdinary_of_writeFault? {o : Object} {name : String} {caller : Option ModuleId}
    {fault : Fault} (h : o.writeFault? name caller = some fault) : fault.isOrdinary := by
  unfold Object.writeFault? at h
  repeat' split at h
  all_goals
    cases h
    try rfl

theorem Object.ordinary_adjust (o : Object) (name : String) (caller : Option ModuleId)
    (change : Attribute → Attribute) : Ordinary (o.adjust name caller change) := by
  unfold Object.adjust
  repeat' split
  all_goals trivial

theorem Object.ordinary_update (o : Object) (u : Object.Update) : Ordinary (o.update u) := by
  cases u with
  | set name value caller | declareConst name value caller =>
    simp only [Object.update, Object.set, Object.declareConst]
    split
    · exact isOrdinary_of_writeFault? ‹_›
    · split <;> trivial
  | reserveConst name =>
    simp only [Object.update, Object.reserveConst]
    repeat' split
    all_goals trivial
  | «export» name caller | lock name caller => exact o.ordinary_adjust name caller _
  | «seal» => trivial

theorem Heap.ordinary_updated (h : Heap) (r : Ref .object) (u : Object.Update) :
    Ordinary (h.updated r u) := by
  unfold Heap.updated
  split
  · rfl
  · exact Object.ordinary_update _ _

theorem Signature.isOrdinary_of_mismatch? {s : Signature} {args : Arguments} {fault : Fault}
    (h : s.mismatch? args = some fault) : fault.isOrdinary := by
  simp only [Signature.mismatch?] at h
  repeat' split at h
  all_goals
    cases h
    try rfl

theorem Sequence.ordinary_get (s : Sequence) (index : Int64) : Ordinary (s.get index) := by
  unfold Sequence.get
  split <;> trivial

theorem Sequence.ordinary_set (s : Sequence) (index : Int64) (value : Value) :
    Ordinary (s.set index value) := by
  unfold Sequence.set
  repeat' split
  all_goals trivial

theorem Sequence.ordinary_extend (s : Sequence) (values : List Value) :
    Ordinary (s.extend values) := by
  induction values generalizing s with
  | nil => trivial
  | cons value rest ih =>
    refine Ordinary.bind ?_ fun s => ih s
    unfold Sequence.push
    split <;> trivial

theorem Sequence.ordinary_pop (s : Sequence) : Ordinary s.pop := by
  unfold Sequence.pop
  split <;> trivial

namespace Builtin

theorem ordinary_found (a? : Option α) : Ordinary (found a?) := by
  cases a? <;> trivial

theorem ordinary_ofLength (n : Nat) : Ordinary (ofLength n) := by
  unfold ofLength
  split <;> trivial

theorem ordinary_property (h : Heap) (target : Value) (builtin : Builtin) :
    Ordinary (property h target builtin) := by
  unfold property
  split
  · exact (ordinary_found _).bind fun _ => ordinary_ofLength _
  · exact ordinary_ofLength _
  · refine (ordinary_found _).bind fun _ => ?_
    split <;> trivial
  · exact (ordinary_found _).bind fun _ => trivial
  · exact (ordinary_found _).bind fun _ => trivial
  · exact (ordinary_found _).bind fun _ => trivial
  · exact (ordinary_found _).bind fun _ => trivial
  · rfl

theorem ordinary_readAttribute (h : Heap) (target : Value) (name : String)
    (caller : Option ModuleId) : Ordinary (readAttribute h target name caller) := by
  unfold readAttribute
  split
  · exact (ordinary_found _).bind fun o => o.ordinary_get name caller
  · split
    · split
      · exact ordinary_property _ _ _
      · rfl
    · rfl

theorem ordinary_argument (args : Arguments) (index : Nat) : Ordinary (argument args index) := by
  unfold argument
  split <;> trivial

theorem ordinary_integerArgument (args : Arguments) (index : Nat) :
    Ordinary (integerArgument args index) := by
  refine (ordinary_argument args index).bind fun value => ?_
  cases value.asInt? <;> trivial

theorem ordinary_joined (s : String) (values : List Value) : Ordinary (joined s values) := by
  fun_induction joined s values with
  | case1 => trivial
  | case2 _ _ _ ih => exact ih
  | case3 => rfl

theorem ordinary_call (h : Heap) (target : Value) (name : String) (args : Arguments) :
    Ordinary (call h target name args) := by
  unfold call
  split
  · split
    · exact (ordinary_found _).bind fun s => (s.ordinary_extend _).bind fun _ => trivial
    · exact (ordinary_found _).bind fun s => s.ordinary_pop.bind fun _ => trivial
    · exact (ordinary_integerArgument _ _).bind fun _ => (ordinary_found _).bind fun s =>
        (s.ordinary_get _).bind fun _ => trivial
    · exact (ordinary_integerArgument _ _).bind fun _ => (ordinary_argument _ _).bind fun _ =>
        (ordinary_found _).bind fun s => (s.ordinary_set _ _).bind fun _ => trivial
    · exact (ordinary_joined _ _).bind fun _ => trivial
    · exact (ordinary_argument _ _).bind fun _ => (ordinary_found _).bind fun _ => trivial
    · dsimp only
      split
      · rfl
      · split
        · rfl
        · exact (ordinary_property _ _ _).bind fun _ => trivial
  · rfl

end Builtin

theorem Operator.ordinary_checked (i? : Option Int64) : Ordinary (Operator.checked i?) := by
  cases i? <;> trivial

theorem Operator.ordinary_arithmetic (int : Int64 → Int64 → Option Int64)
    (float : Double → Double → Double) (a b : Value) : Ordinary (arithmetic int float a b) := by
  unfold arithmetic
  split
  · exact ordinary_checked _
  · split <;> trivial

theorem Operator.ordinary_dividing (float : Double → Double → Double) (a b : Value) :
    Ordinary (dividing float a b) := by
  unfold dividing
  split
  · split <;> trivial
  · trivial

theorem Operator.ordinary_divide (a b : Value) : Ordinary (divide a b) := by
  unfold divide
  split
  · split
    · trivial
    · split
      · trivial
      · split
        · exact ordinary_checked _
        · trivial
  · exact ordinary_dividing ..

theorem Operator.ordinary_remainder (a b : Value) : Ordinary (remainder a b) := by
  unfold remainder
  split
  · split
    · trivial
    · exact ordinary_checked _
  · exact ordinary_dividing ..

theorem Operator.ordinary_bitwise (int : Int64 → Int64 → Int64) (bool : Bool → Bool → Bool)
    (a b : Value) : Ordinary (bitwise int bool a b) := by
  unfold bitwise
  split <;> trivial

theorem Operator.ordinary_shift (op : Int64 → UInt32 → Option Int64) (a b : Value) :
    Ordinary (shift op a b) := by
  unfold shift
  split
  · exact ordinary_checked _
  · trivial

theorem Operator.ordinary_ordered (test : Ordering → Bool) (a b : Value) :
    Ordinary (ordered test a b) := by
  unfold ordered
  split <;> trivial

theorem Operator.ordinary_compute (op : BinaryOperator) (a b : Value) :
    Ordinary (Operator.compute op a b) := by
  cases op with
  | add | subtract | multiply => exact ordinary_arithmetic ..
  | divide => exact ordinary_divide a b
  | remainder => exact ordinary_remainder a b
  | bitwiseAnd | bitwiseOr | bitwiseXor => exact ordinary_bitwise ..
  | shiftLeft | shiftRight => exact ordinary_shift ..
  | equal | notEqual => trivial
  | lessThan | lessThanOrEqual | greaterThan | greaterThanOrEqual => exact ordinary_ordered ..

theorem Operator.ordinary_binary (h : Heap) (op : BinaryOperator) (a b : Value) :
    Ordinary (Operator.binary h op a b) := by
  unfold Operator.binary
  split
  · trivial
  · unfold joinArrays
    split <;> trivial
  · have hcompute := ordinary_compute op a b
    cases hc : compute op a b with
    | error fault => exact hcompute.of_error hc
    | ok value => trivial

theorem Operator.ordinary_unary (op : UnaryOperator) (a : Value) :
    Ordinary (Operator.unary op a) := by
  unfold Operator.unary
  split
  · exact ordinary_checked _
  all_goals trivial

end Ordinary

namespace Exec

variable {α β : Type}

/-- The computation raises no other faults. -/
structure Raises (allowed : Fault → Bool) (x : Exec α) : Prop where
  fault {l l' : Local} {fault : Fault} : x.run l = (.error fault, l') → allowed fault

theorem run_bind_eq_error {x : Exec α} {next : α → Exec β} {l l' : Local} {fault : Fault}
    (h : (x >>= next).run l = (.error fault, l')) :
    x.run l = (.error fault, l') ∨
      ∃ a m, x.run l = (.ok a, m) ∧ (next a).run m = (.error fault, l') := by
  rw [run_bind] at h
  rcases hx : x.run l with ⟨fault' | a, m⟩ <;> rw [hx] at h
  · exact .inl (by cases h; rfl)
  · exact .inr ⟨a, m, rfl, h⟩

namespace Raises

variable {allowed : Fault → Bool}

theorem bind {x : Exec α} {next : α → Exec β} (H : Raises allowed x)
    (H' : ∀ a, Raises allowed (next a)) : Raises allowed (x >>= next) := by
  refine ⟨fun h => ?_⟩
  rcases run_bind_eq_error h with hx | ⟨a, m, _, hnext⟩
  · exact H.fault hx
  · exact (H' a).fault hnext

theorem pure (a : α) : Raises allowed (Pure.pure a) := ⟨nofun⟩

theorem throw {fault : Fault} (h : allowed fault) : Raises allowed (throw fault : Exec α) := by
  refine ⟨fun heq => ?_⟩
  cases heq
  exact h

theorem orElseFault {fault : Fault} (h : allowed fault) (a? : Option α) :
    Raises allowed (orElseFault fault a?) := by
  cases a? with
  | none => exact .throw h
  | some a => exact .pure a

end Raises

/-- The computation raises ordinary faults only. -/
abbrev Sure (x : Exec α) : Prop := Raises Fault.isOrdinary x

/-- The computation raises no fatal fault. -/
abbrev Mild (x : Exec α) : Prop := Raises (!·.isFatal) x

theorem Sure.mild {x : Exec α} (H : Sure x) : Mild x :=
  ⟨fun h => by rw [Fault.not_isFatal_of_isOrdinary (H.fault h)]; rfl⟩

theorem Sure.lift {e : Except Fault α} (h : Ordinary e) : Sure (liftM e : Exec α) := by
  cases e with
  | error fault => exact .throw h
  | ok a => exact .pure a

theorem sure_frame : Sure frame := ⟨nofun⟩
theorem sure_heap : Sure heap := ⟨nofun⟩
theorem sure_caller : Sure caller := ⟨nofun⟩
theorem sure_modifyFrame (f : Frame → Frame) : Sure (modifyFrame f) := ⟨nofun⟩
theorem sure_modifyHeap (f : Heap → Heap) : Sure (modifyHeap f) := ⟨nofun⟩
theorem sure_allocate (f : Heap → α × Heap) : Sure (allocate f) := ⟨nofun⟩
theorem sure_found (a? : Option α) : Sure (found a?) := .orElseFault rfl a?
theorem sure_push (value : Value) : Sure (push value) := sure_modifyFrame _
theorem sure_newCell (value : Value) : Sure (newCell value) := sure_allocate _
theorem sure_next : Sure next := (sure_modifyFrame _).bind fun _ => .pure _
theorem sure_jump (target : Nat) : Sure (jump target) := (sure_modifyFrame _).bind fun _ => .pure _

theorem sure_push_next (value : Value) : Sure (do push value; next) :=
  (sure_push value).bind fun _ => sure_next

theorem sure_cellOf (slot : Nat) : Sure (cellOf slot) := by
  refine sure_frame.bind fun f => ?_
  cases f.cell? slot with
  | some cell => exact .pure cell
  | none =>
    exact sure_frame.bind fun _ => (sure_newCell _).bind fun _ => (sure_modifyFrame _).bind
      fun _ => .pure _

theorem sure_update (r : Ref .object) (u : Object.Update) : Sure (update r u) :=
  sure_heap.bind fun h => (Sure.lift (h.ordinary_updated r u)).bind fun _ => sure_modifyHeap _

/-- An update on behalf of the frame's module ends an instruction. -/
theorem sure_update_next (r : Ref .object) {u : Option ModuleId → Object.Update} :
    Sure (do update r (u (← caller)); next) :=
  sure_caller.bind fun _ => (sure_update ..).bind fun _ => sure_next

theorem sure_objectOf (value : Value) : Sure (objectOf value) := by
  cases value with
  | object r => exact .pure r
  | _ => exact .throw rfl

theorem sure_sealValue (value : Value) : Sure (sealValue value) := by
  cases value with
  | object r => exact sure_update r .seal
  | array r => exact sure_heap.bind fun _ => (sure_found _).bind fun _ => sure_modifyHeap _
  | _ => exact .throw rfl

theorem sure_getIndex (target index : Value) : Sure (getIndex target index) := by
  cases target with
  | array r =>
    exact sure_heap.bind fun _ => (sure_found _).bind fun s => (Raises.orElseFault rfl _).bind
      fun _ => Sure.lift (s.ordinary_get _)
  | object r =>
    exact sure_heap.bind fun _ => (sure_found _).bind fun o => (Raises.orElseFault rfl _).bind
      fun _ => sure_caller.bind fun _ => Sure.lift (o.ordinary_get _ _)
  | _ => exact .throw rfl

theorem sure_setIndex (target index value : Value) : Sure (setIndex target index value) := by
  cases target with
  | array r =>
    exact sure_heap.bind fun _ => (sure_found _).bind fun s => (Raises.orElseFault rfl _).bind
      fun _ => (Sure.lift (s.ordinary_set _ value)).bind fun _ => sure_modifyHeap _
  | object r =>
    exact (Raises.orElseFault rfl _).bind fun _ => sure_caller.bind fun _ => sure_update ..
  | _ => exact .throw rfl

theorem sure_bindField (self : Ref .object) (value : Value) : Sure (bindField self value) := by
  cases value with
  | function r =>
    exact sure_heap.bind fun _ => (sure_found _).bind fun _ => (sure_allocate _).bind
      fun _ => .pure _
  | _ => exact .pure _

theorem sure_setFields (self : Ref .object) (fields : List (String × Value)) :
    Sure (setFields self fields) := by
  induction fields with
  | nil => exact .pure _
  | cons field rest ih =>
    exact (sure_bindField self field.2).bind fun _ => (sure_update ..).bind fun _ => ih

theorem sure_newObject (args : Arguments) : Sure (newObject args) := by
  have hrest : Sure (do
      let self ← allocate (·.newObject {})
      setFields self args.keywords.entries
      return Value.object self) :=
    (sure_allocate _).bind fun _ => (sure_setFields ..).bind fun _ => .pure _
  unfold newObject
  split
  · exact .throw rfl
  · exact hrest

theorem sure_overload? (operand : Value) (name : String) : Sure (overload? operand name) := by
  cases operand with
  | object r => exact sure_heap.bind fun _ => (sure_found _).bind fun _ => .pure _
  | _ => exact .pure _

/-! ## What is lacking -/

theorem mild_pop : Mild pop := by
  refine sure_frame.mild.bind fun f => ?_
  split
  · exact .throw rfl
  · exact (sure_modifyFrame _).mild.bind fun _ => .pure _

theorem mild_peek : Mild peek := sure_frame.mild.bind fun _ => .orElseFault rfl _

theorem mild_constant (i : Nat) : Mild (constant i) :=
  sure_frame.mild.bind fun _ => .orElseFault rfl _

theorem mild_name (i : Nat) : Mild (name i) :=
  (mild_constant i).bind fun _ => .orElseFault rfl _

theorem mild_capture (i : Nat) : Mild (capture i) :=
  sure_frame.mild.bind fun _ => .orElseFault rfl _

theorem mild_modifyArgs (f : Arguments → Arguments) : Mild (modifyArgs f) := by
  refine sure_frame.mild.bind fun _ => ?_
  split
  · exact .throw rfl
  · exact (sure_modifyFrame _).mild

theorem mild_takeArgs : Mild takeArgs := by
  refine sure_frame.mild.bind fun _ => ?_
  split
  · exact .throw rfl
  · exact (sure_modifyFrame _).mild.bind fun _ => .pure _

theorem mild_captured (captures : List Capture) : Mild (captured captures) := by
  induction captures with
  | nil => exact .pure _
  | cons c rest ih =>
    have hrest (cell : Ref .cell) : Mild (do return cell :: (← captured rest)) :=
      ih.bind fun _ => .pure _
    cases c with
    | slot i => exact (sure_cellOf _).mild.bind hrest
    | outer i => exact (mild_capture _).bind hrest

theorem mild_makeFunction (i : Nat) : Mild (makeFunction i) := by
  refine (mild_constant i).bind fun value => ?_
  split
  · exact sure_heap.mild.bind fun _ => (sure_found _).mild.bind fun _ => (mild_captured _).bind
      fun _ => sure_frame.mild.bind fun _ => (sure_allocate _).mild.bind fun _ => .pure _
  · exact .throw rfl

/--
The computation, a part of the instruction `i`, raises no fatal fault, and `invalidInstruction` only
in a frame that has less than `n` operands or less than `v` argument vectors, or misses what `i`
refers to.
-/
structure Blames (n v : Nat) (i : Instruction) (x : Exec α) : Prop where
  mild : Mild x
  cause (l l' : Local) : x.run l = (.error .invalidInstruction, l') →
    l.frame.stack.length < n ∨ l.frame.args.length < v ∨ l.Misses i

namespace Blames

variable {n v : Nat} {i : Instruction}

theorem of_sure {x : Exec α} (H : Sure x) : Blames n v i x :=
  ⟨H.mild, fun _ _ h => nomatch H.fault h⟩

theorem bind {x : Exec α} {next : α → Exec β} (H : Blames n v i x) (H' : ∀ a, Sure (next a)) :
    Blames n v i (x >>= next) := by
  refine ⟨H.mild.bind fun a => (H' a).mild, fun l l' h => ?_⟩
  rcases run_bind_eq_error h with hx | ⟨a, m, _, hnext⟩
  · exact H.cause l l' hx
  · exact nomatch (H' a).fault hnext

/-- An operand is taken, then others. -/
theorem pop_bind {next : Value → Exec β} (H : ∀ a, Blames n v i (next a)) :
    Blames (n + 1) v i (pop >>= next) := by
  refine ⟨mild_pop.bind fun a => (H a).mild, fun l l' h => ?_⟩
  rw [pop, bind_assoc, run_frame_bind] at h
  cases hs : l.frame.stack with
  | nil => exact .inl (Nat.succ_pos n)
  | cons value rest =>
    simp only [hs] at h
    exact ((H value).cause ⟨l.heap, { l.frame with stack := rest }⟩ l' h).imp_left Nat.succ_lt_succ

/-- A name is looked up first. -/
theorem name_bind (hkind : i.opcode.operandKind = .name) {next : String → Exec β}
    (H : ∀ s, Blames n v i (next s)) : Blames n v i (name i.operand.toNat >>= next) := by
  refine ⟨(mild_name _).bind fun s => (H s).mild, fun l l' h => ?_⟩
  rw [name, constant, bind_assoc, bind_assoc, run_frame_bind] at h
  by_cases hs : ∃ s, l.frame.scope.constants[i.operand.toNat]? = some (.string s)
  · obtain ⟨s, hs⟩ := hs
    simp only [hs] at h
    exact (H s).cause l l' h
  · refine .inr (.inr ?_)
    simp only [Local.Misses, hkind]
    exact fun s heq => hs ⟨s, heq⟩

end Blames

variable {i : Instruction}

theorem blames_peek : Blames 1 0 i peek := by
  refine ⟨mild_peek, fun l l' h => ?_⟩
  rw [peek, run_frame_bind] at h
  cases hs : l.frame.stack with
  | nil => exact .inl Nat.one_pos
  | cons value rest =>
    simp only [hs] at h
    exact nomatch h

theorem blames_takeArgs : Blames 0 1 i takeArgs := by
  refine ⟨mild_takeArgs, fun l l' h => ?_⟩
  rw [takeArgs, run_frame_bind] at h
  cases hs : l.frame.args with
  | nil => exact .inr (.inl Nat.one_pos)
  | cons args rest =>
    simp only [hs] at h
    exact nomatch h

theorem blames_modifyArgs (f : Arguments → Arguments) : Blames 0 1 i (modifyArgs f) := by
  refine ⟨mild_modifyArgs f, fun l l' h => ?_⟩
  rw [modifyArgs, run_frame_bind] at h
  cases hs : l.frame.args with
  | nil => exact .inr (.inl Nat.one_pos)
  | cons args rest =>
    simp only [hs] at h
    exact nomatch h

theorem blames_constant (hkind : i.opcode.operandKind = .constant) :
    Blames 0 0 i (constant i.operand.toNat) := by
  refine ⟨mild_constant _, fun l l' h => .inr (.inr ?_)⟩
  rw [constant, run_frame_bind] at h
  simp only [Local.Misses, hkind]
  cases hc : l.frame.scope.constants[i.operand.toNat]? with
  | none => rfl
  | some value =>
    rw [hc] at h
    cases h

theorem blames_capture (hkind : i.opcode.operandKind = .capture) :
    Blames 0 0 i (capture i.operand.toNat) := by
  refine ⟨mild_capture _, fun l l' h => .inr (.inr ?_)⟩
  rw [capture, run_frame_bind] at h
  simp only [Local.Misses, hkind]
  cases hc : l.frame.captures[i.operand.toNat]? with
  | none => rfl
  | some cell =>
    rw [hc] at h
    exact nomatch h

/-- A capture list fails for a cell that the enclosing function did not capture. -/
theorem outer_of_captured {captures : List Capture} {l l' : Local}
    (h : (captured captures).run l = (.error .invalidInstruction, l')) :
    ∃ j, .outer j ∈ captures ∧ l.frame.captures[j.toNat]? = none := by
  induction captures generalizing l with
  | nil => cases h
  | cons c rest ih =>
    cases c with
    | slot s =>
      rw [captured] at h
      rcases run_bind_eq_error h with hcell | ⟨cell, m, hcell, hnext⟩
      · cases (sure_cellOf _).fault hcell
      · have hpart := part_cellOf (i := { opcode := .makeFunction }) s.toNat rfl
        have hsame := hpart.keeps.same l
        rw [hcell] at hsame
        rcases run_bind_eq_error hnext with hrest | ⟨_, _, _, hpure⟩
        · obtain ⟨j, hj, hnone⟩ := ih hrest
          exact ⟨j, List.mem_cons_of_mem _ hj, hsame.captures ▸ hnone⟩
        · cases hpure
    | outer j =>
      rw [captured, capture, bind_assoc, run_frame_bind] at h
      cases hc : l.frame.captures[j.toNat]? with
      | none => exact ⟨j, List.mem_cons_self .., hc⟩
      | some cell =>
        simp only [hc, orElseFault, pure_bind] at h
        rcases run_bind_eq_error h with hrest | ⟨_, _, _, hpure⟩
        · obtain ⟨j, hj, hnone⟩ := ih hrest
          exact ⟨j, List.mem_cons_of_mem _ hj, hnone⟩
        · cases hpure

theorem blames_makeFunction (hkind : i.opcode.operandKind = .code) :
    Blames 0 0 i (makeFunction i.operand.toNat) := by
  refine ⟨mild_makeFunction _, fun l l' h => .inr (.inr ?_)⟩
  simp only [Local.Misses, hkind]
  intro r code hr hcode
  rw [makeFunction, constant, bind_assoc, run_frame_bind] at h
  simp only [hr, orElseFault, pure_bind] at h
  rw [run_heap_bind] at h
  simp only [hcode, found, orElseFault, pure_bind] at h
  rcases run_bind_eq_error h with hcaptured | ⟨cells, m, _, hnext⟩
  · exact outer_of_captured hcaptured
  · cases hnext

theorem blames_binary (op : BinaryOperator) : Blames 2 0 i (binary op) := by
  refine .pop_bind fun right => .pop_bind fun left => .of_sure ?_
  refine (sure_overload? ..).bind fun overload => ?_
  cases overload with
  | some overload => exact .pure _
  | none =>
    exact sure_heap.bind fun h => (Sure.lift (Operator.ordinary_binary h op left right)).bind
      fun _ => (sure_allocate _).bind fun _ => sure_push_next _

theorem blames_unary (op : UnaryOperator) : Blames 1 0 i (unary op) := by
  refine .pop_bind fun operand => .of_sure ?_
  refine (sure_overload? ..).bind fun overload => ?_
  cases overload with
  | some overload => exact .pure _
  | none => exact (Sure.lift (Operator.ordinary_unary op operand)).bind fun _ => sure_push_next _

/--
Operands, argument vectors and what the operand of the instruction refers to are taken first. What
comes then does not raise `invalidInstruction`.
-/
theorem blames_instruction (i : Instruction) :
    Blames i.opcode.operands i.opcode.vectors i (instruction i) := by
  obtain ⟨opcode, operand, handler, range⟩ := i
  cases opcode with
  | nop => exact .of_sure sure_next
  | pop => exact .pop_bind fun _ => .of_sure sure_next
  | dup => exact blames_peek.bind fun _ => sure_push_next _
  | swap =>
    exact .pop_bind fun _ => .pop_bind fun _ => .of_sure ((sure_push _).bind
      fun _ => sure_push_next _)
  | pushNull | pushTrue | pushFalse => exact .of_sure (sure_push_next _)
  | loadConst => exact (blames_constant rfl).bind fun _ => sure_push_next _
  | loadLocal => exact .of_sure (sure_frame.bind fun _ => sure_push_next _)
  | storeLocal =>
    exact .pop_bind fun _ => .of_sure ((sure_modifyFrame _).bind fun _ => sure_next)
  | loadCell =>
    exact .of_sure ((sure_cellOf _).bind fun _ => sure_heap.bind fun _ => (sure_found _).bind
      fun _ => sure_push_next _)
  | storeCell =>
    exact .pop_bind fun _ => .of_sure ((sure_cellOf _).bind fun _ => (sure_modifyHeap _).bind
      fun _ => sure_next)
  | newCell =>
    exact .pop_bind fun _ => .of_sure ((sure_newCell _).bind fun _ => (sure_modifyFrame _).bind
      fun _ => sure_next)
  | loadCapture =>
    exact (blames_capture rfl).bind fun _ => sure_heap.bind fun _ => (sure_found _).bind
      fun _ => sure_push_next _
  | storeCapture =>
    exact .pop_bind fun _ => (blames_capture rfl).bind fun _ => (sure_modifyHeap _).bind
      fun _ => sure_next
  | loadGlobal =>
    exact .name_bind rfl fun _ => .of_sure (sure_heap.bind fun _ => sure_frame.bind fun _ =>
      (sure_found _).bind fun o => sure_caller.bind fun _ => (Sure.lift (o.ordinary_get _ _)).bind
      fun _ => sure_push_next _)
  | storeGlobal =>
    exact .name_bind rfl fun _ => .pop_bind fun _ => .of_sure (sure_frame.bind
      fun _ => sure_update_next _)
  | getAttr =>
    exact .name_bind rfl fun s => .pop_bind fun target => .of_sure (sure_heap.bind fun h =>
      sure_caller.bind fun caller => (Sure.lift (Builtin.ordinary_readAttribute h target s
      caller)).bind fun _ => sure_push_next _)
  | setAttr | declareConst =>
    exact .name_bind rfl fun _ => .pop_bind fun _ => .pop_bind fun _ =>
      .of_sure ((sure_objectOf _).bind fun _ => sure_update_next _)
  | «export» | lock =>
    exact .name_bind rfl fun _ => .pop_bind fun _ => .of_sure ((sure_objectOf _).bind
      fun _ => sure_update_next _)
  | «seal» => exact blames_peek.bind fun _ => (sure_sealValue _).bind fun _ => sure_next
  | getIndex =>
    exact .pop_bind fun _ => .pop_bind fun _ => .of_sure ((sure_getIndex ..).bind
      fun _ => sure_push_next _)
  | setIndex =>
    exact .pop_bind fun _ => .pop_bind fun _ => .pop_bind fun _ =>
      .of_sure ((sure_setIndex ..).bind fun _ => sure_next)
  | add | subtract | multiply | divide | remainder | bitwiseAnd | bitwiseOr | bitwiseXor
  | shiftLeft | shiftRight | equal | notEqual | lessThan | lessThanOrEqual | greaterThan
  | greaterThanOrEqual => exact blames_binary _
  | negate | not => exact blames_unary _
  | jump => exact .of_sure (sure_jump _)
  | jumpIf =>
    refine .pop_bind fun condition => .of_sure ?_
    cases condition.truthy with
    | false => exact sure_next
    | true => exact sure_jump _
  | jumpIfNot =>
    refine .pop_bind fun condition => .of_sure ?_
    cases condition.truthy with
    | false => exact sure_jump _
    | true => exact sure_next
  | newArgs => exact .of_sure ((sure_modifyFrame _).bind fun _ => sure_next)
  | pushArg => exact .pop_bind fun _ => (blames_modifyArgs _).bind fun _ => sure_next
  | pushKeyword =>
    exact .name_bind rfl fun _ => .pop_bind fun _ => (blames_modifyArgs _).bind fun _ => sure_next
  | call => exact .pop_bind fun _ => .pop_bind fun _ => blames_takeArgs.bind fun _ => .pure _
  | invoke =>
    exact .name_bind rfl fun _ => .pop_bind fun _ => blames_takeArgs.bind fun _ => .pure _
  | bind =>
    refine .pop_bind fun _ => .pop_bind fun value => .of_sure ?_
    cases value with
    | function r =>
      exact sure_heap.bind fun _ => (sure_found _).bind fun _ => (sure_allocate _).bind
        fun _ => sure_push_next _
    | _ => exact .throw rfl
  | makeFunction => exact (blames_makeFunction rfl).bind fun _ => sure_push_next _
  | newArray =>
    refine blames_takeArgs.bind fun args => ?_
    cases args.hasKeywords with
    | false => exact (sure_allocate _).bind fun _ => sure_push_next _
    | true => exact .throw rfl
  | newObject =>
    exact blames_takeArgs.bind fun _ => (sure_newObject _).bind fun _ => sure_push_next _
  | loadModule => exact .name_bind rfl fun _ => .of_sure (.pure _)
  | «return» => exact .of_sure (sure_frame.bind fun _ => .pure _)
  | throw => exact .pop_bind fun _ => .of_sure (.throw rfl)
  | popErr => exact .of_sure (sure_frame.bind fun _ => sure_push_next _)

/-- No instruction raises a fatal fault. -/
theorem mild_step : Mild step := by
  refine sure_frame.mild.bind fun f => ?_
  split
  · exact (blames_instruction _).mild
  · exact .pure _

/-- An instruction that raises `invalidInstruction` lacks something. -/
theorem lacks_of_step {l l' : Local} (h : step.run l = (.error .invalidInstruction, l')) :
    ∃ i, l.frame.code.instructions[l.frame.instruction]? = some i ∧ l.Lacks i := by
  rw [step, run_frame_bind] at h
  cases hi : l.frame.code.instructions[l.frame.instruction]? with
  | none =>
    simp only [hi] at h
    cases h
  | some i =>
    simp only [hi] at h
    refine ⟨i, rfl, ?_⟩
    rcases (blames_instruction i).cause l l' h with hs | hs | hs
    · exact .operands hs
    · exact .vectors hs
    · exact .referent hs

end Exec

/-! ## Prepared calls -/

namespace Machine

/-- A call that is not made for a fatal fault. -/
def Invocation.Mild : Invocation → Prop
  | .fail fault => fault.isFatal = false
  | _ => True

theorem ordinary_declareMethods (id : ModuleId) (self : Ref .object) (h : Heap) (o : Object)
    (methods : List (String × Code)) : Ordinary (declareMethods id self h o methods).1 := by
  induction methods generalizing h o with
  | nil => trivial
  | cons method rest ih =>
    simp only [declareMethods]
    split
    · exact ih _ _
    · exact (o.ordinary_update (.declareConst _ _ none)).of_error ‹_›

theorem ordinary_setAll (o : Object) (attributes : List (String × Value)) :
    Ordinary (o.setAll attributes) := by
  induction attributes generalizing o with
  | nil => trivial
  | cons first rest ih => exact (o.ordinary_update (.set first.1 first.2 none)).bind ih

theorem ordinary_construct (h : Heap) (t : Template) (args : Arguments) :
    Ordinary (construct h t args).1 := by
  unfold construct
  split
  · rfl
  · dsimp only
    have hmethods := ordinary_declareMethods t.module (h.newObject {}).1 (h.newObject {}).2 {}
      t.methods
    generalize declareMethods t.module _ _ _ t.methods = declared at hmethods
    obtain ⟨fault | o, h'⟩ := declared
    · exact hmethods
    · dsimp only
      split
      · exact (ordinary_setAll _ _).of_error ‹_›
      · trivial

theorem ordinary_bind (h : Heap) (function : Ref .function) (code : Code)
    (captures : List (Ref .cell)) (scope : Scope) (receiver : Value) (args : Arguments) :
    Ordinary (Frame.bind h function code captures scope receiver args).1 := by
  rcases Frame.bind_cases h function code captures scope receiver args with
    ⟨fault, hfault, hbind⟩ | ⟨-, _, _, _, -, -, hbind⟩
  · rw [hbind]
    exact Signature.isOrdinary_of_mismatch? hfault
  · rw [hbind]
    trivial

theorem mild_prepareCall (m : Machine) (callable receiver : Value) (args : Arguments) :
    (m.prepareCall callable receiver args).1.Mild := by
  cases callable with
  | function r =>
    simp only [prepareCall]
    cases m.heap.function? r with
    | none => rfl
    | some f =>
      dsimp only
      cases f.body with
      | native name routine => trivial
      | interpreted code captures =>
        dsimp only
        cases f.module.bind m.scope? with
        | none => rfl
        | some scope =>
          dsimp only [onHeap]
          have hbind := ordinary_bind m.heap r code captures scope
            (if f.receiver.isNull then receiver else f.receiver) args
          generalize Frame.bind m.heap r code captures scope _ args = bound at hbind
          obtain ⟨fault | frame, heap⟩ := bound
          · exact Fault.not_isFatal_of_isOrdinary hbind
          · trivial
  | template r =>
    simp only [prepareCall]
    cases m.heap.template? r with
    | none => rfl
    | some t =>
      dsimp only [onHeap]
      have hconstruct := ordinary_construct m.heap t args
      generalize construct m.heap t args = constructed at hconstruct
      obtain ⟨fault | value, heap⟩ := constructed
      · exact Fault.not_isFatal_of_isOrdinary hconstruct
      · trivial
  | _ => rfl

theorem mild_prepareInvoke (m : Machine) (target : Value) (name : String) (args : Arguments)
    (caller : Option ModuleId) : (m.prepareInvoke target name args caller).1.Mild := by
  unfold prepareInvoke
  split
  · split
    · rfl
    · split
      · exact m.mild_prepareCall ..
      · exact Fault.not_isFatal_of_isOrdinary ((Object.ordinary_get _ _ _).of_error ‹_›)
  · split
    · exact Fault.not_isFatal_of_isOrdinary ((Builtin.ordinary_call _ _ _ _).of_error ‹_›)
    · trivial

end Machine

end FiberMachine
