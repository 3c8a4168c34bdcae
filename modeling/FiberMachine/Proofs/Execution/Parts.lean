import FiberMachine.Step

/-!
# What instructions are made of

An instruction is a sequence of parts (`Exec.Part`): it reads the frame and the heap, changes
operands, argument vectors and slots, makes values and updates objects. It ends by going on, by a
jump, by an action that it hands to the machine, or by a fault (`Exec.whole_instruction`). What
holds of the parts and along sequences of them thus holds of all instructions.
-/

namespace FiberMachine

/-- Whether the machine is to call something. -/
def Action.isCall : Action → Bool
  | .call .. | .invoke .. => true
  | .next | .load _ | .return _ => false

/-- The numbers of operands and of argument vectors that an instruction takes for a call. -/
def Opcode.taken? : Opcode → Option (Nat × Nat)
  | .call => some (2, 1)
  | .invoke => some (1, 1)
  | .add | .subtract | .multiply | .divide | .remainder | .bitwiseAnd | .bitwiseOr | .bitwiseXor
  | .shiftLeft | .shiftRight | .equal | .notEqual | .lessThan | .lessThanOrEqual | .greaterThan
  | .greaterThanOrEqual => some (2, 0)
  | .negate | .not => some (1, 0)
  | _ => none

/-- Whether executing the instruction may make or change a cell, or capture one. -/
def Opcode.weaves : Opcode → Bool
  | .loadCell | .storeCell | .newCell | .storeCapture | .makeFunction => true
  | _ => false

/-- The instructions that an instruction may jump to. -/
def Instruction.targets (i : Instruction) : List Nat :=
  if i.opcode.operandKind = .target then [i.operand.toNat] else []

/-- The change that comes with a value adds no function. -/
def Outcome.isPlain : Outcome → Bool
  | .newFunction _ => false
  | _ => true

theorem Operator.binary_isPlain {h : Heap} {op : BinaryOperator} {a b : Value} {o : Outcome}
    (heq : Operator.binary h op a b = .ok o) : o.isPlain := by
  unfold Operator.binary at heq
  split at heq
  · cases heq
    rfl
  · unfold joinArrays at heq
    split at heq
    · cases heq
      rfl
    · cases heq
  · cases hc : compute op a b with
    | error fault =>
      rw [hc] at heq
      cases heq
    | ok v =>
      rw [hc] at heq
      cases heq
      rfl

/-- The update is one that code makes, on behalf of `caller`. -/
def Object.Update.IsBy (caller : Option ModuleId) : Object.Update → Prop
  | .set _ _ c | .declareConst _ _ c | .export _ c | .lock _ c => c = caller
  | .reserveConst _ => False
  | .seal => True

namespace Exec

variable {α β : Type} {i : Instruction}

/-! ## Running computations -/

theorem run_bind (x : Exec α) (next : α → Exec β) (l : Local) :
    (x >>= next).run l = match x.run l with
      | (.ok a, l') => (next a).run l'
      | (.error fault, l') => (.error fault, l') := by
  simp only [ExceptT.run, bind, ExceptT.bind, ExceptT.mk, StateT.bind]
  rcases x l with ⟨_ | a, l'⟩ <;> rfl

theorem run_heap_bind (next : Heap → Exec α) (l : Local) :
    (heap >>= next).run l = (next l.heap).run l := rfl

theorem run_frame_bind (next : Frame → Exec α) (l : Local) :
    (frame >>= next).run l = (next l.frame).run l := rfl

theorem run_caller_bind (next : Option ModuleId → Exec α) (l : Local) :
    (caller >>= next).run l = (next (some l.frame.scope.module)).run l := rfl

/-- An update changes the one object, or nothing. -/
theorem run_update (l : Local) (r : Ref .object) (u : Object.Update) :
    (update r u).run l = match l.heap.updated r u with
      | .ok o => (.ok (), ⟨l.heap.setObject r o, l.frame⟩)
      | .error fault => (.error fault, l) := by
  have hrun : (update r u).run l =
      ((liftM (l.heap.updated r u) >>= fun o => modifyHeap (·.setObject r o) : Exec Unit)).run l :=
    rfl
  rw [hrun]
  cases l.heap.updated r u <;> rfl

/-- A function that the heap has, with another receiver. -/
def rebind (r : Ref .function) (receiver : Value) : Exec (Ref .function) := do
  let f ← found ((← heap).function? r)
  allocate (·.newFunction (f.bind receiver))

theorem run_rebind (r : Ref .function) (receiver : Value) (l : Local) :
    (rebind r receiver).run l = match l.heap.function? r with
      | some f => (.ok ⟨l.heap.functions.size⟩, ⟨(l.heap.newFunction (f.bind receiver)).2, l.frame⟩)
      | none => (.error .valueFreed, l) := by
  rw [rebind, run_heap_bind]
  cases l.heap.function? r <;> rfl

/-- A closure is made of a code constant and the cells of its capture list, or nothing is done. -/
theorem run_makeFunction (j : Nat) (l : Local) :
    (∃ fault, (makeFunction j).run l = (.error fault, l)) ∨
      ∃ r code, l.frame.scope.constants[j]? = some (.code r) ∧ l.heap.code? r = some code ∧
        (makeFunction j).run l = match (captured code.captures).run l with
          | (.error fault, m) => (.error fault, m)
          | (.ok captures, m) => (.ok (.function ⟨m.heap.functions.size⟩),
            ⟨(m.heap.newFunction {
              module := some m.frame.scope.module, receiver := m.frame.receiver
              body := .interpreted code captures }).2, m.frame⟩) := by
  rw [makeFunction, constant, bind_assoc, run_frame_bind]
  cases hj : l.frame.scope.constants[j]? with
  | none => exact .inl ⟨.invalidInstruction, rfl⟩
  | some value =>
    simp only [orElseFault, pure_bind]
    cases value with
    | code r =>
      dsimp only
      rw [run_heap_bind]
      cases hcode : l.heap.code? r with
      | none => exact .inl ⟨.valueFreed, rfl⟩
      | some code =>
        refine .inr ⟨r, code, rfl, hcode, ?_⟩
        simp only [found, orElseFault, pure_bind]
        rw [run_bind]
        rcases (captured code.captures).run l with ⟨_ | captures, m⟩ <;> rfl
    | _ => exact .inl ⟨.invalidInstruction, rfl⟩

/-! ## Parts -/

/-- A computation that the instruction may be made of, apart from its end. -/
inductive Part (i : Instruction) : {α : Type} → Exec α → Prop where
  | pure {α : Type} (a : α) : Part i (Pure.pure a : Exec α)
  | throw {α : Type} (fault : Fault) : Part i (throw fault : Exec α)
  | bind {α β : Type} {x : Exec α} {next : α → Exec β} :
      Part i x → (∀ a, Part i (next a)) → Part i (x >>= next)
  | frame : Part i frame
  | heap : Part i heap
  | modifyFrame {f : Frame → Frame} :
      (∀ g, ∃ slots stack args, f g = { g with slots, stack, args }) → Part i (modifyFrame f)
  | setArray (r : Ref .array) (s : Sequence) : Part i (modifyHeap (·.setArray r s))
  | newArray (s : Sequence) : Part i (allocate (·.newArray s))
  | newObject : Part i (allocate (·.newObject {}))
  | realize {o : Outcome} : o.isPlain → Part i (allocate (·.realize o))
  | rebind (r : Ref .function) (receiver : Value) : Part i (rebind r receiver)
  /-- An update that is made on behalf of nobody. -/
  | update (r : Ref .object) {u : Object.Update} : u.IsBy none → Part i (update r u)
  /-- An update that is made on behalf of the frame's module. -/
  | updateOwn (r : Ref .object) {u : Option ModuleId → Object.Update} :
      (∀ caller, (u caller).IsBy caller) → Part i (do update r (u (← caller)))
  | newCell (value : Value) : i.opcode.weaves → Part i (newCell value)
  | setCell (slot : Nat) (cell : Ref .cell) :
      i.opcode.weaves → Part i (modifyFrame (·.setCell slot cell))
  | storeCell (cell : Ref .cell) (value : Value) :
      i.opcode.weaves → Part i (modifyHeap (·.setCell cell value))
  | makeFunction (j : Nat) : i.opcode.weaves → (∀ captures, Part i (captured captures)) →
      Part i (makeFunction j)

theorem Part.lift (e : Except Fault α) : Part i (liftM e : Exec α) := by
  cases e with
  | error fault => exact .throw fault
  | ok a => exact .pure a

theorem part_orElseFault (fault : Fault) (a? : Option α) : Part i (orElseFault fault a?) := by
  cases a? with
  | none => exact .throw fault
  | some a => exact .pure a

theorem part_found (a? : Option α) : Part i (found a?) := part_orElseFault _ a?

theorem part_caller : Part i caller := .bind .frame fun _ => .pure _

theorem part_push (value : Value) : Part i (push value) := .modifyFrame fun _ => ⟨_, _, _, rfl⟩

theorem part_pop : Part i pop := by
  refine .bind .frame fun f => ?_
  cases f.stack with
  | nil => exact .throw _
  | cons value rest => exact .bind (.modifyFrame fun _ => ⟨_, _, _, rfl⟩) fun _ => .pure _

theorem part_peek : Part i peek := .bind .frame fun _ => part_orElseFault ..

theorem part_constant (j : Nat) : Part i (constant j) := .bind .frame fun _ => part_orElseFault ..

theorem part_name (j : Nat) : Part i (name j) :=
  (part_constant j).bind fun _ => part_orElseFault ..

theorem part_capture (j : Nat) : Part i (capture j) := .bind .frame fun _ => part_orElseFault ..

theorem part_cellOf (slot : Nat) (hi : i.opcode.weaves) : Part i (cellOf slot) := by
  refine .bind .frame fun f => ?_
  cases f.cell? slot with
  | some cell => exact .pure cell
  | none =>
    exact .bind .frame fun _ => .bind (.newCell _ hi) fun _ => .bind (.setCell _ _ hi)
      fun _ => .pure _

theorem part_modifyArgs (f : Arguments → Arguments) : Part i (modifyArgs f) := by
  refine .bind .frame fun g => ?_
  cases g.args with
  | nil => exact .throw _
  | cons args rest => exact .modifyFrame fun _ => ⟨_, _, _, rfl⟩

theorem part_takeArgs : Part i takeArgs := by
  refine .bind .frame fun g => ?_
  cases g.args with
  | nil => exact .throw _
  | cons args rest => exact .bind (.modifyFrame fun _ => ⟨_, _, _, rfl⟩) fun _ => .pure _

theorem part_objectOf (value : Value) : Part i (objectOf value) := by
  cases value with
  | object r => exact .pure r
  | _ => exact .throw _

theorem part_sealValue (value : Value) : Part i (sealValue value) := by
  cases value with
  | object r => exact .update r trivial
  | array r => exact .bind .heap fun _ => (part_found _).bind fun _ => .setArray ..
  | _ => exact .throw _

theorem part_getIndex (target index : Value) : Part i (getIndex target index) := by
  cases target with
  | array r =>
    exact .bind .heap fun _ => (part_found _).bind fun _ => (part_orElseFault ..).bind
      fun _ => .lift _
  | object r =>
    exact .bind .heap fun _ => (part_found _).bind fun _ => (part_orElseFault ..).bind
      fun _ => part_caller.bind fun _ => .lift _
  | _ => exact .throw _

theorem part_setIndex (target index value : Value) : Part i (setIndex target index value) := by
  cases target with
  | array r =>
    exact .bind .heap fun _ => (part_found _).bind fun _ => (part_orElseFault ..).bind
      fun _ => (Part.lift _).bind fun _ => .setArray ..
  | object r => exact (part_orElseFault ..).bind fun _ => .updateOwn r fun _ => rfl
  | _ => exact .throw _

theorem part_bindField (self : Ref .object) (value : Value) : Part i (bindField self value) := by
  cases value with
  | function r =>
    have H : Part i (do return Value.function (← rebind r (.object self))) :=
      .bind (.rebind ..) fun _ => .pure _
    simp only [rebind, bind_assoc] at H
    exact H
  | _ => exact .pure _

theorem part_setFields (self : Ref .object) (fields : List (String × Value)) :
    Part i (setFields self fields) := by
  induction fields with
  | nil => exact .pure _
  | cons field rest ih =>
    exact (part_bindField self field.2).bind fun _ => .bind (.update self rfl) fun _ => ih

theorem part_newObject (args : Arguments) : Part i (newObject args) := by
  have hrest : Part i (do
      let self ← allocate (·.newObject {})
      setFields self args.keywords.entries
      return Value.object self) :=
    .bind .newObject fun _ => (part_setFields ..).bind fun _ => .pure _
  unfold newObject
  split
  · exact .throw _
  · exact hrest

theorem part_captured (captures : List Capture) (hi : i.opcode.weaves) :
    Part i (captured captures) := by
  induction captures with
  | nil => exact .pure _
  | cons c rest ih =>
    cases c with
    | slot j => exact (part_cellOf _ hi).bind fun _ => ih.bind fun _ => .pure _
    | outer j => exact (part_capture _).bind fun _ => ih.bind fun _ => .pure _

theorem part_overload? (operand : Value) (name : String) : Part i (overload? operand name) := by
  cases operand with
  | object r => exact .bind .heap fun _ => (part_found _).bind fun _ => .pure _
  | _ => exact .pure _

/-! ## Instructions -/

/-- A computation that is the instruction, or what is left of it after some of its parts. -/
inductive Whole (i : Instruction) : Exec Action → Prop where
  | bind {α : Type} {x : Exec α} {next : α → Exec Action} :
      Part i x → (∀ a, Whole i (next a)) → Whole i (x >>= next)
  | next : Whole i next
  | jump {target : Nat} : target ∈ i.targets → Whole i (jump target)
  /-- The machine is to do something other than go on with the frame. -/
  | act {action : Action} : action ≠ .next → (action.isCall → i.opcode.taken?.isSome) →
      Whole i (Pure.pure action)
  | throw (fault : Fault) : Whole i (throw fault)

theorem Whole.lift_bind {e : Except Fault α} {next : α → Exec Action}
    (H : ∀ a, e = .ok a → Whole i (next a)) : Whole i ((liftM e : Exec α) >>= next) := by
  cases e with
  | error fault => exact .throw fault
  | ok a => exact H a rfl

theorem whole_push_next (value : Value) : Whole i (do push value; next) :=
  .bind (part_push value) fun _ => .next

/-- An update on behalf of the frame's module ends an instruction. -/
theorem whole_update_next (r : Ref .object) {u : Option ModuleId → Object.Update}
    (hu : ∀ caller, (u caller).IsBy caller) : Whole i (do update r (u (← caller)); next) := by
  have H : Whole i _ := .bind (.updateOwn r hu) fun _ => .next
  simp only [bind_assoc] at H
  exact H

theorem whole_rebind_next (r : Ref .function) (receiver : Value) : Whole i (do
    let f ← found ((← heap).function? r)
    push (.function (← allocate (·.newFunction (f.bind receiver))))
    next) := by
  have H : Whole i (do push (.function (← rebind r receiver)); next) :=
    .bind (.rebind ..) fun _ => whole_push_next _
  simp only [rebind, bind_assoc] at H
  exact H

theorem whole_binary (op : BinaryOperator) (hi : i.opcode.taken?.isSome) :
    Whole i (binary op) := by
  refine .bind part_pop fun right => .bind part_pop fun left =>
    .bind (part_overload? ..) fun overload => ?_
  cases overload with
  | some overload => exact .act Action.noConfusion fun _ => hi
  | none =>
    refine .bind .heap fun h => .lift_bind fun outcome houtcome => ?_
    exact .bind (.realize (Operator.binary_isPlain houtcome)) fun _ => whole_push_next _

theorem whole_unary (op : UnaryOperator) (hi : i.opcode.taken?.isSome) : Whole i (unary op) := by
  refine .bind part_pop fun operand => .bind (part_overload? ..) fun overload => ?_
  cases overload with
  | some overload => exact .act Action.noConfusion fun _ => hi
  | none => exact .bind (.lift _) fun _ => whole_push_next _

/-- **Every instruction is made of its parts.** -/
theorem whole_instruction (i : Instruction) : Whole i (instruction i) := by
  obtain ⟨opcode, operand, handler, range⟩ := i
  cases opcode with
  | nop => exact .next
  | pop => exact .bind part_pop fun _ => .next
  | dup => exact .bind part_peek fun _ => whole_push_next _
  | swap =>
    exact .bind part_pop fun _ => .bind part_pop fun _ => .bind (part_push _)
      fun _ => whole_push_next _
  | pushNull | pushTrue | pushFalse => exact whole_push_next _
  | loadConst => exact .bind (part_constant _) fun _ => whole_push_next _
  | loadLocal => exact .bind .frame fun _ => whole_push_next _
  | storeLocal =>
    exact .bind part_pop fun _ => .bind (.modifyFrame fun _ => ⟨_, _, _, rfl⟩) fun _ => .next
  | loadCell =>
    exact .bind (part_cellOf _ rfl) fun _ => .bind .heap fun _ => .bind (part_found _)
      fun _ => whole_push_next _
  | storeCell =>
    exact .bind part_pop fun _ => .bind (part_cellOf _ rfl) fun _ =>
      .bind (.storeCell _ _ rfl) fun _ => .next
  | newCell =>
    exact .bind part_pop fun _ => .bind (.newCell _ rfl) fun _ => .bind (.setCell _ _ rfl)
      fun _ => .next
  | loadCapture =>
    exact .bind (part_capture _) fun _ => .bind .heap fun _ => .bind (part_found _)
      fun _ => whole_push_next _
  | storeCapture =>
    exact .bind part_pop fun _ => .bind (part_capture _) fun _ =>
      .bind (.storeCell _ _ rfl) fun _ => .next
  | loadGlobal =>
    exact .bind (part_name _) fun _ => .bind .heap fun _ => .bind .frame fun _ =>
      .bind (part_found _) fun _ => .bind part_caller fun _ => .bind (.lift _)
      fun _ => whole_push_next _
  | storeGlobal =>
    exact .bind (part_name _) fun _ => .bind part_pop fun _ => .bind .frame
      fun _ => whole_update_next _ fun _ => rfl
  | getAttr =>
    exact .bind (part_name _) fun _ => .bind part_pop fun _ => .bind .heap fun _ =>
      .bind part_caller fun _ => .bind (.lift _) fun _ => whole_push_next _
  | setAttr | declareConst =>
    exact .bind (part_name _) fun _ => .bind part_pop fun _ => .bind part_pop fun _ =>
      .bind (part_objectOf _) fun _ => whole_update_next _ fun _ => rfl
  | «export» | lock =>
    exact .bind (part_name _) fun _ => .bind part_pop fun _ => .bind (part_objectOf _)
      fun _ => whole_update_next _ fun _ => rfl
  | «seal» => exact .bind part_peek fun _ => .bind (part_sealValue _) fun _ => .next
  | getIndex =>
    exact .bind part_pop fun _ => .bind part_pop fun _ => .bind (part_getIndex ..)
      fun _ => whole_push_next _
  | setIndex =>
    exact .bind part_pop fun _ => .bind part_pop fun _ => .bind part_pop fun _ =>
      .bind (part_setIndex ..) fun _ => .next
  | add | subtract | multiply | divide | remainder | bitwiseAnd | bitwiseOr | bitwiseXor
  | shiftLeft | shiftRight | equal | notEqual | lessThan | lessThanOrEqual | greaterThan
  | greaterThanOrEqual => exact whole_binary _ rfl
  | negate | not => exact whole_unary _ rfl
  | jump => exact .jump (List.mem_singleton_self _)
  | jumpIf =>
    refine .bind part_pop fun condition => ?_
    cases condition.truthy with
    | false => exact .next
    | true => exact .jump (List.mem_singleton_self _)
  | jumpIfNot =>
    refine .bind part_pop fun condition => ?_
    cases condition.truthy with
    | false => exact .jump (List.mem_singleton_self _)
    | true => exact .next
  | newArgs => exact .bind (.modifyFrame fun _ => ⟨_, _, _, rfl⟩) fun _ => .next
  | pushArg => exact .bind part_pop fun _ => .bind (part_modifyArgs _) fun _ => .next
  | pushKeyword =>
    exact .bind (part_name _) fun _ => .bind part_pop fun _ => .bind (part_modifyArgs _)
      fun _ => .next
  | call =>
    exact .bind part_pop fun _ => .bind part_pop fun _ => .bind part_takeArgs
      fun _ => .act Action.noConfusion fun _ => rfl
  | invoke =>
    exact .bind (part_name _) fun _ => .bind part_pop fun _ => .bind part_takeArgs
      fun _ => .act Action.noConfusion fun _ => rfl
  | bind =>
    refine .bind part_pop fun receiver => .bind part_pop fun value => ?_
    cases value with
    | function r => exact whole_rebind_next r receiver
    | _ => exact .throw _
  | makeFunction =>
    exact .bind (.makeFunction _ rfl fun captures => part_captured captures rfl)
      fun _ => whole_push_next _
  | newArray =>
    refine .bind part_takeArgs fun args => ?_
    cases args.hasKeywords with
    | false => exact .bind (.newArray _) fun _ => whole_push_next _
    | true => exact .throw _
  | newObject =>
    exact .bind part_takeArgs fun _ => .bind (part_newObject _) fun _ => whole_push_next _
  | loadModule =>
    exact .bind (part_name _) fun _ => .act Action.noConfusion Bool.noConfusion
  | «return» => exact .bind .frame fun _ => .act Action.noConfusion Bool.noConfusion
  | throw => exact .bind part_pop fun _ => .throw _
  | popErr => exact .bind .frame fun _ => whole_push_next _

/-- Past the last instruction the frame returns. -/
theorem step_of_none {l : Local}
    (hi : l.frame.code.instructions[l.frame.instruction]? = none) :
    step.run l = (.ok (.return .null), l) := by
  rw [step, run_frame_bind]
  simp only [hi]
  rfl

theorem step_of_some {l : Local}
    (hi : l.frame.code.instructions[l.frame.instruction]? = some i) :
    step.run l = (instruction i).run l := by
  rw [step, run_frame_bind]
  simp only [hi]

end Exec

end FiberMachine
