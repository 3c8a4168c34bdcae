import FiberMachine.Execution
import FiberMachine.Proofs.Execution.Effect

/-!
# Codes in backtraces

The envelope of an error shows the codes of the frames in which the error was raised. Nothing that
is done to a heap depends on them: an instruction does the same when there are other codes in the
backtraces, or when its own frame has another code with the same instruction
(`Exec.recodes_instruction`), and so does everything else that a machine does. Machines that are the
same up to such codes are related by `Machine.Same`.
-/

namespace FiberMachine

variable {σ : Code → Code}

def StackFrame.recode (σ : Code → Code) (f : StackFrame) : StackFrame := { f with code := σ f.code }

def Envelope.recode (σ : Code → Code) (e : Envelope) : Envelope :=
  { e with backtrace := e.backtrace.map (StackFrame.recode σ) }

namespace Heap

/-- The heap with other codes in the backtraces of its errors. -/
def recode (σ : Code → Code) (h : Heap) : Heap :=
  { h with errors := h.errors.map (Envelope.recode σ) }

variable {h : Heap}

theorem recode_error? (r : Ref .error) :
    (h.recode σ).error? r = (h.error? r).map (Envelope.recode σ) := Array.getElem?_map

theorem recode_content? {kind : Kind} (h : Heap) (r : Ref kind) :
    (h.recode σ).content? r = h.content? r := by
  cases kind <;> rfl

theorem recode_realize (outcome : Outcome) :
    (h.recode σ).realize outcome = ((h.realize outcome).1, (h.realize outcome).2.recode σ) := by
  cases outcome <;> rfl

end Heap

namespace Builtin

theorem recode_property (h : Heap) (target : Value) (builtin : Builtin) :
    property (h.recode σ) target builtin = property h target builtin := by
  cases target with
  | error r =>
    cases builtin with
    | value | kind | message =>
      simp only [property, Heap.recode_error?]
      cases h.error? r <;> rfl
    | _ => rfl
  | _ => cases builtin <;> rfl

theorem recode_readAttribute (h : Heap) (target : Value) (name : String)
    (caller : Option ModuleId) :
    readAttribute (h.recode σ) target name caller = readAttribute h target name caller := by
  cases target with
  | object r => rfl
  | _ => simp only [readAttribute, recode_property]

theorem recode_call (h : Heap) (target : Value) (name : String) (args : Arguments) :
    call (h.recode σ) target name args = call h target name args := by
  unfold call
  simp only [recode_property]
  rfl

end Builtin

/-! ## Parts of instructions -/

/-- The frame with another code and another continuation. -/
def Frame.recast (code : Code) (k : Continuation) (f : Frame) : Frame :=
  { f with code, continuation := k }

/-- The heap with other codes in its backtraces, and the frame recast. -/
def Local.recode (σ : Code → Code) (code : Code) (k : Continuation) (l : Local) : Local :=
  ⟨l.heap.recode σ, l.frame.recast code k⟩

namespace Exec

variable {α β : Type} {code : Code} {k : Continuation}

/-- The computation depends neither on codes in backtraces nor on what becomes of its frame. -/
structure Recodes (σ : Code → Code) (code : Code) (k : Continuation) (x : Exec α) : Prop where
  run (l : Local) : x.run (l.recode σ code k) = ((x.run l).1, (x.run l).2.recode σ code k)

namespace Recodes

theorem bind {x : Exec α} {next : α → Exec β} (H : Recodes σ code k x)
    (H' : ∀ a, Recodes σ code k (next a)) : Recodes σ code k (x >>= next) := by
  refine ⟨fun l => ?_⟩
  rw [run_bind, run_bind, H.run]
  rcases x.run l with ⟨_ | a, l'⟩
  · rfl
  · exact (H' a).run l'

theorem pure (a : α) : Recodes σ code k (Pure.pure a) := ⟨fun _ => rfl⟩

theorem throw (fault : Fault) : Recodes σ code k (throw fault : Exec α) := ⟨fun _ => rfl⟩

theorem lift (e : Except Fault α) : Recodes σ code k (liftM e : Exec α) :=
  ⟨fun l => by cases e <;> rfl⟩

theorem orElseFault (fault : Fault) (a? : Option α) :
    Recodes σ code k (Exec.orElseFault fault a?) := by
  cases a? with
  | none => exact .throw fault
  | some a => exact .pure a

/-- What is read from the heap does not show in what follows. -/
theorem heap_bind {next : Heap → Exec α} (h : ∀ heap : Heap, next (heap.recode σ) = next heap)
    (H : ∀ heap, Recodes σ code k (next heap)) : Recodes σ code k (heap >>= next) := by
  refine ⟨fun l => ?_⟩
  rw [run_heap_bind, run_heap_bind, ← (H l.heap).run]
  exact congrArg (fun x : Exec α => x.run (l.recode σ code k)) (h l.heap)

/-- The code of the frame does not show in what follows. -/
theorem frame_bind {next : Frame → Exec α} (h : ∀ f : Frame, next (f.recast code k) = next f)
    (H : ∀ f, Recodes σ code k (next f)) : Recodes σ code k (frame >>= next) := by
  refine ⟨fun l => ?_⟩
  rw [run_frame_bind, run_frame_bind, ← (H l.frame).run]
  exact congrArg (fun x : Exec α => x.run (l.recode σ code k)) (h l.frame)

end Recodes

theorem recodes_found (a? : Option α) : Recodes σ code k (found a?) := .orElseFault _ a?

theorem recodes_caller : Recodes σ code k caller := ⟨fun _ => rfl⟩

theorem recodes_modifyFrame {f : Frame → Frame}
    (H : ∀ g : Frame, f (g.recast code k) = (f g).recast code k) :
    Recodes σ code k (modifyFrame f) :=
  ⟨fun l => congrArg (fun g => (Except.ok (), Local.mk (l.heap.recode σ) g)) (H l.frame)⟩

theorem recodes_modifyHeap {f : Heap → Heap} (H : ∀ h : Heap, f (h.recode σ) = (f h).recode σ) :
    Recodes σ code k (modifyHeap f) :=
  ⟨fun l => congrArg (fun h => (Except.ok (), Local.mk h (l.frame.recast code k))) (H l.heap)⟩

theorem recodes_allocate {f : Heap → α × Heap}
    (H : ∀ h : Heap, f (h.recode σ) = ((f h).1, (f h).2.recode σ)) :
    Recodes σ code k (allocate f) :=
  ⟨fun l => congrArg (fun p : α × Heap => (Except.ok p.1, Local.mk p.2 (l.frame.recast code k)))
    (H l.heap)⟩

theorem recodes_push (value : Value) : Recodes σ code k (push value) :=
  recodes_modifyFrame fun _ => rfl

theorem recodes_pop : Recodes σ code k pop := by
  refine .frame_bind (fun _ => rfl) fun f => ?_
  cases f.stack with
  | nil => exact .throw _
  | cons value rest => exact .bind (recodes_modifyFrame fun _ => rfl) fun _ => .pure _

theorem recodes_peek : Recodes σ code k peek :=
  .frame_bind (fun _ => rfl) fun _ => .orElseFault ..

theorem recodes_constant (i : Nat) : Recodes σ code k (constant i) :=
  .frame_bind (fun _ => rfl) fun _ => .orElseFault ..

theorem recodes_name (i : Nat) : Recodes σ code k (name i) :=
  (recodes_constant i).bind fun _ => .orElseFault ..

theorem recodes_capture (i : Nat) : Recodes σ code k (capture i) :=
  .frame_bind (fun _ => rfl) fun _ => .orElseFault ..

theorem recodes_newCell (value : Value) : Recodes σ code k (newCell value) :=
  recodes_allocate fun _ => rfl

theorem recodes_cellOf (slot : Nat) : Recodes σ code k (cellOf slot) := by
  refine .frame_bind (fun _ => rfl) fun f => ?_
  cases f.cell? slot with
  | some cell => exact .pure cell
  | none =>
    exact .frame_bind (fun _ => rfl) fun _ => (recodes_newCell _).bind fun _ =>
      .bind (recodes_modifyFrame fun _ => rfl) fun _ => .pure _

theorem recodes_modifyArgs (f : Arguments → Arguments) : Recodes σ code k (modifyArgs f) := by
  refine .frame_bind (fun _ => rfl) fun g => ?_
  cases g.args with
  | nil => exact .throw _
  | cons args rest => exact recodes_modifyFrame fun _ => rfl

theorem recodes_takeArgs : Recodes σ code k takeArgs := by
  refine .frame_bind (fun _ => rfl) fun g => ?_
  cases g.args with
  | nil => exact .throw _
  | cons args rest => exact .bind (recodes_modifyFrame fun _ => rfl) fun _ => .pure _

theorem recodes_next : Recodes σ code k next :=
  .bind (recodes_modifyFrame fun _ => rfl) fun _ => .pure _

theorem recodes_jump (target : Nat) : Recodes σ code k (jump target) :=
  .bind (recodes_modifyFrame fun _ => rfl) fun _ => .pure _

theorem recodes_push_next (value : Value) : Recodes σ code k (do push value; next) :=
  (recodes_push value).bind fun _ => recodes_next

theorem recodes_update (r : Ref .object) (u : Object.Update) : Recodes σ code k (update r u) :=
  .heap_bind (fun _ => rfl) fun _ => .bind (.lift _) fun _ => recodes_modifyHeap fun _ => rfl

theorem recodes_setArray (r : Ref .array) (s : Sequence) :
    Recodes σ code k (modifyHeap (·.setArray r s)) := recodes_modifyHeap fun _ => rfl

theorem recodes_setCell (r : Ref .cell) (value : Value) :
    Recodes σ code k (modifyHeap (·.setCell r value)) := recodes_modifyHeap fun _ => rfl

theorem recodes_objectOf (value : Value) : Recodes σ code k (objectOf value) := by
  cases value with
  | object r => exact .pure r
  | _ => exact .throw _

theorem recodes_sealValue (value : Value) : Recodes σ code k (sealValue value) := by
  cases value with
  | object r => exact recodes_update r .seal
  | array r =>
    exact .heap_bind (fun _ => rfl) fun _ => (recodes_found _).bind fun _ => recodes_setArray ..
  | _ => exact .throw _

theorem recodes_getIndex (target index : Value) : Recodes σ code k (getIndex target index) := by
  cases target with
  | array r =>
    exact .heap_bind (fun _ => rfl) fun _ => (recodes_found _).bind fun _ =>
      (Recodes.orElseFault ..).bind fun _ => .lift _
  | object r =>
    exact .heap_bind (fun _ => rfl) fun _ => (recodes_found _).bind fun _ =>
      (Recodes.orElseFault ..).bind fun _ => recodes_caller.bind fun _ => .lift _
  | _ => exact .throw _

theorem recodes_setIndex (target index value : Value) :
    Recodes σ code k (setIndex target index value) := by
  cases target with
  | array r =>
    exact .heap_bind (fun _ => rfl) fun _ => (recodes_found _).bind fun _ =>
      (Recodes.orElseFault ..).bind fun _ => (Recodes.lift _).bind fun _ => recodes_setArray ..
  | object r =>
    exact (Recodes.orElseFault ..).bind fun _ => recodes_caller.bind fun _ => recodes_update r _
  | _ => exact .throw _

theorem recodes_newFunction (f : FunctionObject) : Recodes σ code k (allocate (·.newFunction f)) :=
  recodes_allocate fun _ => rfl

theorem recodes_bindField (self : Ref .object) (value : Value) :
    Recodes σ code k (bindField self value) := by
  cases value with
  | function r =>
    exact .heap_bind (fun _ => rfl) fun _ => (recodes_found _).bind fun _ =>
      (recodes_newFunction _).bind fun _ => .pure _
  | _ => exact .pure _

theorem recodes_setFields (self : Ref .object) (fields : List (String × Value)) :
    Recodes σ code k (setFields self fields) := by
  induction fields with
  | nil => exact .pure _
  | cons field rest ih =>
    exact (recodes_bindField self field.2).bind fun _ => (recodes_update self _).bind fun _ => ih

theorem recodes_newObject (args : Arguments) : Recodes σ code k (newObject args) := by
  have hrest : Recodes σ code k (do
      let self ← allocate (·.newObject {})
      setFields self args.keywords.entries
      return Value.object self) :=
    .bind (recodes_allocate fun _ => rfl) fun _ => (recodes_setFields ..).bind fun _ => .pure _
  unfold newObject
  split
  · exact .throw _
  · exact hrest

theorem recodes_captured (captures : List Capture) : Recodes σ code k (captured captures) := by
  induction captures with
  | nil => exact .pure _
  | cons c rest ih =>
    cases c with
    | slot i => exact (recodes_cellOf _).bind fun _ => ih.bind fun _ => .pure _
    | outer i => exact (recodes_capture _).bind fun _ => ih.bind fun _ => .pure _

theorem recodes_makeFunction (i : Nat) : Recodes σ code k (makeFunction i) := by
  refine (recodes_constant i).bind fun value => ?_
  cases value with
  | code r =>
    exact .heap_bind (fun _ => rfl) fun _ => (recodes_found _).bind fun _ =>
      (recodes_captured _).bind fun _ => .frame_bind (fun _ => rfl) fun _ =>
        (recodes_newFunction _).bind fun _ => .pure _
  | _ => exact .throw _

theorem recodes_overload? (operand : Value) (name : String) :
    Recodes σ code k (overload? operand name) := by
  cases operand with
  | object r =>
    exact .heap_bind (fun _ => rfl) fun _ => (recodes_found _).bind fun _ => .pure _
  | _ => exact .pure none

/-! ## Instructions -/

theorem recodes_binary (op : BinaryOperator) : Recodes σ code k (binary op) := by
  refine recodes_pop.bind fun right => recodes_pop.bind fun left =>
    (recodes_overload? left _).bind fun overload => ?_
  cases overload with
  | some overload => exact .pure _
  | none =>
    exact .heap_bind (fun _ => rfl) fun _ => (Recodes.lift _).bind fun outcome =>
      .bind (recodes_allocate fun _ => Heap.recode_realize outcome) fun _ => recodes_push_next _

theorem recodes_unary (op : UnaryOperator) : Recodes σ code k (unary op) := by
  refine recodes_pop.bind fun operand => (recodes_overload? operand _).bind fun overload => ?_
  cases overload with
  | some overload => exact .pure _
  | none => exact (Recodes.lift _).bind fun _ => recodes_push_next _

theorem recodes_update_next {target : Exec (Ref .object)} {u : Option ModuleId → Object.Update}
    (H : Recodes σ code k target) : Recodes σ code k (do update (← target) (u (← caller)); next) :=
  H.bind fun r => recodes_caller.bind fun _ => (recodes_update r _).bind fun _ => recodes_next

/-- **An instruction does not depend on codes**, neither in backtraces nor that of its frame. -/
theorem recodes_instruction (i : Instruction) : Recodes σ code k (instruction i) := by
  obtain ⟨opcode, operand, handler, range⟩ := i
  cases opcode with
  | add | subtract | multiply | divide | remainder | bitwiseAnd | bitwiseOr | bitwiseXor
  | shiftLeft | shiftRight | equal | notEqual | lessThan | lessThanOrEqual | greaterThan
  | greaterThanOrEqual => exact recodes_binary _
  | negate | not => exact recodes_unary _
  | nop => exact recodes_next
  | pop => exact recodes_pop.bind fun _ => recodes_next
  | dup => exact recodes_peek.bind fun _ => recodes_push_next _
  | swap =>
    exact recodes_pop.bind fun _ => recodes_pop.bind fun _ => (recodes_push _).bind
      fun _ => recodes_push_next _
  | pushNull | pushTrue | pushFalse => exact recodes_push_next _
  | loadConst => exact (recodes_constant _).bind fun _ => recodes_push_next _
  | loadLocal => exact .frame_bind (fun _ => rfl) fun _ => recodes_push_next _
  | storeLocal =>
    exact recodes_pop.bind fun _ => .bind (recodes_modifyFrame fun _ => rfl) fun _ => recodes_next
  | loadCell =>
    exact (recodes_cellOf _).bind fun _ => .heap_bind (fun _ => rfl) fun _ =>
      (recodes_found _).bind fun _ => recodes_push_next _
  | storeCell =>
    exact recodes_pop.bind fun _ => (recodes_cellOf _).bind fun _ => (recodes_setCell ..).bind
      fun _ => recodes_next
  | newCell =>
    exact recodes_pop.bind fun _ => (recodes_newCell _).bind fun _ =>
      .bind (recodes_modifyFrame fun _ => rfl) fun _ => recodes_next
  | loadCapture =>
    exact (recodes_capture _).bind fun _ => .heap_bind (fun _ => rfl) fun _ =>
      (recodes_found _).bind fun _ => recodes_push_next _
  | storeCapture =>
    exact recodes_pop.bind fun _ => (recodes_capture _).bind fun _ => (recodes_setCell ..).bind
      fun _ => recodes_next
  | loadGlobal =>
    exact (recodes_name _).bind fun _ => .heap_bind (fun _ => rfl) fun _ =>
      .frame_bind (fun _ => rfl) fun _ => (recodes_found _).bind fun _ => recodes_caller.bind
        fun _ => (Recodes.lift _).bind fun _ => recodes_push_next _
  | storeGlobal =>
    exact (recodes_name _).bind fun _ => recodes_pop.bind fun _ =>
      .frame_bind (fun _ => rfl) fun _ => recodes_caller.bind fun _ => (recodes_update ..).bind
        fun _ => recodes_next
  | getAttr =>
    refine (recodes_name _).bind fun s => recodes_pop.bind fun target =>
      .heap_bind (fun h => ?_) fun _ => recodes_caller.bind fun _ => (Recodes.lift _).bind
        fun _ => recodes_push_next _
    simp only [Builtin.recode_readAttribute]
  | setAttr | declareConst =>
    exact (recodes_name _).bind fun _ => recodes_pop.bind fun _ => recodes_pop.bind fun _ =>
      recodes_update_next (recodes_objectOf _)
  | «export» | lock =>
    exact (recodes_name _).bind fun _ => recodes_pop.bind fun _ =>
      recodes_update_next (recodes_objectOf _)
  | «seal» => exact recodes_peek.bind fun _ => (recodes_sealValue _).bind fun _ => recodes_next
  | getIndex =>
    exact recodes_pop.bind fun _ => recodes_pop.bind fun _ => (recodes_getIndex ..).bind
      fun _ => recodes_push_next _
  | setIndex =>
    exact recodes_pop.bind fun _ => recodes_pop.bind fun _ => recodes_pop.bind fun _ =>
      (recodes_setIndex ..).bind fun _ => recodes_next
  | jump => exact recodes_jump _
  | jumpIf =>
    refine recodes_pop.bind fun condition => ?_
    cases condition.truthy
    · exact recodes_next
    · exact recodes_jump _
  | jumpIfNot =>
    refine recodes_pop.bind fun condition => ?_
    cases condition.truthy
    · exact recodes_jump _
    · exact recodes_next
  | newArgs => exact .bind (recodes_modifyFrame fun _ => rfl) fun _ => recodes_next
  | pushArg => exact recodes_pop.bind fun _ => (recodes_modifyArgs _).bind fun _ => recodes_next
  | pushKeyword =>
    exact (recodes_name _).bind fun _ => recodes_pop.bind fun _ => (recodes_modifyArgs _).bind
      fun _ => recodes_next
  | call =>
    exact recodes_pop.bind fun _ => recodes_pop.bind fun _ => recodes_takeArgs.bind
      fun _ => .pure _
  | invoke =>
    exact (recodes_name _).bind fun _ => recodes_pop.bind fun _ => recodes_takeArgs.bind
      fun _ => .pure _
  | bind =>
    refine recodes_pop.bind fun _ => recodes_pop.bind fun value => ?_
    cases value with
    | function r =>
      exact .heap_bind (fun _ => rfl) fun _ => (recodes_found _).bind fun _ =>
        (recodes_newFunction _).bind fun _ => recodes_push_next _
    | _ => exact .throw _
  | makeFunction => exact (recodes_makeFunction _).bind fun _ => recodes_push_next _
  | newArray =>
    refine recodes_takeArgs.bind fun args => ?_
    cases args.hasKeywords
    · exact .bind (recodes_allocate fun _ => rfl) fun _ => recodes_push_next _
    · exact .throw _
  | newObject =>
    exact recodes_takeArgs.bind fun _ => (recodes_newObject _).bind fun _ => recodes_push_next _
  | loadModule => exact (recodes_name _).bind fun _ => .pure _
  | «return» => exact .frame_bind (fun _ => rfl) fun _ => .pure _
  | throw => exact recodes_pop.bind fun _ => .throw _
  | popErr => exact .frame_bind (fun _ => rfl) fun _ => recodes_push_next _

/-- In a recast frame that has the same instruction, the instruction does the same. -/
theorem step_recast {h h' : Heap} (hh : h.recode σ = h'.recode σ) {f : Frame}
    (hi : code.instructions[f.instruction]? = f.code.instructions[f.instruction]?) :
    (step.run ⟨h', f.recast code k⟩).1 = (step.run ⟨h, f⟩).1 ∧
      (step.run ⟨h, f⟩).2.heap.recode σ = (step.run ⟨h', f.recast code k⟩).2.heap.recode σ ∧
      (step.run ⟨h', f.recast code k⟩).2.frame = (step.run ⟨h, f⟩).2.frame.recast code k := by
  have hlocal : Local.recode σ code k ⟨h', f.recast code k⟩ = Local.recode σ code k ⟨h, f⟩ :=
    congrArg (Local.mk · (f.recast code k)) hh.symm
  have hsame := keeps_step.same ⟨h', f.recast code k⟩
  cases hi' : f.code.instructions[f.instruction]? with
  | none =>
    rw [step_of_none (l := ⟨h, f⟩) hi', step_of_none (l := ⟨h', f.recast code k⟩) (hi.trans hi')]
    exact ⟨rfl, hh, rfl⟩
  | some i =>
    rw [step_of_some (l := ⟨h', f.recast code k⟩) (hi.trans hi')] at hsame
    rw [step_of_some (l := ⟨h, f⟩) hi', step_of_some (l := ⟨h', f.recast code k⟩) (hi.trans hi')]
    have hrun := ((recodes_instruction i).run ⟨h', f.recast code k⟩).symm.trans
      ((congrArg (instruction i).run hlocal).trans ((recodes_instruction i).run ⟨h, f⟩))
    obtain ⟨haction, hl⟩ := Prod.mk.inj hrun
    refine ⟨haction, (congrArg Local.heap hl).symm, ?_⟩
    have hframe := congrArg Local.frame hl
    simp only [Local.recode] at hframe
    rw [← hframe]
    generalize ((instruction i).run ⟨h', f.recast code k⟩).2.frame = g at hsame
    have hcode : g.code = code := hsame.code
    have hcontinuation : g.continuation = k := hsame.continuation
    rw [← hcode, ← hcontinuation]
    rfl

end Exec

/-! ## Machines -/

theorem Heap.recode_assign (h : Heap) (function : Ref .function) (s : Signature) (receiver : Value)
    (args : Arguments) :
    (h.recode σ).assign function s receiver args =
      ((h.assign function s receiver args).1, (h.assign function s receiver args).2.recode σ) := by
  have hexcess : (h.recode σ).collectExcess s args =
      ((h.collectExcess s args).1, (h.collectExcess s args).2.recode σ) := by
    unfold collectExcess
    split <;> rfl
  have hothers (h : Heap) : (h.recode σ).collectOthers s args =
      ((h.collectOthers s args).1, (h.collectOthers s args).2.recode σ) := by
    unfold collectOthers
    split
    · rfl
    · dsimp only
      split <;> rfl
  unfold assign
  split
  · rfl
  · simp only [hexcess, hothers]
    generalize (h.collectExcess s args).2.collectOthers s args = collected
    obtain ⟨_ | others, h'⟩ := collected <;> rfl

theorem Frame.recode_bind (h : Heap) (function : Ref .function) (code : Code)
    (captures : List (Ref .cell)) (scope : Scope) (receiver : Value) (args : Arguments) :
    Frame.bind (h.recode σ) function code captures scope receiver args =
      ((Frame.bind h function code captures scope receiver args).1,
        (Frame.bind h function code captures scope receiver args).2.recode σ) := by
  simp only [Frame.bind, Heap.recode_assign]
  obtain ⟨result, h'⟩ := h.assign function code.signature receiver args
  cases result <;> rfl

namespace Machine

theorem recode_instantiateAll (id : ModuleId) (h : Heap) (cs : List Constant) :
    instantiateAll id (h.recode σ) cs =
      ((instantiateAll id h cs).1, (instantiateAll id h cs).2.recode σ) := by
  induction cs generalizing h with
  | nil => rfl
  | cons c rest ih =>
    have hfirst : instantiate id (h.recode σ) c =
        ((instantiate id h c).1, (instantiate id h c).2.recode σ) := by cases c <;> rfl
    simp only [instantiateAll, hfirst, ih]

theorem recode_declareMethods (id : ModuleId) (self : Ref .object) (h : Heap) (o : Object)
    (methods : List (String × Code)) :
    declareMethods id self (h.recode σ) o methods =
      ((declareMethods id self h o methods).1,
        (declareMethods id self h o methods).2.recode σ) := by
  induction methods generalizing h o with
  | nil => rfl
  | cons method rest ih =>
    obtain ⟨name, code⟩ := method
    have hnew (f : FunctionObject) :
        (h.recode σ).newFunction f = ((h.newFunction f).1, (h.newFunction f).2.recode σ) := rfl
    simp only [declareMethods, hnew]
    split
    · exact ih ..
    · rfl

theorem recode_construct (h : Heap) (t : Template) (args : Arguments) :
    construct (h.recode σ) t args = ((construct h t args).1, (construct h t args).2.recode σ) := by
  have hnew : (h.recode σ).newObject {} = ((h.newObject {}).1, (h.newObject {}).2.recode σ) := rfl
  simp only [construct, hnew, recode_declareMethods]
  split
  · rfl
  · generalize declareMethods t.module _ _ _ t.methods = declared
    obtain ⟨_ | o, h'⟩ := declared
    · rfl
    · dsimp only
      cases o.setAll args.keywords.entries <;> rfl

/-- The machine with other codes in the backtraces of its errors. -/
def recode (σ : Code → Code) (m : Machine) : Machine := { m with heap := m.heap.recode σ }

variable {m m' : Machine}

theorem recode_onHeap {α : Type} {f : Heap → α × Heap}
    (h : ∀ heap : Heap, f (heap.recode σ) = ((f heap).1, (f heap).2.recode σ)) (m : Machine) :
    (m.recode σ).onHeap f = ((m.onHeap f).1, (m.onHeap f).2.recode σ) := by
  simp only [onHeap, recode, h]

theorem recode_register (linked : LinkedModule) (m : Machine) :
    (m.recode σ).register linked = ((m.register linked).1, (m.register linked).2.recode σ) := by
  simp only [register, onHeap, recode, recode_instantiateAll]
  rfl

theorem recode_registerNative (name : String) (m : Machine) :
    (m.recode σ).registerNative name =
      ((m.registerNative name).1, (m.registerNative name).2.recode σ) := rfl

theorem recode_finishModule (id : ModuleId) (error : Option Value) (m : Machine) :
    (m.recode σ).finishModule id error = (m.finishModule id error).recode σ := by
  have hstate (s : ModuleState) : (m.recode σ).setState id s = (m.setState id s).recode σ := rfl
  simp only [finishModule, hstate]
  generalize m.setState id _ = m'
  have hmodule : (m'.recode σ).module? id = m'.module? id := rfl
  rw [hmodule]
  cases m'.module? id with
  | none => rfl
  | some entry =>
    refine congrArg Prod.snd (recode_onHeap (fun h => ?_) m')
    have hobject : (h.recode σ).object? entry.object = h.object? entry.object := rfl
    simp only [hobject]
    cases h.object? entry.object <;> rfl

theorem recode_conclude (continuation : Continuation) (result : Except Value Value)
    (m : Machine) :
    (m.recode σ).conclude continuation result =
      ((m.conclude continuation result).1, (m.conclude continuation result).2.recode σ) := by
  cases continuation with
  | result => rfl
  | negated => cases result <;> rfl
  | module id object =>
    cases result with
    | error e => simp only [conclude, recode_finishModule]
    | ok value =>
      have hmodule (m' : Machine) : (m'.recode σ).module? id = m'.module? id := rfl
      simp only [conclude, recode_finishModule, hmodule]
      split <;> rfl

theorem recode_reaches (waiter : FiberId) (bound : Nat) (current : FiberId) (m : Machine) :
    (m.recode σ).reaches waiter bound current = m.reaches waiter bound current := by
  have hblocker (fiber : FiberId) : (m.recode σ).blocker? fiber = m.blocker? fiber := rfl
  induction bound generalizing current with
  | zero => rfl
  | succ bound ih => simp only [reaches, hblocker, ih]

theorem recode_wouldDeadlock (waiter loader : FiberId) (m : Machine) :
    (m.recode σ).wouldDeadlock waiter loader = m.wouldDeadlock waiter loader :=
  recode_reaches ..

theorem recode_prepareCall (callable receiver : Value) (args : Arguments) (m : Machine) :
    (m.recode σ).prepareCall callable receiver args =
      ((m.prepareCall callable receiver args).1,
        (m.prepareCall callable receiver args).2.recode σ) := by
  cases callable with
  | function r =>
    have hfunction : (m.recode σ).heap.function? r = m.heap.function? r := rfl
    have hscope : (m.recode σ).scope? = m.scope? := rfl
    simp only [prepareCall, hfunction, hscope]
    cases m.heap.function? r with
    | none => rfl
    | some f =>
      dsimp only
      cases f.body with
      | native name routine => rfl
      | interpreted code captures =>
        dsimp only
        cases f.module.bind m.scope? with
        | none => rfl
        | some scope =>
          dsimp only
          rw [recode_onHeap fun _ => Frame.recode_bind ..]
          generalize m.onHeap _ = bound
          obtain ⟨_ | frame, m'⟩ := bound <;> rfl
  | template r =>
    have htemplate : (m.recode σ).heap.template? r = m.heap.template? r := rfl
    simp only [prepareCall, htemplate]
    cases m.heap.template? r with
    | none => rfl
    | some t =>
      dsimp only
      rw [recode_onHeap fun _ => recode_construct ..]
      generalize m.onHeap _ = constructed
      obtain ⟨_ | value, m'⟩ := constructed <;> rfl
  | _ => rfl

theorem recode_prepareInvoke (target : Value) (name : String) (args : Arguments)
    (caller : Option ModuleId) (m : Machine) :
    (m.recode σ).prepareInvoke target name args caller =
      ((m.prepareInvoke target name args caller).1,
        (m.prepareInvoke target name args caller).2.recode σ) := by
  have hbuiltin (target : Value) :
      Builtin.call (m.recode σ).heap target name args = Builtin.call m.heap target name args :=
    Builtin.recode_call ..
  cases target with
  | object r =>
    have hobject : (m.recode σ).heap.object? r = m.heap.object? r := rfl
    simp only [prepareInvoke, hobject]
    cases m.heap.object? r with
    | none => rfl
    | some o =>
      dsimp only
      cases o.get name caller with
      | ok method => exact recode_prepareCall ..
      | error fault => rfl
  | _ =>
    simp only [prepareInvoke, hbuiltin]
    split
    · rfl
    · rw [recode_onHeap fun _ => Heap.recode_realize _]

/-! ## Machines that are the same up to codes in backtraces -/

/-- The machines are the same but for codes in backtraces which `σ` does not tell apart. -/
def Same (σ : Code → Code) (m m' : Machine) : Prop := m.recode σ = m'.recode σ

namespace Same

theorem refl (m : Machine) : Same σ m m := rfl

/-- What does not depend on the codes comes to the same on both machines. -/
theorem pair {α : Type} {f : Machine → α × Machine}
    (hf : ∀ m : Machine, f (m.recode σ) = ((f m).1, (f m).2.recode σ)) (H : Same σ m m') :
    (f m').1 = (f m).1 ∧ Same σ (f m).2 (f m').2 := by
  have h : ((f m).1, (f m).2.recode σ) = ((f m').1, (f m').2.recode σ) := by
    rw [← hf, ← hf, show m.recode σ = m'.recode σ from H]
  exact ⟨(Prod.mk.inj h).1.symm, (Prod.mk.inj h).2⟩

/-- The same change of both machines. -/
theorem map {f : Machine → Machine} (hf : ∀ m : Machine, f (m.recode σ) = (f m).recode σ)
    (H : Same σ m m') : Same σ (f m) (f m') :=
  (hf m).symm.trans ((congrArg f H).trans (hf m'))

theorem eq {α : Type} {f : Machine → α} (hf : ∀ m : Machine, f (m.recode σ) = f m)
    (H : Same σ m m') : f m' = f m :=
  (hf m').symm.trans ((congrArg f H).symm.trans (hf m))

theorem heap (H : Same σ m m') : m.heap.recode σ = m'.heap.recode σ := congrArg Machine.heap H

/-- Another heap on both machines. -/
theorem setHeap (H : Same σ m m') {h h' : Heap} (hh : h.recode σ = h'.recode σ) :
    Same σ { m with heap := h } { m' with heap := h' } := by
  have hm := congrArg (fun m : Machine => { m with heap := h.recode σ }) H
  simp only [recode] at hm
  simp only [Same, recode, ← hh]
  exact hm

end Same

end Machine

/-- Errors that are raised in frames whose codes are not told apart are the same. -/
theorem Heap.recode_envelope {h h' : Heap} (hh : h.recode σ = h'.recode σ) {fs fs' : List Frame}
    (hfs : (backtraceOf fs).map (StackFrame.recode σ) =
      (backtraceOf fs').map (StackFrame.recode σ)) (fault : Fault) :
    (h'.envelope fs' fault).1 = (h.envelope fs fault).1 ∧
      (h.envelope fs fault).2.recode σ = (h'.envelope fs' fault).2.recode σ := by
  have hsize : h'.errors.size = h.errors.size := by
    have := congrArg (fun h : Heap => h.errors.size) hh
    simpa only [Heap.recode, Array.size_map] using this.symm
  have hnew (e e' : Envelope) (he : e.recode σ = e'.recode σ) :
      (h'.newError e').1 = (h.newError e).1 ∧
        (h.newError e).2.recode σ = (h'.newError e').2.recode σ := by
    refine ⟨congrArg Ref.mk hsize, ?_⟩
    have hpush := congrArg (fun h : Heap => { h with errors := h.errors.push (e.recode σ) }) hh
    simp only [Heap.recode, Heap.newError, Array.map_push, ← he] at hpush ⊢
    exact hpush
  unfold Heap.envelope
  split
  · exact ⟨rfl, hh⟩
  · obtain ⟨href, hheap⟩ := hnew ⟨fault.raised, fault.category, fault.message, backtraceOf fs⟩
      ⟨fault.raised, fault.category, fault.message, backtraceOf fs'⟩
      (congrArg (Envelope.mk fault.raised fault.category fault.message) hfs)
    exact ⟨congrArg Value.error href, hheap⟩

end FiberMachine
