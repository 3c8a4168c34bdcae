import FiberMachine.Proofs.Closure.Instruction
import FiberMachine.Proofs.Execution.Slots
import FiberMachine.Proofs.Execution.Unlimited

/-!
# What a transition does to cells

Apart from instructions, no part of a transition makes or changes a cell. A frame keeps its code,
its captured cells and the cells of its slots for as long as it is there, and a new frame has the
cells of the function that it executes (`Context.Retains`).
-/

namespace FiberMachine

/-! ## Heaps -/

theorem Heap.retains_envelope (h : Heap) (frames : List Frame) (fault : Fault) :
    h.Retains (h.envelope frames fault).2 := by
  unfold Heap.envelope
  split
  · exact .refl h
  · exact .of_eq rfl rfl

theorem FunctionObject.captured_of_owned {h : Heap} {f : FunctionObject}
    (hf : f.Owned fun _ _ cells => h.Captured cells) : h.Captured f.captures := by
  cases hbody : f.body with
  | interpreted code cells =>
    rw [FunctionObject.captures, hbody]
    exact hf code cells hbody
  | native name routine =>
    rw [FunctionObject.captures, hbody]
    exact .inl rfl

/-- The change that comes with the result of a builtin method. -/
theorem Builtin.retains_call {h : Heap} {target : Value} {name : String} {args : Arguments}
    {o : Outcome} (ho : Builtin.call h target name args = .ok o) : h.Retains (h.realize o).2 := by
  have howned : h.Owned fun _ _ cells => h.Captured cells := by
    intro f hf code cells hbody
    obtain ⟨i, hi⟩ := Array.mem_iff_getElem?.mp hf
    refine .inr ⟨⟨i⟩, f, hi, ?_⟩
    rw [FunctionObject.captures, hbody]
  have hadds := (Builtin.realizes_call h target name args o ho).functions howned
  refine ⟨by cases o <;> rfl, fun r f hf => ?_, fun r f hf => ?_⟩
  · cases o with
    | newFunction g => exact Heap.function?_newFunction_of_some hf g
    | _ => exact hf
  · exact FunctionObject.captured_of_owned (hadds f (Array.mem_of_getElem? hf))

/-- The frame executes the function in its first slot, and has the cells that it captured. -/
def Frame.Executes (f : Frame) (h : Heap) : Prop :=
  ∃ r g, f.slots[0]? = some (.function r) ∧ h.function? r = some g ∧
    g.body = .interpreted f.code f.captures

/-- A frame that has just been made for a function of the heap. -/
structure Frame.Fresh (f : Frame) (h : Heap) : Prop where
  cells : f.cells = #[]
  executes : f.Executes h

theorem Frame.retains_bind (h : Heap) (function : Ref .function) (code : Code)
    (captures : List (Ref .cell)) (scope : Scope) (receiver : Value) (args : Arguments) :
    h.Retains (Frame.bind h function code captures scope receiver args).2 := by
  rcases Frame.bind_cases h function code captures scope receiver args with
    ⟨fault, -, hbind⟩ | ⟨-, _, _, h', hcollects, -, hbind⟩
  · rw [hbind]
    exact .refl h
  · rw [hbind, hcollects.rest]
    exact .of_eq rfl rfl

theorem Frame.fresh_bind {h h' : Heap} {function : Ref .function} {f : FunctionObject} {code : Code}
    {captures : List (Ref .cell)} {scope : Scope} {receiver : Value} {args : Arguments}
    {frame : Frame} (hf : h.function? function = some f)
    (hbody : f.body = .interpreted code captures)
    (hbind : Frame.bind h function code captures scope receiver args = (.ok frame, h')) :
    frame.Fresh h' := by
  have hretains := Frame.retains_bind h function code captures scope receiver args
  rw [hbind] at hretains
  rcases Frame.bind_cases h function code captures scope receiver args with
    ⟨fault, -, hbound⟩ | ⟨-, _, _, _, hcollects, -, hbound⟩
  · cases hbound.symm.trans hbind
  · cases hbound.symm.trans hbind
    exact ⟨rfl, function, f, hcollects.slot_callable, hretains.functions _ _ hf, hbody⟩

namespace Machine

theorem retains_declareMethods (id : ModuleId) (self : Ref .object) (h : Heap) (o : Object)
    (methods : List (String × Code)) : h.Retains (declareMethods id self h o methods).2 := by
  induction methods generalizing h o with
  | nil => exact .refl h
  | cons method rest ih =>
    simp only [declareMethods]
    have hnew := Heap.Retains.newFunction (h := h) (f := {
      module := some id, receiver := .object self, body := .interpreted method.2 [] }) (.inl rfl)
    split
    · exact hnew.trans (ih ..)
    · exact hnew

theorem retains_construct (h : Heap) (t : Template) (args : Arguments) :
    h.Retains (construct h t args).2 := by
  have hmethods :=
    retains_declareMethods t.module (h.newObject {}).1 (h.newObject {}).2 {} t.methods
  unfold construct
  split
  · exact .refl h
  · dsimp only
    generalize declareMethods t.module _ _ _ t.methods = declared at hmethods
    have hnew : h.Retains (h.newObject {}).2 := .of_eq rfl rfl
    have hdeclared : h.Retains declared.2 := hnew.trans hmethods
    obtain ⟨_ | o, h'⟩ := declared
    · exact hdeclared
    · dsimp only
      split
      · exact hdeclared
      · exact hdeclared.trans (.of_eq rfl rfl)

theorem retains_instantiateAll (id : ModuleId) (h : Heap) (cs : List Constant) :
    h.Retains (instantiateAll id h cs).2 := by
  induction cs generalizing h with
  | nil => exact .refl h
  | cons c rest ih =>
    refine .trans (.of_eq ?_ ?_) (ih (instantiate id h c).2) <;> cases c <;> rfl

/-! ## Machines -/

/-- No cell is made or changed. -/
def Retains (m m' : Machine) : Prop := m.heap.Retains m'.heap

namespace Retains

theorem refl (m : Machine) : m.Retains m := Heap.Retains.refl m.heap

theorem trans {m m' m'' : Machine} (H : m.Retains m') (H' : m'.Retains m'') : m.Retains m'' :=
  Heap.Retains.trans H H'

theorem envelope (m : Machine) (frames : List Frame) (fault : Fault) :
    m.Retains (m.onHeap (·.envelope frames fault)).2 := m.heap.retains_envelope frames fault

theorem register (m : Machine) (linked : LinkedModule) : m.Retains (m.register linked).2 :=
  (retains_instantiateAll ..).trans (.of_eq rfl rfl)

theorem registerNative (m : Machine) (name : String) : m.Retains (m.registerNative name).2 :=
  Heap.Retains.of_eq rfl rfl

theorem finishModule (m : Machine) (id : ModuleId) (error : Option Value) :
    m.Retains (m.finishModule id error) := by
  unfold Machine.finishModule
  dsimp only
  split
  · exact .refl m
  · dsimp only [onHeap]
    split <;> exact Heap.Retains.of_eq rfl rfl

theorem conclude (m : Machine) (continuation : Continuation) (result : Except Value Value) :
    m.Retains (m.conclude continuation result).2 := by
  cases continuation with
  | result => exact .refl m
  | negated => cases result <;> exact .refl m
  | module id object =>
    cases result with
    | error e => exact .finishModule m id (some e)
    | ok value =>
      simp only [Machine.conclude]
      split <;> exact .finishModule m id none

theorem complete (base : Nat) (m : Machine) (result : Except Value Value) (frames : List Frame) :
    m.Retains (Machine.complete base m result frames).machine := by
  induction frames generalizing m result with
  | nil => exact .refl m
  | cons top rest ih =>
    have hconcluded : m.Retains _ := .conclude m top.continuation result
    unfold Machine.complete
    generalize m.conclude top.continuation result = concluded at hconcluded
    obtain ⟨result, m'⟩ := concluded
    dsimp only at hconcluded ⊢
    split
    · exact hconcluded
    · cases rest with
      | nil => cases result <;> exact hconcluded
      | cons frame below =>
        cases result with
        | ok value => exact hconcluded
        | error e =>
          dsimp only
          split
          · exact hconcluded
          · exact hconcluded.trans (ih m' (.error e))

theorem discard (base : Nat) (m : Machine) (frames : List Frame) :
    m.Retains (Machine.discard base m frames).1 := by
  induction frames generalizing m with
  | nil => exact .refl m
  | cons top rest ih =>
    unfold Machine.discard
    split
    · exact .refl m
    · cases top.continuation with
      | result | negated => exact ih m
      | module id object =>
        exact (envelope m rest .moduleFailed).trans ((finishModule ..).trans (ih _))

end Retains

/-- A frame to be entered has just been made. -/
def Invocation.Fresh (h : Heap) : Invocation → Prop
  | .enter frame => frame.Fresh h
  | _ => True

theorem retains_prepareCall (m : Machine) (callable receiver : Value) (args : Arguments) :
    m.Retains (m.prepareCall callable receiver args).2 ∧
      (m.prepareCall callable receiver args).1.Fresh
        (m.prepareCall callable receiver args).2.heap := by
  cases callable with
  | function r =>
    simp only [prepareCall]
    cases hf : m.heap.function? r with
    | none => exact ⟨.refl m, trivial⟩
    | some f =>
      dsimp only
      cases hbody : f.body with
      | native name routine => exact ⟨.refl m, trivial⟩
      | interpreted code captures =>
        dsimp only
        cases f.module.bind m.scope? with
        | none => exact ⟨.refl m, trivial⟩
        | some scope =>
          dsimp only [onHeap]
          generalize hbind : Frame.bind m.heap r code captures scope _ args = bound
          have hretains : m.heap.Retains bound.2 := hbind ▸ Frame.retains_bind ..
          obtain ⟨fault | frame, h'⟩ := bound
          · exact ⟨hretains, trivial⟩
          · exact ⟨hretains, Frame.fresh_bind hf hbody hbind⟩
  | template r =>
    simp only [prepareCall]
    cases m.heap.template? r with
    | none => exact ⟨.refl m, trivial⟩
    | some t =>
      dsimp only [onHeap]
      have hretains := retains_construct m.heap t args
      generalize construct m.heap t args = made at hretains
      obtain ⟨fault | value, h'⟩ := made
      · exact ⟨hretains, trivial⟩
      · exact ⟨hretains, trivial⟩
  | _ => exact ⟨.refl m, trivial⟩

theorem retains_prepareInvoke (m : Machine) (target : Value) (name : String) (args : Arguments)
    (caller : Option ModuleId) :
    m.Retains (m.prepareInvoke target name args caller).2 ∧
      (m.prepareInvoke target name args caller).1.Fresh
        (m.prepareInvoke target name args caller).2.heap := by
  unfold prepareInvoke
  split
  · split
    · exact ⟨.refl m, trivial⟩
    · split
      · exact m.retains_prepareCall ..
      · exact ⟨.refl m, trivial⟩
  · split
    · exact ⟨.refl m, trivial⟩
    · rename_i ho
      exact ⟨Builtin.retains_call ho, trivial⟩

end Machine

/-! ## Frames -/

/-- What a frame has while no instruction of its own is executed. -/
def Frame.tie (f : Frame) : Code × List (Ref .cell) × Array (Option (Ref .cell)) :=
  (f.code, f.captures, f.cells)

theorem Frame.tie_handle {f g : Frame} {e : Value} (h : f.handle? e = some g) : g.tie = f.tie := by
  obtain ⟨handler, -, rfl⟩ := Option.map_eq_some_iff.mp h
  rfl

namespace Machine

theorem tie_complete (base : Nat) (m : Machine) (result : Except Value Value)
    (frames : List Frame) :
    (complete base m result frames).frames.map Frame.tie <:+ frames.map Frame.tie := by
  induction frames generalizing m result with
  | nil => exact List.nil_suffix
  | cons top rest ih =>
    rw [List.map_cons]
    refine .trans ?_ (List.suffix_cons _ _)
    unfold complete
    generalize m.conclude top.continuation result = concluded
    obtain ⟨result, m'⟩ := concluded
    dsimp only
    split
    · exact List.suffix_rfl
    · cases rest with
      | nil => cases result <;> exact List.suffix_rfl
      | cons frame below =>
        cases result with
        | ok value => exact List.suffix_rfl
        | error e =>
          dsimp only
          split
          · rename_i frame' hhandle
            exact ⟨[], congrArg (· :: below.map Frame.tie) (Frame.tie_handle hhandle)⟩
          · exact ih m' (.error e)

theorem suffix_discard (base : Nat) (m : Machine) (frames : List Frame) :
    (discard base m frames).2 <:+ frames := by
  induction frames generalizing m with
  | nil => exact List.suffix_rfl
  | cons top rest ih =>
    unfold discard
    split
    · exact List.suffix_rfl
    · cases top.continuation with
      | result | negated => exact (ih m).trans (List.suffix_cons top rest)
      | module id object => exact (ih _).trans (List.suffix_cons top rest)

end Machine

/-! ## Transitions -/

namespace Context

/--
No cell is made or changed. The frames that are left have what they had, and there may be a new one
on top of all of them.
-/
structure Retains (c c' : Context) : Prop where
  machine : c.machine.Retains c'.machine
  frames : c'.fiber.frames.map Frame.tie <:+ c.fiber.frames.map Frame.tie ∨
    ∃ frame rest, c'.fiber.frames = frame :: rest ∧
      rest.map Frame.tie = c.fiber.frames.map Frame.tie ∧ frame.Fresh c'.machine.heap

namespace Retains

/-- The frames stay. -/
theorem of_machine {c c' : Context} (hmachine : c.machine.Retains c'.machine)
    (hframes : c'.fiber.frames = c.fiber.frames) : c.Retains c' :=
  ⟨hmachine, .inl (hframes ▸ List.suffix_rfl)⟩

theorem refl (c : Context) : c.Retains c := of_machine (.refl c.machine) rfl

/-- A change of the machine that comes before. -/
theorem after {c c' c'' : Context} (H : c'.Retains c'')
    (hmachine : c.machine.Retains c'.machine) (hframes : c'.fiber.frames = c.fiber.frames) :
    c.Retains c'' :=
  ⟨hmachine.trans H.machine, hframes ▸ H.frames⟩

theorem finish (c : Context) (result : Except Fault Value) (caller : Caller) :
    c.Retains (c.finish result caller) := by
  unfold Context.finish
  split
  -- Only a fault that becomes an error changes the machine.
  case h_5 => exact of_machine (.envelope ..) rfl
  all_goals exact of_machine (.refl c.machine) rfl

/-- The end of an entry after some frames were left. -/
theorem of_finish {c c' : Context} (hmachine : c.machine.Retains c'.machine)
    (hframes : c'.fiber.frames.map Frame.tie <:+ c.fiber.frames.map Frame.tie)
    (result : Except Fault Value) (caller : Caller) : c.Retains (c'.finish result caller) := by
  refine ⟨hmachine.trans (finish c' result caller).machine, .inl ?_⟩
  rw [frames_finish]
  exact hframes

theorem complete (c : Context) (result : Except Value Value) (base : Nat) (caller : Caller) :
    c.Retains (c.complete result base caller) := by
  obtain ⟨m, id, ⟨frames, meter, deadline, maxDepth, activity⟩⟩ := c
  have hmachine : m.Retains _ := .complete base m result frames
  have hframes := Machine.tie_complete base m result frames
  unfold Context.complete
  dsimp only
  generalize Machine.complete base m result frames = unwound at hmachine hframes
  obtain ⟨m', frames', finished⟩ := unwound
  rcases finished with _ | e | value
  · exact ⟨hmachine, .inl hframes⟩
  · exact of_finish hmachine hframes ..
  · exact of_finish hmachine hframes ..

theorem raise (c : Context) (fault : Fault) (base : Nat) (caller : Caller) :
    c.Retains (c.raise fault base caller) := by
  obtain ⟨m, id, ⟨frames, meter, deadline, maxDepth, activity⟩⟩ := c
  have henvelope : m.Retains _ := .envelope m frames fault
  unfold Context.raise
  dsimp only [Context.envelope]
  cases frames with
  | nil => exact (Retains.complete ..).after henvelope rfl
  | cons frame rest =>
    dsimp only
    split
    · rename_i frame' hhandle
      refine ⟨henvelope, .inl ?_⟩
      exact ⟨[], congrArg (· :: rest.map Frame.tie) (Frame.tie_handle hhandle)⟩
    · exact (Retains.complete ..).after henvelope rfl

theorem abandon (c : Context) (fault : Fault) (base : Nat) (caller : Caller) :
    c.Retains (c.abandon fault base caller) := by
  unfold Context.abandon
  split
  · exact .finish ..
  · exact of_finish (.discard base c.machine c.fiber.frames)
      ((Machine.suffix_discard base c.machine c.fiber.frames).map Frame.tie) ..

theorem fail (c : Context) (fault : Fault) (base : Nat) (caller : Caller) :
    c.Retains (c.fail fault base caller) := by
  unfold Context.fail
  split
  · exact .abandon ..
  · exact .raise ..

theorem deliver (c : Context) (value : Value) (base : Nat) (caller : Caller) :
    c.Retains (c.deliver value base caller) := by
  unfold Context.deliver
  split
  · exact ⟨.refl _, .inl List.suffix_rfl⟩
  · exact .raise ..

theorem enter {c : Context} {frame : Frame} (h : frame.Fresh c.machine.heap) (pending : Pending) :
    c.Retains (c.enter frame pending) := by
  unfold Context.enter
  split
  · rename_i negate _
    split
    · exact .raise ..
    · refine ⟨.refl _, .inr ⟨_, _, rfl, rfl, ?_⟩⟩
      cases negate
      · exact h
      · exact ⟨h.cells, h.executes⟩
  · split
    · exact .finish ..
    · exact ⟨.refl _, .inr ⟨_, _, rfl, rfl, h⟩⟩

theorem proceed {c : Context} {invocation : Machine.Invocation}
    (h : invocation.Fresh c.machine.heap) (pending : Pending) :
    c.Retains (c.proceed invocation pending) := by
  cases invocation with
  | enter frame => exact .enter h pending
  | complete | run | fail => exact of_machine (.refl c.machine) rfl

theorem call (c : Context) (callable receiver : Value) (args : Arguments) (pending : Pending) :
    c.Retains (c.call callable receiver args pending) := by
  obtain ⟨hmachine, hfresh⟩ := c.machine.retains_prepareCall callable receiver args
  exact (proceed (c := ⟨_, c.id, c.fiber⟩) hfresh pending).after hmachine rfl

theorem invoke (c : Context) (target : Value) (name : String) (args : Arguments)
    (pending : Pending) : c.Retains (c.invoke target name args pending) := by
  obtain ⟨hmachine, hfresh⟩ :=
    c.machine.retains_prepareInvoke target name args c.fiber.currentModule?
  exact (proceed (c := ⟨_, c.id, c.fiber⟩) hfresh pending).after hmachine rfl

theorem start (c : Context) (entry : Entry) (caller : Caller) :
    c.Retains (c.start entry caller) := by
  unfold Context.start
  split
  · exact of_machine (.refl _) rfl
  · exact of_machine (.refl _) rfl
  · exact of_machine (.register ..) rfl
  · exact of_machine (.refl _) rfl
  · exact .call ..
  · exact .invoke ..
  · exact of_machine (.refl _) rfl

theorem step (c : Context) (program : Program) (purpose : Purpose) :
    c.Retains (c.step program purpose) := by
  cases program with
  | finish result =>
    cases purpose with
    | call pending => exact of_machine (.refl _) rfl
    | load module pending =>
      cases result with
      | ok value => exact of_machine (.finishModule c.machine module none) rfl
      | error fault =>
        let raised := c.envelope (if fault.isFatal then .moduleFailed else fault)
        have hraised : c.machine.Retains raised.2.machine := .envelope ..
        exact of_machine (hraised.trans (.finishModule raised.2.machine module (some raised.1))) rfl
  | enter entry next => exact .start ..
  | newArray | newObject => exact of_machine (Heap.Retains.of_eq rfl rfl) rfl
  | newFunction name module routine next =>
    exact of_machine (Heap.Retains.newFunction (.inl rfl)) rfl
  | update target update next =>
    unfold Context.step
    dsimp only
    split
    · exact of_machine (.refl _) rfl
    · exact of_machine (Heap.Retains.of_eq rfl rfl) rfl
  | read target next | backtrace next => exact of_machine (.refl _) rfl
  | configure setting next => exact of_machine (.refl _) (by cases setting <;> rfl)

theorem find (c : Context) (name : String) (pending : Pending) :
    c.Retains (c.find name pending) := by
  unfold Context.find
  split
  · exact of_machine (.refl _) rfl
  · dsimp only
    split
    · exact of_machine (.registerNative ..) rfl
    · exact of_machine (.refl _) rfl

theorem adopt (c : Context) (name : String) (result : Except FinderError (Option LinkedModule))
    (pending : Pending) : c.Retains (c.adopt name result pending) := by
  unfold Context.adopt
  split
  · split
    · exact of_machine (.refl _) rfl
    · exact of_machine (.register ..) rfl
  all_goals exact of_machine (.refl _) rfl

theorem load (c : Context) (module : ModuleId) (entry : ModuleEntry) (object : Bool)
    (pending : Pending) : c.Retains (c.load module entry object pending) := by
  unfold Context.load
  cases entry.body with
  | none => exact of_machine (.refl _) rfl
  | some code =>
    let function : FunctionObject :=
      { module := some module, receiver := .object entry.object, body := .interpreted code [] }
    have hnew : c.machine.heap.Retains (c.machine.heap.newFunction function).2 :=
      .newFunction (.inl rfl)
    dsimp only [Machine.onHeap]
    generalize hbind : Frame.bind _ _ code _ _ _ _ = bound
    have hbound : (c.machine.heap.newFunction function).2.Retains bound.2 :=
      hbind ▸ Frame.retains_bind ..
    obtain ⟨result, heap⟩ := bound
    let loading : Context :=
      ⟨{ c.machine.setState module (.loading c.id) with heap }, c.id, c.fiber⟩
    cases result with
    | error fault =>
      let raised := loading.envelope fault
      have hraised : c.machine.Retains raised.2.machine :=
        (hnew.trans hbound).trans (heap.retains_envelope c.fiber.frames fault)
      exact of_machine (hraised.trans (.finishModule raised.2.machine module (some raised.1))) rfl
    | ok frame =>
      have hfresh := Frame.fresh_bind (Heap.function?_newFunction_self function) rfl hbind
      have hframe : Frame.Fresh { frame with continuation := .module module object } heap :=
        ⟨hfresh.cells, hfresh.executes⟩
      exact (enter (c := loading) hframe pending).after (hnew.trans hbound) rfl

theorem enterModule (c : Context) (module : ModuleId) (object : Bool) (pending : Pending) :
    c.Retains (c.enterModule module object pending) := by
  unfold Context.enterModule
  split
  · exact of_machine (.refl _) rfl
  · split
    · exact of_machine (.refl _) rfl
    · exact of_machine (.refl _) rfl
    · split
      · exact of_machine (.refl _) rfl
      · split <;> exact of_machine (.refl _) rfl
    · exact .load ..

theorem wake (c : Context) (module : ModuleId) (object : Bool) (pending : Pending) :
    c.Retains (c.wake module object pending) := by
  unfold Context.wake
  dsimp only
  split <;> exact of_machine (.refl _) rfl

end Retains

/-! ## Transitions that execute an instruction -/

/-- The context after the current instruction of the top frame has led to `l`. -/
def woven (c : Context) (l : Local) (rest : List Frame) : Context :=
  ⟨{ c.machine with heap := l.heap }, c.id, { c.fiber with frames := l.frame :: rest }⟩

theorem retains_instruct {c : Context} {top : Frame} {rest : List Frame}
    (h : c.fiber.frames = top :: rest) (base : Nat) (caller : Caller) :
    (c.woven (Exec.step.run ⟨c.machine.heap, top⟩).2 rest).Retains (c.instruct base caller) := by
  obtain ⟨m, id, ⟨frames, meter, deadline, maxDepth, activity⟩⟩ := c
  cases h
  simp only [Context.instruct, Machine.onHeap, woven]
  generalize Exec.step.run ⟨m.heap, top⟩ = stepped
  obtain ⟨action, ⟨heap, frame⟩⟩ := stepped
  cases action with
  | error fault => exact .fail ..
  | ok action =>
    cases action with
    | next => exact .refl _
    | load name => exact .of_machine (.refl _) rfl
    | call => exact .call ..
    | invoke => exact .invoke ..
    | «return» => exact .complete ..

/-- An instruction that leads on to the next one is all that its transition does. -/
theorem instruct_of_next {c : Context} {top : Frame} {rest : List Frame} {l : Local}
    (h : c.fiber.frames = top :: rest)
    (hnext : Exec.step.run ⟨c.machine.heap, top⟩ = (.ok .next, l)) (base : Nat) (caller : Caller) :
    c.instruct base caller = c.woven l rest := by
  obtain ⟨m, id, ⟨frames, meter, deadline, maxDepth, activity⟩⟩ := c
  cases h
  simp only [Context.instruct, Machine.onHeap, woven]
  rw [hnext]

end Context

/-- The instruction that the fiber executes in its next transition, of its top frame. -/
def Fiber.executes? (f : Fiber) : Option Instruction :=
  match f.activity, f.frames with
  | .running _ _, top :: _ => if f.isHeldUp then none else top.code.instructions[top.instruction]?
  | _, _ => none

theorem Fiber.frames_of_executes? {f : Fiber} {i : Instruction} (h : f.executes? = some i) :
    ∃ top rest, f.frames = top :: rest ∧ top.code.instructions[top.instruction]? = some i := by
  obtain ⟨frames, meter, deadline, maxDepth, activity⟩ := f
  cases activity with
  | running base caller =>
    cases frames with
    | nil => cases h
    | cons top rest =>
      simp only [executes?] at h
      split at h
      · cases h
      · exact ⟨top, rest, rfl, h⟩
  | _ => cases h

namespace Context

/-- An instruction is executed once it is charged for. -/
theorem run_of_executes {c : Context} {base : Nat} {caller : Caller} {top : Frame}
    {rest : List Frame} {i : Instruction} (hactivity : c.fiber.activity = .running base caller)
    (h : c.fiber.frames = top :: rest) (hi : c.fiber.executes? = some i) :
    ∃ meter, c.run base caller =
      instruct ⟨c.machine, c.id, { c.fiber with meter }⟩ base caller := by
  simp only [Fiber.executes?, hactivity, h] at hi
  split at hi
  · cases hi
  · rename_i hheld
    simp only [Fiber.isHeldUp] at hheld
    unfold Context.run
    cases hmeter : c.fiber.meter.admit? with
    | none => simp [hmeter] at hheld
    | some admitted =>
      obtain ⟨meter, charged⟩ := admitted
      simp only [hmeter] at hheld
      exact ⟨meter, if_neg hheld⟩

theorem retains_run_of_not_executes {c : Context} {base : Nat} {caller : Caller}
    (hactivity : c.fiber.activity = .running base caller) (hi : c.fiber.executes? = none) :
    c.Retains (c.run base caller) := by
  unfold Context.run
  cases hmeter : c.fiber.meter.admit? with
  | none => exact .abandon ..
  | some admitted =>
    obtain ⟨meter, charged⟩ := admitted
    dsimp only
    split
    · exact (Retains.abandon ..).after (.refl _) rfl
    · rename_i hlate
      obtain ⟨m, id, ⟨frames, meter', deadline, maxDepth, activity⟩⟩ := c
      cases frames with
      | nil =>
        let charged : Context := ⟨m, id, ⟨[], meter, deadline, maxDepth, activity⟩⟩
        exact (Retains.raise charged .invalidInstruction base caller).after (.refl _) rfl
      | cons top rest =>
        -- past the last instruction the frame returns as it is
        have hnone : top.code.instructions[top.instruction]? = none := by
          cases hactivity
          simp only [Fiber.executes?, Fiber.isHeldUp, hmeter] at hi
          exact (if_neg hlate).symm.trans hi
        let charged : Context := ⟨m, id, ⟨top :: rest, meter, deadline, maxDepth, activity⟩⟩
        have hstep := retains_instruct (c := charged) rfl base caller
        rw [Exec.step_of_none hnone] at hstep
        exact hstep.after (.refl _) rfl

/-- A transition does nothing to cells but what its instruction does. -/
theorem retains_advance {c : Context} (hi : c.fiber.executes? = none) : c.Retains c.advance := by
  unfold Context.advance
  cases hactivity : c.fiber.activity with
  | idle => exact .refl c
  | running base caller => exact retains_run_of_not_executes hactivity hi
  | program program purpose => exact .step ..
  | finding name pending => exact .find ..
  | found name result pending => exact .adopt ..
  | entering module object pending => exact .enterModule ..
  | waiting module object pending => exact .wake ..
  | answered result pending =>
    cases pending with
    | instruction base negate caller =>
      cases result with
      | ok value => exact .deliver ..
      | error fault => exact .fail ..
    | entry caller => cases result <;> exact .finish ..
  | replied outcome caller => cases caller <;> exact .of_machine (.refl _) rfl

/-- What a transition that executes an instruction does after it. -/
theorem retains_advance_of_executes {c : Context} {top : Frame} {rest : List Frame}
    {i : Instruction} (h : c.fiber.frames = top :: rest) (hi : c.fiber.executes? = some i) :
    (c.woven (Exec.step.run ⟨c.machine.heap, top⟩).2 rest).Retains c.advance ∧
      ∀ l, Exec.step.run ⟨c.machine.heap, top⟩ = (.ok .next, l) →
        c.advance.machine = { c.machine with heap := l.heap } ∧
          c.advance.fiber.frames = l.frame :: rest := by
  cases hactivity : c.fiber.activity with
  | running base caller =>
    obtain ⟨meter, hrun⟩ := run_of_executes hactivity h hi
    let charged : Context := ⟨c.machine, c.id, { c.fiber with meter }⟩
    have hadvance : c.advance = charged.instruct base caller := by
      rw [Context.advance, hactivity]
      exact hrun
    rw [hadvance]
    refine ⟨(retains_instruct (c := charged) h base caller).after (.refl _) rfl, fun l hl => ?_⟩
    rw [instruct_of_next (c := charged) h hl]
    exact ⟨rfl, rfl⟩
  | _ =>
    simp only [Fiber.executes?, hactivity] at hi
    cases hi

end Context

end FiberMachine
