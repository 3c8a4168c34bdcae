import FiberMachine.Proofs.Ownership.Veil

/-!
# Secrecy of what is not exported

Two worlds that differ only in the values of attributes which a module `A` has not exported go on
alike, as long as neither code of `A` nor a program of the host is executed: the fibers are the same
at every time, with the same frames, faults and results. The only exception is an operator whose
operand is the object of `A` and overloads the operator by such an attribute
(`World.fibers_eq_of_isBlind`).
-/

namespace FiberMachine

variable {A : ModuleId}

/-! ## Heaps -/

theorem Heap.veil_envelope (h : Heap) (frames : List Frame) (fault : Fault) :
    (h.veil A).envelope frames fault =
      ((h.envelope frames fault).1, (h.envelope frames fault).2.veil A) := by
  unfold Heap.envelope
  split <;> rfl

theorem Object.module_setAll {o o' : Object} {fields : List (String × Value)}
    (hok : o.setAll fields = .ok o') : o'.module = o.module := by
  induction fields generalizing o with
  | nil =>
    cases hok
    rfl
  | cons field rest ih =>
    simp only [Object.setAll] at hok
    cases hset : o.set field.1 field.2 none with
    | error fault =>
      rw [hset] at hok
      cases hok
    | ok o₁ =>
      rw [hset] at hok
      exact (ih hok).trans (Object.module_update (u := .set ..) hset)

theorem Heap.veil_assign (h : Heap) (function : Ref .function) (s : Signature) (receiver : Value)
    (args : Arguments) :
    (h.veil A).assign function s receiver args =
      ((h.assign function s receiver args).1, (h.assign function s receiver args).2.veil A) := by
  have hexcess : (h.veil A).collectExcess s args =
      ((h.collectExcess s args).1, (h.collectExcess s args).2.veil A) := by
    unfold collectExcess
    split <;> rfl
  have hothers (h : Heap) : (h.veil A).collectOthers s args =
      ((h.collectOthers s args).1, (h.collectOthers s args).2.veil A) := by
    unfold collectOthers
    split
    · rfl
    · dsimp only
      split
      · rfl
      · rename_i hset
        have hmodule := Object.module_setAll hset
        rw [veil_newObject (Object.veil_of_ne fun heq => ?_)]
        cases hmodule.symm.trans heq
  unfold assign
  split
  · rfl
  · simp only [hexcess, hothers]
    generalize (h.collectExcess s args).2.collectOthers s args = collected
    obtain ⟨_ | others, h'⟩ := collected <;> rfl

theorem Frame.veil_bind (h : Heap) (function : Ref .function) (code : Code)
    (captures : List (Ref .cell)) (scope : Scope) (receiver : Value) (args : Arguments) :
    Frame.bind (h.veil A) function code captures scope receiver args =
      ((Frame.bind h function code captures scope receiver args).1,
        (Frame.bind h function code captures scope receiver args).2.veil A) := by
  simp only [Frame.bind, Heap.veil_assign]
  obtain ⟨result, h'⟩ := h.assign function code.signature receiver args
  cases result <;> rfl

namespace Machine

theorem veil_instantiateAll (id : ModuleId) (h : Heap) (cs : List Constant) :
    instantiateAll id (h.veil A) cs =
      ((instantiateAll id h cs).1, (instantiateAll id h cs).2.veil A) := by
  induction cs generalizing h with
  | nil => rfl
  | cons c rest ih =>
    have hfirst : instantiate id (h.veil A) c =
        ((instantiate id h c).1, (instantiate id h c).2.veil A) := by cases c <;> rfl
    simp only [instantiateAll, hfirst, ih]

theorem veil_declareMethods (id : ModuleId) (self : Ref .object) (h : Heap) (o : Object)
    (methods : List (String × Code)) :
    declareMethods id self (h.veil A) o methods =
      ((declareMethods id self h o methods).1, (declareMethods id self h o methods).2.veil A) := by
  induction methods generalizing h o with
  | nil => rfl
  | cons method rest ih =>
    obtain ⟨name, code⟩ := method
    have hnew (f : FunctionObject) :
        (h.veil A).newFunction f = ((h.newFunction f).1, (h.newFunction f).2.veil A) := rfl
    simp only [declareMethods, hnew]
    split
    · exact ih ..
    · rfl

/-- The methods are declared in an object of the same module. -/
theorem module_declareMethods {id : ModuleId} {self : Ref .object} {h h' : Heap} {o o' : Object}
    {methods : List (String × Code)} (hok : declareMethods id self h o methods = (.ok o', h')) :
    o'.module = o.module := by
  induction methods generalizing h o with
  | nil =>
    cases hok
    rfl
  | cons method rest ih =>
    simp only [declareMethods] at hok
    split at hok
    · rename_i hdeclared
      exact (ih hok).trans (Object.module_update (u := .declareConst ..) hdeclared)
    · cases hok

/-- A new instance belongs to no module. -/
theorem veil_construct (h : Heap) (t : Template) (args : Arguments) :
    construct (h.veil A) t args = ((construct h t args).1, (construct h t args).2.veil A) := by
  have hnew : (h.veil A).newObject {} = ((h.newObject {}).1, (h.newObject {}).2.veil A) :=
    Heap.veil_newObject (Object.veil_of_ne nofun)
  simp only [construct, hnew, veil_declareMethods]
  split
  · rfl
  · generalize hdeclared : declareMethods t.module _ _ _ t.methods = declared
    obtain ⟨_ | o, h'⟩ := declared
    · rfl
    · dsimp only
      cases hset : o.setAll args.keywords.entries with
      | error fault => rfl
      | ok o' =>
        have hmodule : o'.module = none :=
          (Object.module_setAll hset).trans (module_declareMethods hdeclared)
        have hplain : (if t.sealed then o'.close else o').veil A =
            if t.sealed then o'.close else o' := by
          refine Object.veil_of_ne fun heq => ?_
          split at heq
          · cases hmodule.symm.trans heq
          · cases hmodule.symm.trans heq
        dsimp only
        rw [← Heap.veil_setObject, hplain]

/-! ## Machines -/

/-- The machine without the values that `A` has not exported. -/
def veil (A : ModuleId) (m : Machine) : Machine := { m with heap := m.heap.veil A }

variable {m : Machine}

theorem veil_onHeap {α : Type} {f : Heap → α × Heap}
    (h : f (m.heap.veil A) = ((f m.heap).1, (f m.heap).2.veil A)) :
    (m.veil A).onHeap f = ((m.onHeap f).1, (m.onHeap f).2.veil A) := by
  simp only [onHeap, veil, h]

theorem veil_envelope (m : Machine) (frames : List Frame) (fault : Fault) :
    (m.veil A).onHeap (·.envelope frames fault) =
      ((m.onHeap (·.envelope frames fault)).1, (m.onHeap (·.envelope frames fault)).2.veil A) :=
  veil_onHeap (m.heap.veil_envelope frames fault)

/-- The object of a new module has no values. -/
theorem veil_newForModule (h : Heap) (id : ModuleId) :
    (h.veil A).newObject (.forModule id) =
      ((h.newObject (.forModule id)).1, (h.newObject (.forModule id)).2.veil A) := by
  apply Heap.veil_newObject
  unfold Object.veil
  split <;> rfl

theorem veil_register (m : Machine) (linked : LinkedModule) :
    (m.veil A).register linked = ((m.register linked).1, (m.register linked).2.veil A) := by
  simp only [register, onHeap, veil, veil_instantiateAll, veil_newForModule]
  rfl

theorem veil_registerNative (m : Machine) (name : String) :
    (m.veil A).registerNative name =
      ((m.registerNative name).1, (m.registerNative name).2.veil A) := by
  simp only [registerNative, onHeap, veil, veil_newForModule]
  rfl

theorem veil_finishModule (m : Machine) (id : ModuleId) (error : Option Value) :
    (m.veil A).finishModule id error = (m.finishModule id error).veil A := by
  have hstate (s : ModuleState) : (m.veil A).setState id s = (m.setState id s).veil A := rfl
  simp only [finishModule, hstate]
  generalize m.setState id _ = m'
  have hmodule : (m'.veil A).module? id = m'.module? id := rfl
  rw [hmodule]
  cases m'.module? id with
  | none => rfl
  | some entry =>
    refine congrArg Prod.snd (veil_onHeap ?_)
    simp only [Heap.veil_object?]
    cases m'.heap.object? entry.object with
    | none => rfl
    | some o => simp only [Option.map_some, ← Heap.veil_setObject, Object.veil_initialized]

theorem veil_conclude (m : Machine) (continuation : Continuation) (result : Except Value Value) :
    (m.veil A).conclude continuation result =
      ((m.conclude continuation result).1, (m.conclude continuation result).2.veil A) := by
  cases continuation with
  | result => rfl
  | negated => cases result <;> rfl
  | module id object =>
    cases result with
    | error e => simp only [conclude, veil_finishModule]
    | ok value =>
      have hmodule (m' : Machine) : (m'.veil A).module? id = m'.module? id := rfl
      simp only [conclude, veil_finishModule, hmodule]
      split <;> rfl

theorem veil_complete (base : Nat) (m : Machine) (result : Except Value Value)
    (frames : List Frame) :
    complete base (m.veil A) result frames =
      { complete base m result frames with
        machine := (complete base m result frames).machine.veil A } := by
  induction frames generalizing m result with
  | nil => rfl
  | cons top rest ih =>
    unfold complete
    rw [veil_conclude]
    generalize m.conclude top.continuation result = concluded
    obtain ⟨result, m'⟩ := concluded
    dsimp only
    split
    · rfl
    · cases rest with
      | nil => cases result <;> rfl
      | cons frame below =>
        cases result with
        | ok value => rfl
        | error e =>
          dsimp only
          split
          · rfl
          · exact ih m' (.error e)

theorem veil_discard (base : Nat) (m : Machine) (frames : List Frame) :
    discard base (m.veil A) frames =
      ((discard base m frames).1.veil A, (discard base m frames).2) := by
  induction frames generalizing m with
  | nil => rfl
  | cons top rest ih =>
    simp only [discard, veil_envelope, veil_finishModule, ih]
    split
    · rfl
    · cases top.continuation <;> rfl

theorem veil_reaches (m : Machine) (waiter : FiberId) (bound : Nat) (current : FiberId) :
    (m.veil A).reaches waiter bound current = m.reaches waiter bound current := by
  have hblocker (fiber : FiberId) : (m.veil A).blocker? fiber = m.blocker? fiber := rfl
  induction bound generalizing current with
  | zero => rfl
  | succ bound ih => simp only [reaches, hblocker, ih]

theorem veil_wouldDeadlock (m : Machine) (waiter loader : FiberId) :
    (m.veil A).wouldDeadlock waiter loader = m.wouldDeadlock waiter loader := veil_reaches ..

theorem veil_prepareCall (m : Machine) (callable receiver : Value) (args : Arguments) :
    (m.veil A).prepareCall callable receiver args =
      ((m.prepareCall callable receiver args).1,
        (m.prepareCall callable receiver args).2.veil A) := by
  cases callable with
  | function r =>
    have hfunction : (m.veil A).heap.function? r = m.heap.function? r := rfl
    have hscope : (m.veil A).scope? = m.scope? := rfl
    simp only [prepareCall, hfunction, hscope]
    cases m.heap.function? r with
    | none => rfl
    | some f =>
      dsimp only
      cases f.body with
      | native name routine => rfl
      | interpreted code captures =>
        dsimp only
        cases f.module.bind m.scope? with
        | none => rfl
        | some scope =>
          dsimp only
          rw [veil_onHeap (Frame.veil_bind ..)]
          generalize m.onHeap _ = bound
          obtain ⟨_ | frame, m'⟩ := bound <;> rfl
  | template r =>
    have htemplate : (m.veil A).heap.template? r = m.heap.template? r := rfl
    simp only [prepareCall, htemplate]
    cases m.heap.template? r with
    | none => rfl
    | some t =>
      dsimp only
      rw [veil_onHeap (veil_construct ..)]
      generalize m.onHeap _ = constructed
      obtain ⟨_ | value, m'⟩ := constructed <;> rfl
  | _ => rfl

theorem veil_prepareInvoke (m : Machine) (target : Value) (name : String) (args : Arguments)
    {caller : Option ModuleId} (hcaller : caller ≠ some A) :
    (m.veil A).prepareInvoke target name args caller =
      ((m.prepareInvoke target name args caller).1,
        (m.prepareInvoke target name args caller).2.veil A) := by
  have hbuiltin (target : Value) :
      Builtin.call (m.veil A).heap target name args = Builtin.call m.heap target name args := rfl
  cases target with
  | object r =>
    have hobject : (m.veil A).heap.object? r = (m.heap.object? r).map (Object.veil A) :=
      Heap.veil_object? r
    simp only [prepareInvoke, hobject]
    cases m.heap.object? r with
    | none => rfl
    | some o =>
      simp only [Option.map_some, Object.veil_get hcaller]
      cases o.get name caller with
      | ok method => exact veil_prepareCall ..
      | error fault => rfl
  | _ =>
    simp only [prepareInvoke, hbuiltin]
    split
    · rfl
    · rw [veil_onHeap (Heap.veil_realize _)]

end Machine

/-! ## Transitions -/

namespace Context

/-- The fiber on a machine without the values that `A` has not exported. -/
def veil (A : ModuleId) (c : Context) : Context := ⟨c.machine.veil A, c.id, c.fiber⟩

theorem veil_envelope (c : Context) (fault : Fault) :
    (c.veil A).envelope fault = ((c.envelope fault).1, (c.envelope fault).2.veil A) := by
  simp only [envelope, veil, Machine.veil_envelope]

theorem veil_finish (c : Context) (result : Except Fault Value) (caller : Caller) :
    (c.veil A).finish result caller = (c.finish result caller).veil A := by
  unfold finish
  split
  case h_5 => simp only [veil_envelope]; rfl
  all_goals rfl

theorem veil_complete (c : Context) (result : Except Value Value) (base : Nat) (caller : Caller) :
    (c.veil A).complete result base caller = (c.complete result base caller).veil A := by
  obtain ⟨m, id, ⟨frames, meter, deadline, maxDepth, activity⟩⟩ := c
  simp only [complete, veil, Machine.veil_complete]
  generalize Machine.complete base m result frames = unwound
  obtain ⟨m', frames', finished⟩ := unwound
  rcases finished with _ | e | value
  · rfl
  · exact veil_finish ⟨m', id, _⟩ ..
  · rfl

theorem veil_raise (c : Context) (fault : Fault) (base : Nat) (caller : Caller) :
    (c.veil A).raise fault base caller = (c.raise fault base caller).veil A := by
  simp only [raise, veil_envelope]
  generalize c.envelope fault = raised
  obtain ⟨error, ⟨m, id, ⟨frames, meter, deadline, maxDepth, activity⟩⟩⟩ := raised
  cases frames with
  | nil => exact veil_complete ⟨m, id, _⟩ ..
  | cons frame rest =>
    simp only [veil]
    split
    · rfl
    · exact veil_complete ⟨m, id, _⟩ ..

theorem veil_abandon (c : Context) (fault : Fault) (base : Nat) (caller : Caller) :
    (c.veil A).abandon fault base caller = (c.abandon fault base caller).veil A := by
  obtain ⟨m, id, f⟩ := c
  unfold abandon
  split
  · exact veil_finish ..
  · simp only [veil, Machine.veil_discard]
    exact veil_finish ⟨_, id, _⟩ ..

theorem veil_fail (c : Context) (fault : Fault) (base : Nat) (caller : Caller) :
    (c.veil A).fail fault base caller = (c.fail fault base caller).veil A := by
  unfold fail
  split
  · exact veil_abandon ..
  · exact veil_raise ..

theorem veil_deliver (c : Context) (value : Value) (base : Nat) (caller : Caller) :
    (c.veil A).deliver value base caller = (c.deliver value base caller).veil A := by
  obtain ⟨m, id, ⟨frames, meter, deadline, maxDepth, activity⟩⟩ := c
  cases frames with
  | nil =>
    exact veil_raise (A := A) ⟨m, id, ⟨[], meter, deadline, maxDepth, activity⟩⟩
      .invalidInstruction base caller
  | cons frame rest => rfl

theorem veil_enter (c : Context) (frame : Frame) (pending : Pending) :
    (c.veil A).enter frame pending = (c.enter frame pending).veil A := by
  have hfull : (c.veil A).fiber.isFull = c.fiber.isFull := rfl
  cases pending with
  | instruction base negate caller =>
    simp only [enter, hfull]
    split
    · exact veil_raise ..
    · rfl
  | entry caller =>
    simp only [enter, hfull]
    split
    · exact veil_finish ..
    · rfl

theorem veil_proceed (c : Context) (invocation : Machine.Invocation) (pending : Pending) :
    (c.veil A).proceed invocation pending = (c.proceed invocation pending).veil A := by
  cases invocation with
  | enter frame => exact veil_enter ..
  | complete | run | fail => rfl

theorem veil_call (c : Context) (callable receiver : Value) (args : Arguments)
    (pending : Pending) :
    (c.veil A).call callable receiver args pending =
      (c.call callable receiver args pending).veil A := by
  simp only [call, veil, Machine.veil_prepareCall]
  exact veil_proceed ⟨_, c.id, c.fiber⟩ ..

theorem veil_invoke (c : Context) (target : Value) (name : String) (args : Arguments)
    (pending : Pending) (h : c.fiber.currentModule? ≠ some A) :
    (c.veil A).invoke target name args pending =
      (c.invoke target name args pending).veil A := by
  simp only [invoke, veil, Machine.veil_prepareInvoke _ _ _ _ h]
  exact veil_proceed ⟨_, c.id, c.fiber⟩ ..

end Context

/-- The current instruction is an operator that calls an attribute of `A` that is not exported. -/
def Fiber.unveils (A : ModuleId) (h : Heap) (f : Fiber) : Bool :=
  match f.activity with
  | .running .. => f.frames.head?.any fun frame => Local.unveils A ⟨h, frame⟩
  | _ => false

theorem Fiber.veil_unveils (f : Fiber) (h : Heap) :
    f.unveils A (h.veil A) = f.unveils A h := by
  unfold unveils
  split
  · exact congrArg (Option.any · _) (funext fun frame => Local.veil_unveils A ⟨h, frame⟩)
  · rfl

namespace Context

/-- An instruction keeps the module of the top frame. -/
theorem veil_instruct (c : Context) (base : Nat) (caller : Caller)
    (h : c.fiber.currentModule? ≠ some A)
    (hblind : ∀ frame ∈ c.fiber.frames.head?, Local.unveils A ⟨c.machine.heap, frame⟩ = false) :
    (c.veil A).instruct base caller = (c.instruct base caller).veil A := by
  obtain ⟨m, id, ⟨frames, meter, deadline, maxDepth, activity⟩⟩ := c
  cases frames with
  | nil =>
    exact veil_raise (A := A) ⟨m, id, ⟨[], meter, deadline, maxDepth, activity⟩⟩
      .invalidInstruction base caller
  | cons frame rest =>
    have hmodule : frame.scope.module ≠ A := fun heq => h (congrArg some heq)
    have hstep := Exec.step_veil (l := ⟨m.heap, frame⟩) hmodule (hblind frame rfl)
    have hscope := (Exec.keeps_step.same ⟨m.heap, frame⟩).scope
    simp only [Local.veil] at hstep
    simp only [instruct, Machine.onHeap, veil, Machine.veil, hstep]
    generalize Exec.step.run ⟨m.heap, frame⟩ = stepped at hscope
    obtain ⟨action, ⟨heap, frame'⟩⟩ := stepped
    cases action with
    | error fault => exact veil_fail ⟨{ m with heap }, id, _⟩ ..
    | ok action =>
      cases action with
      | next | load => rfl
      | call => exact veil_call ⟨{ m with heap }, id, _⟩ ..
      | invoke =>
        refine veil_invoke ⟨{ m with heap }, id, _⟩ _ _ _ _ fun heq => hmodule ?_
        exact (congrArg Scope.module hscope).symm.trans (Option.some.inj heq)
      | «return» => exact veil_complete ⟨{ m with heap }, id, _⟩ ..

theorem veil_run (c : Context) (base : Nat) (caller : Caller)
    (h : c.fiber.currentModule? ≠ some A)
    (hblind : ∀ frame ∈ c.fiber.frames.head?, Local.unveils A ⟨c.machine.heap, frame⟩ = false) :
    (c.veil A).run base caller = (c.run base caller).veil A := by
  have hmeter : (c.veil A).fiber.meter = c.fiber.meter := rfl
  simp only [run, hmeter]
  cases c.fiber.meter.admit? with
  | none => exact veil_abandon ..
  | some admitted =>
    obtain ⟨meter, charged⟩ := admitted
    let c' : Context := ⟨c.machine, c.id, { c.fiber with meter }⟩
    have hlate : (c'.veil A).isLate = c'.isLate := rfl
    by_cases hheld : charged && c'.isLate
    · exact (if_pos hheld).trans
        ((veil_abandon c'.clearDeadline ..).trans (congrArg (veil A) (if_pos hheld).symm))
    · exact (if_neg hheld).trans
        ((veil_instruct c' base caller h hblind).trans (congrArg (veil A) (if_neg hheld).symm))

theorem veil_start (c : Context) (entry : Entry) (caller : Caller)
    (h : c.fiber.currentModule? ≠ some A) :
    (c.veil A).start entry caller = (c.start entry caller).veil A := by
  cases entry with
  | execute linked limit =>
    cases limit with
    | unrepresentable => rfl
    | unlimited | deadline => simp only [start, veil, Machine.veil_register]
  | load name => rfl
  | call callable receiver args => exact veil_call ..
  | invoke target name args => exact veil_invoke _ _ _ _ _ h
  | resume limit => cases limit <;> rfl

theorem veil_find (c : Context) (name : String) (pending : Pending) :
    (c.veil A).find name pending = (c.find name pending).veil A := by
  have hnames : (c.veil A).machine.names = c.machine.names := rfl
  simp only [find, hnames]
  cases c.machine.names.get? name with
  | some module => rfl
  | none =>
    have hnatives : (c.veil A).machine.natives = c.machine.natives := rfl
    simp only [hnatives]
    split
    · simp only [veil, Machine.veil_registerNative]
      rfl
    · rfl

theorem veil_adopt (c : Context) (name : String)
    (result : Except FinderError (Option LinkedModule)) (pending : Pending) :
    (c.veil A).adopt name result pending = (c.adopt name result pending).veil A := by
  have hnames : (c.veil A).machine.names = c.machine.names := rfl
  unfold adopt
  split
  · rw [hnames]
    cases c.machine.names.get? name with
    | some module => rfl
    | none =>
      simp only [veil, Machine.veil_register]
      rfl
  all_goals rfl

theorem veil_load (c : Context) (module : ModuleId) (entry : ModuleEntry) (object : Bool)
    (pending : Pending) :
    (c.veil A).load module entry object pending = (c.load module entry object pending).veil A := by
  obtain ⟨m, id, f⟩ := c
  have hstate : (m.veil A).setState module (.loading id) =
      (m.setState module (.loading id)).veil A := rfl
  simp only [load, veil, hstate]
  generalize m.setState module (.loading id) = m'
  cases entry.body with
  | none => rfl
  | some code =>
    have hnew (h : Heap) (function : FunctionObject) : (h.veil A).newFunction function =
        ((h.newFunction function).1, (h.newFunction function).2.veil A) := rfl
    dsimp only
    rw [Machine.veil_onHeap (by simp only [hnew, Frame.veil_bind])]
    generalize m'.onHeap _ = bound
    obtain ⟨fault | frame, m''⟩ := bound
    · dsimp only
      rw [show Context.mk (m''.veil A) id f = veil A ⟨m'', id, f⟩ from rfl, veil_envelope]
      generalize envelope ⟨m'', id, f⟩ fault = raised
      simp only [veil, Machine.veil_finishModule]
      rfl
    · exact veil_enter ⟨m'', id, f⟩ ..

theorem veil_enterModule (c : Context) (module : ModuleId) (object : Bool) (pending : Pending) :
    (c.veil A).enterModule module object pending =
      (c.enterModule module object pending).veil A := by
  have hmodule : (c.veil A).machine.module? module = c.machine.module? module := rfl
  simp only [enterModule, hmodule]
  cases c.machine.module? module with
  | none => rfl
  | some entry =>
    dsimp only
    cases entry.state with
    | loaded | failed => rfl
    | registered => exact veil_load ..
    | loading loader =>
      have hid : (c.veil A).id = c.id := rfl
      have hdeadlock : (c.veil A).machine.wouldDeadlock c.id loader =
          c.machine.wouldDeadlock c.id loader := Machine.veil_wouldDeadlock ..
      simp only [hid, hdeadlock]
      split
      · rfl
      · split <;> rfl

theorem veil_wake (c : Context) (module : ModuleId) (object : Bool) (pending : Pending) :
    (c.veil A).wake module object pending = (c.wake module object pending).veil A := by
  have hlate : Context.isLate ⟨(c.machine.veil A).setWait c.id none, c.id, c.fiber⟩ =
      Context.isLate ⟨c.machine.setWait c.id none, c.id, c.fiber⟩ := rfl
  simp only [wake, veil, hlate]
  split <;> rfl

/-- **A transition does the same behind the veil**, if nothing of `A` is executed or unveiled. -/
theorem veil_advance (c : Context) (h : c.fiber.isForeign A)
    (hblind : c.fiber.unveils A c.machine.heap = false) :
    (c.veil A).advance = c.advance.veil A := by
  have hveiled : (c.veil A).fiber.activity = c.fiber.activity := rfl
  unfold Fiber.isForeign at h
  unfold Fiber.unveils at hblind
  simp only [advance, hveiled]
  cases hactivity : c.fiber.activity with
  | idle => rfl
  | running base caller =>
    rw [hactivity] at h hblind
    refine veil_run c base caller (bne_iff_ne.mp h) fun frame hframe => ?_
    rwa [hframe] at hblind
  | program program purpose =>
    rw [hactivity] at h
    cases h
  | finding name pending => exact veil_find ..
  | found name result pending => exact veil_adopt ..
  | entering module object pending => exact veil_enterModule ..
  | waiting module object pending => exact veil_wake ..
  | answered result pending =>
    cases pending with
    | instruction base negate caller =>
      cases result with
      | ok value => exact veil_deliver ..
      | error fault => exact veil_fail ..
    | entry caller => cases result <;> exact veil_finish ..
  | replied outcome caller => cases caller <;> rfl

end Context

/-! ## Histories -/

namespace World

/-- The world without the values that `A` has not exported. -/
def veil (A : ModuleId) (w : World) : World := { w with machine := w.machine.veil A }

/-- A fiber executes an operator that calls an attribute of `A` that is not exported. -/
def unveils (A : ModuleId) (w : World) : Event → Bool
  | .advance id => (w.fiber? id).any (·.unveils A w.machine.heap)
  | _ => false

theorem veil_update (w : World) (id : FiberId) (c : Context) :
    (w.veil A).update id (c.veil A) = (w.update id c).veil A := rfl

theorem veil_failAll (m : Machine) (modules : List ModuleId) :
    failAll (m.veil A) modules = (failAll m modules).veil A := by
  induction modules generalizing m with
  | nil => rfl
  | cons module rest ih =>
    simp only [failAll, Machine.veil_envelope, Machine.veil_finishModule, ih]

/-- An event does the same behind the veil. -/
theorem veil_perform {w : World} {e : Event} (h : w.isForeign A e)
    (hblind : w.unveils A e = false) : (w.veil A).perform e = (w.perform e).veil A := by
  cases e with
  | register linked => simp only [perform, veil, Machine.veil_register]
  | registerNative | relocate | spawn | configure | expire => rfl
  | edit change => cases h
  | drop id =>
    have hmodules : (w.veil A).loadedBy id = w.loadedBy id := rfl
    have hwait : (w.machine.veil A).setWait id none = (w.machine.setWait id none).veil A := rfl
    simp only [perform, World.drop, hmodules]
    simp only [veil, setFiber, hwait, veil_failAll]
  | start id entry =>
    have hfiber : (w.veil A).fiber? id = w.fiber? id := rfl
    simp only [perform, hfiber]
    cases hf : w.fiber? id with
    | none => rfl
    | some fiber =>
      have hmodule : fiber.currentModule? ≠ some A := by
        rw [isForeign, hf] at h
        exact bne_iff_ne.mp h
      dsimp only
      split
      · rw [start_eq_update (w := w.veil A) hf, start_eq_update hf, ← veil_update]
        exact congrArg _ (Context.veil_start ⟨w.machine, id, fiber⟩ entry .host hmodule)
      · rfl
  | advance id =>
    have hfiber : (w.veil A).fiber? id = w.fiber? id := rfl
    cases hf : w.fiber? id with
    | none => simp only [perform, drive, hfiber, hf]
    | some fiber =>
      have hsettled : Context.isSettled ⟨w.machine.veil A, id, fiber⟩ =
          Context.isSettled ⟨w.machine, id, fiber⟩ := rfl
      rw [isForeign, hf] at h
      rw [unveils, hf] at hblind
      simp only [perform, drive_eq_update hf, drive_eq_update (hfiber.trans hf), ← veil_update]
      simp only [Context.drive, veil, hsettled]
      refine congrArg _ ?_
      split
      · rfl
      · exact Context.veil_advance ⟨w.machine, id, fiber⟩ h hblind
  | rouse id =>
    have hfiber : (w.veil A).fiber? id = w.fiber? id := rfl
    simp only [perform, hfiber]
    cases hf : w.fiber? id with
    | none => rfl
    | some fiber =>
      dsimp only
      split
      · rename_i hwaiting
        obtain ⟨module, object, pending, hactivity⟩ := Activity.exists_of_isWaiting hwaiting
        have hunveils : fiber.unveils A w.machine.heap = false := by
          simp only [Fiber.unveils, hactivity]
        rw [← veil_update]
        exact congrArg _ (Context.veil_advance ⟨w.machine, id, fiber⟩
          (Fiber.isForeign_of_isWaiting hwaiting) hunveils)
      · rfl

/-- No event unveils anything. -/
def isBlind (A : ModuleId) : World → List Event → Bool
  | _, [] => true
  | w, e :: events => !w.unveils A e && (w.perform e).isBlind A events

theorem veil_isForeign (w : World) (e : Event) : (w.veil A).isForeign A e = w.isForeign A e := rfl

theorem veil_unveils (w : World) (e : Event) : (w.veil A).unveils A e = w.unveils A e := by
  cases e with
  | advance id =>
    simp only [unveils, veil, Machine.veil, Fiber.veil_unveils]
    rfl
  | _ => rfl

/-- An event keeps two worlds alike. -/
theorem perform_veil_eq {w w' : World} (hveil : w.veil A = w'.veil A) {e : Event}
    (hforeign : w.isForeign A e) (hblind : w.unveils A e = false) :
    (w.perform e).veil A = (w'.perform e).veil A := by
  have hforeign' : w'.isForeign A e := by rwa [← veil_isForeign, ← hveil, veil_isForeign]
  have hblind' : w'.unveils A e = false := by rwa [← veil_unveils, ← hveil, veil_unveils]
  rw [← veil_perform hforeign hblind, ← veil_perform hforeign' hblind', hveil]

theorem run_veil_eq {w w' : World} (hveil : w.veil A = w'.veil A) {events : List Event}
    (hforeign : w.allForeign A events) (hblind : w.isBlind A events) :
    (w.run events).veil A = (w'.run events).veil A := by
  induction events generalizing w w' with
  | nil => exact hveil
  | cons e rest ih =>
    obtain ⟨hfirst, hrest⟩ := (Bool.and_eq_true _ _).mp hforeign
    obtain ⟨hblindFirst, hblindRest⟩ := (Bool.and_eq_true _ _).mp hblind
    exact ih (perform_veil_eq hveil hfirst (by simpa using hblindFirst)) hrest hblindRest

/--
**What is not exported stays secret.** Of two worlds that differ only in the values which `A` has
not exported, foreign code makes worlds that differ only in these, with the same fibers: the same
frames with the same values, the same faults and the same outcomes. Only an operator that is
overloaded by such a value is excepted.
-/
theorem fibers_eq_of_isBlind {w w' : World} (hveil : w.veil A = w'.veil A) {events : List Event}
    (hforeign : w.allForeign A events) (hblind : w.isBlind A events) :
    (w.run events).fibers = (w'.run events).fibers ∧
      (w.run events).veil A = (w'.run events).veil A := by
  have hrun := run_veil_eq hveil hforeign hblind
  exact ⟨(congrArg fibers hrun :), hrun⟩

/-- A module that asks for another one. -/
def asking : LinkedModule where
  name := "a"
  pool := #[.string "b", .code {
    name := none, signature := {}, captures := []
    instructions := #[{ opcode := .loadModule }] }]

/-- A module that does something with the one that asks for it. -/
def prying (instruction : Instruction) : LinkedModule where
  name := "b"
  pool := #[.string "a", .string "neg", .code {
    name := none, signature := {}, captures := []
    instructions := #[{ opcode := .loadModule }, instruction] }]

/-- The first module overloads an operator when the second one is about to be executed. -/
def overloading (instruction : Instruction) (value : Value) : World :=
  perform
    (run {} ([.register asking, .register (prying instruction), .spawn, .start ⟨0⟩ (.load "a")] ++
      List.replicate 5 (.advance ⟨0⟩)))
    (.edit (·.setObject ⟨0⟩ {
      module := some ⟨0⟩, attributes := Dict.empty.insert "neg" { value } }))

theorem veil_overloading (instruction : Instruction) (value value' : Value) :
    (overloading instruction value).veil ⟨0⟩ = (overloading instruction value').veil ⟨0⟩ := by
  simp only [overloading, perform, veil, Machine.veil, ← Heap.veil_setObject]
  rfl

/-- The second module reads the overload. -/
def reading (value : Value) : World := overloading { opcode := .getAttr, operand := 1 } value

/-- The second module uses the operator. -/
def negating (value : Value) : World := overloading { opcode := .negate } value

/-- The second module is executed. -/
def visit : List Event := List.replicate 5 (.advance ⟨0⟩)

/-- A module that reads the overload is refused, whatever its value. -/
theorem fibers_eq_of_reading :
    (reading (.int 1)).veil ⟨0⟩ = (reading .null).veil ⟨0⟩ ∧
    (reading (.int 1)).allForeign ⟨0⟩ visit ∧ (reading (.int 1)).isBlind ⟨0⟩ visit ∧
    ((reading (.int 1)).run visit).fibers = ((reading .null).run visit).fibers ∧
    ∃ f ∈ ((reading (.int 1)).run visit).fiber? ⟨0⟩,
      f.activity matches .replied (.error (.exception _)) .host := by
  have hveil : (reading (.int 1)).veil ⟨0⟩ = (reading .null).veil ⟨0⟩ := veil_overloading ..
  have hforeign : (reading (.int 1)).allForeign ⟨0⟩ visit := by decide +kernel
  have hblind : (reading (.int 1)).isBlind ⟨0⟩ visit := by decide +kernel
  exact ⟨hveil, hforeign, hblind, (fibers_eq_of_isBlind hveil hforeign hblind).1,
    by decide +kernel⟩

/-- A module that uses the operator enters the overload if it is a function, and else fails. -/
theorem frames_of_negating :
    (negating (.function ⟨0⟩)).veil ⟨0⟩ = (negating .null).veil ⟨0⟩ ∧
    (negating (.function ⟨0⟩)).allForeign ⟨0⟩ visit ∧
    (∃ f ∈ ((negating (.function ⟨0⟩)).run visit).fiber? ⟨0⟩,
      f.frames.length = 3 ∧ f.currentModule? = some ⟨0⟩ ∧ f.activity matches .running ..) ∧
    ∃ f ∈ ((negating .null).run visit).fiber? ⟨0⟩,
      f.frames.length = 2 ∧ f.activity matches .answered (.error _) _ :=
  ⟨veil_overloading .., by decide +kernel⟩

end World

end FiberMachine
