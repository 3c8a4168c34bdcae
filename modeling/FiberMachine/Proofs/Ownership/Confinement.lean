import FiberMachine.Proofs.Execution.Slots
import FiberMachine.Proofs.Ownership.Object
import FiberMachine.Proofs.World.History

/-!
# Confinement of foreign code

Along every sequence of events in which neither code of a module nor a program of the host is
executed, the module's object changes only as foreign code may change it
(`World.confined_run`): it has the same names, what is not exported stays, and so do the flags that
say what is exported and what is locked.
-/

namespace FiberMachine

variable {A : ModuleId}

/-! ## Heaps -/

theorem Heap.confined_envelope (h : Heap) (frames : List Frame) (fault : Fault) :
    h.Confined A (h.envelope frames fault).2 := by
  unfold Heap.envelope
  split
  · exact .refl h
  · exact .of_objects rfl

theorem Frame.confined_bind (h : Heap) (function : Ref .function) (code : Code)
    (captures : List (Ref .cell)) (scope : Scope) (receiver : Value) (args : Arguments) :
    h.Confined A (Frame.bind h function code captures scope receiver args).2 := by
  rcases Frame.bind_cases h function code captures scope receiver args with
    ⟨fault, -, hbind⟩ | ⟨-, _, _, h', hcollects, -, hbind⟩
  · rw [hbind]
    exact .refl h
  · rw [hbind]
    exact .of_kept hcollects.objects

namespace Machine

theorem objects_declareMethods (id : ModuleId) (self : Ref .object) (h : Heap) (o : Object)
    (methods : List (String × Code)) :
    (declareMethods id self h o methods).2.objects = h.objects := by
  induction methods generalizing h o with
  | nil => rfl
  | cons method rest ih =>
    simp only [declareMethods]
    split
    · exact ih ..
    · rfl

/-- A new instance takes the place of no object that there was. -/
theorem confined_construct (h : Heap) (t : Template) (args : Arguments) :
    h.Confined A (construct h t args).2 := by
  have hmethods :=
    objects_declareMethods t.module (h.newObject {}).1 (h.newObject {}).2 {} t.methods
  unfold construct
  split
  · exact .refl h
  · dsimp only
    generalize declareMethods t.module _ _ _ t.methods = declared at hmethods
    have hdeclared : h.Confined A declared.2 :=
      (h.confined_newObject {}).trans (.of_objects hmethods)
    obtain ⟨_ | o, h'⟩ := declared
    · exact hdeclared
    · dsimp only
      split
      · exact hdeclared
      · refine hdeclared.trans (Heap.confined_setObject fun o' ho' hA => ?_)
        have hfresh : o' = {} := by
          rw [Heap.object?, hmethods] at ho'
          simpa [Heap.newObject] using ho'.symm
        subst hfresh
        cases hA

theorem objects_instantiateAll (id : ModuleId) (h : Heap) (cs : List Constant) :
    (instantiateAll id h cs).2.objects = h.objects := by
  induction cs generalizing h with
  | nil => rfl
  | cons c rest ih =>
    refine (ih (instantiate id h c).2).trans ?_
    cases c <;> rfl

/-! ## Machines -/

/-- The objects of `A` have become what foreign code may make of them. -/
def Confined (A : ModuleId) (m m' : Machine) : Prop := m.heap.Confined A m'.heap

namespace Confined

theorem refl (m : Machine) : m.Confined A m := Heap.Confined.refl m.heap

theorem trans {m m' m'' : Machine} (H : m.Confined A m') (H' : m'.Confined A m'') :
    m.Confined A m'' := Heap.Confined.trans H H'

theorem envelope (m : Machine) (frames : List Frame) (fault : Fault) :
    m.Confined A (m.onHeap (·.envelope frames fault)).2 := m.heap.confined_envelope frames fault

theorem register (m : Machine) (linked : LinkedModule) : m.Confined A (m.register linked).2 := by
  refine Heap.Confined.trans (.of_objects ?_) (Heap.confined_newObject ..)
  exact objects_instantiateAll ..

theorem registerNative (m : Machine) (name : String) : m.Confined A (m.registerNative name).2 :=
  m.heap.confined_newObject _

theorem finishModule (m : Machine) (id : ModuleId) (error : Option Value) :
    m.Confined A (m.finishModule id error) := by
  unfold Machine.finishModule
  dsimp only
  split
  · exact .refl m
  · dsimp only [onHeap]
    split
    · rename_i o ho
      refine Heap.confined_setObject fun o' ho' _ => ?_
      cases Option.some.inj (ho.symm.trans ho')
      exact o.confined_initialized
    · exact .refl m

theorem conclude (m : Machine) (continuation : Continuation) (result : Except Value Value) :
    m.Confined A (m.conclude continuation result).2 := by
  cases continuation with
  | result => exact .refl m
  | negated => cases result <;> exact .refl m
  | module id object =>
    cases result with
    | error e => exact .finishModule m id (some e)
    | ok value =>
      simp only [Machine.conclude]
      split <;> exact .finishModule m id none

theorem complete (base : Nat) (m : Machine) (result : Except Value Value) (frames : List Frame) :
    m.Confined A (Machine.complete base m result frames).machine := by
  induction frames generalizing m result with
  | nil => exact .refl m
  | cons top rest ih =>
    have hconcluded : m.Confined A _ := .conclude m top.continuation result
    unfold Machine.complete
    generalize m.conclude top.continuation result = concluded at hconcluded
    obtain ⟨result, m'⟩ := concluded
    dsimp only at hconcluded ⊢
    split
    · exact hconcluded
    · cases rest with
      | nil => cases result <;> exact hconcluded
      | cons frame below =>
        cases result with
        | ok value => exact hconcluded
        | error e =>
          dsimp only
          split
          · exact hconcluded
          · exact hconcluded.trans (ih m' (.error e))

theorem discard (base : Nat) (m : Machine) (frames : List Frame) :
    m.Confined A (Machine.discard base m frames).1 := by
  induction frames generalizing m with
  | nil => exact .refl m
  | cons top rest ih =>
    unfold Machine.discard
    split
    · exact .refl m
    · cases top.continuation with
      | result | negated => exact ih m
      | module id object =>
        exact (envelope m rest .moduleFailed).trans ((finishModule ..).trans (ih _))

theorem prepareCall (m : Machine) (callable receiver : Value) (args : Arguments) :
    m.Confined A (m.prepareCall callable receiver args).2 := by
  cases callable with
  | function r =>
    simp only [Machine.prepareCall]
    cases m.heap.function? r with
    | none => exact .refl m
    | some f =>
      dsimp only
      cases f.body with
      | native name routine => exact .refl m
      | interpreted code captures =>
        dsimp only
        cases f.module.bind m.scope? with
        | none => exact .refl m
        | some scope =>
          dsimp only [onHeap]
          split <;> (rename_i h; obtain ⟨_, rfl⟩ := Prod.mk.inj h; exact Frame.confined_bind ..)
  | template r =>
    simp only [Machine.prepareCall]
    cases m.heap.template? r with
    | none => exact .refl m
    | some t =>
      dsimp only [onHeap]
      split <;> (rename_i h; obtain ⟨_, rfl⟩ := Prod.mk.inj h; exact confined_construct ..)
  | _ => exact .refl m

theorem prepareInvoke (m : Machine) (target : Value) (name : String) (args : Arguments)
    (caller : Option ModuleId) : m.Confined A (m.prepareInvoke target name args caller).2 := by
  unfold Machine.prepareInvoke
  split
  · split
    · exact .refl m
    · split
      · exact .prepareCall m ..
      · exact .refl m
  · split
    · exact .refl m
    · exact m.heap.confined_realize _

end Confined

end Machine

/-! ## Transitions -/

/-- Neither code of `A` nor a program of the host is executed next. -/
def Fiber.isForeign (A : ModuleId) (f : Fiber) : Bool :=
  match f.activity with
  | .running .. => f.currentModule? != some A
  | .program .. => false
  | _ => true

theorem Fiber.isForeign_of_isWaiting {f : Fiber} (h : f.activity.isWaiting) : f.isForeign A := by
  obtain ⟨id, object, pending, hactivity⟩ := Activity.exists_of_isWaiting h
  simp only [Fiber.isForeign, hactivity]

namespace Context

/-- The objects of `A` have become what foreign code may make of them. -/
def Confined (A : ModuleId) (c c' : Context) : Prop := c.machine.Confined A c'.machine

namespace Confined

theorem refl (c : Context) : c.Confined A c := Machine.Confined.refl c.machine

/-- A change of the machine that comes before. -/
theorem after {c c' c'' : Context} (H : c'.Confined A c'')
    (hmachine : c.machine.Confined A c'.machine) : c.Confined A c'' := hmachine.trans H

theorem finish (c : Context) (result : Except Fault Value) (caller : Caller) :
    c.Confined A (c.finish result caller) := by
  unfold Context.finish
  split
  -- Only a fault that becomes an error changes the machine.
  case h_5 => exact Machine.Confined.envelope ..
  all_goals exact .refl c

theorem complete (c : Context) (result : Except Value Value) (base : Nat) (caller : Caller) :
    c.Confined A (c.complete result base caller) := by
  obtain ⟨m, id, ⟨frames, meter, deadline, maxDepth, activity⟩⟩ := c
  have hcomplete : m.Confined A _ := .complete base m result frames
  unfold Context.complete
  dsimp only
  generalize Machine.complete base m result frames = unwound at hcomplete
  obtain ⟨m', frames', finished⟩ := unwound
  rcases finished with _ | e | value
  · exact hcomplete
  · exact (Confined.finish ..).after hcomplete
  · exact (Confined.finish ..).after hcomplete

theorem raise (c : Context) (fault : Fault) (base : Nat) (caller : Caller) :
    c.Confined A (c.raise fault base caller) := by
  obtain ⟨m, id, ⟨frames, meter, deadline, maxDepth, activity⟩⟩ := c
  have henvelope : m.Confined A _ := .envelope m frames fault
  unfold Context.raise
  dsimp only [Context.envelope]
  cases frames with
  | nil => exact (Confined.complete ..).after henvelope
  | cons frame rest =>
    dsimp only
    split
    · exact henvelope
    · exact (Confined.complete ..).after henvelope

theorem abandon (c : Context) (fault : Fault) (base : Nat) (caller : Caller) :
    c.Confined A (c.abandon fault base caller) := by
  unfold Context.abandon
  split
  · exact .finish ..
  · exact (Confined.finish ..).after (.discard base c.machine c.fiber.frames)

theorem fail (c : Context) (fault : Fault) (base : Nat) (caller : Caller) :
    c.Confined A (c.fail fault base caller) := by
  unfold Context.fail
  split
  · exact .abandon ..
  · exact .raise ..

theorem deliver (c : Context) (value : Value) (base : Nat) (caller : Caller) :
    c.Confined A (c.deliver value base caller) := by
  unfold Context.deliver
  split
  · exact .refl _
  · exact .raise ..

theorem enter (c : Context) (frame : Frame) (pending : Pending) :
    c.Confined A (c.enter frame pending) := by
  unfold Context.enter
  split
  · split
    · exact .raise ..
    · exact .refl c
  · split
    · exact .finish ..
    · exact .refl c

theorem proceed (c : Context) (invocation : Machine.Invocation) (pending : Pending) :
    c.Confined A (c.proceed invocation pending) := by
  cases invocation with
  | enter frame => exact .enter ..
  | complete | run | fail => exact .refl c

theorem call (c : Context) (callable receiver : Value) (args : Arguments) (pending : Pending) :
    c.Confined A (c.call callable receiver args pending) :=
  (Confined.proceed ..).after (.prepareCall ..)

theorem invoke (c : Context) (target : Value) (name : String) (args : Arguments)
    (pending : Pending) : c.Confined A (c.invoke target name args pending) :=
  (Confined.proceed ..).after (.prepareInvoke ..)

theorem instruct (c : Context) (base : Nat) (caller : Caller)
    (h : c.fiber.currentModule? ≠ some A) : c.Confined A (c.instruct base caller) := by
  obtain ⟨m, id, ⟨frames, meter, deadline, maxDepth, activity⟩⟩ := c
  cases frames with
  | nil => exact .raise ..
  | cons frame rest =>
    have hmodule : frame.scope.module ≠ A := fun heq => h (congrArg some heq)
    have hstep := (Exec.confined_step.run ⟨m.heap, frame⟩ hmodule).2
    simp only [Context.instruct, Machine.onHeap]
    generalize Exec.step.run ⟨m.heap, frame⟩ = stepped at hstep
    obtain ⟨action, ⟨heap, frame'⟩⟩ := stepped
    cases action with
    | error fault => exact (Confined.fail ..).after hstep
    | ok action =>
      cases action with
      | next | load => exact hstep
      | call => exact (Confined.call ..).after hstep
      | invoke => exact (Confined.invoke ..).after hstep
      | «return» => exact (Confined.complete ..).after hstep

theorem run (c : Context) (base : Nat) (caller : Caller)
    (h : c.fiber.currentModule? ≠ some A) : c.Confined A (c.run base caller) := by
  unfold Context.run
  split
  · exact .abandon ..
  · rename_i meter charged _
    dsimp only
    split
    · exact (Confined.abandon ..).after (.refl _)
    · exact .instruct ⟨c.machine, c.id, { c.fiber with meter }⟩ base caller h

theorem start (c : Context) (entry : Entry) (caller : Caller) :
    c.Confined A (c.start entry caller) := by
  unfold Context.start
  split
  · exact .refl c
  · exact .refl c
  · exact Machine.Confined.register ..
  · exact .refl c
  · exact .call ..
  · exact .invoke ..
  · exact .refl c

theorem find (c : Context) (name : String) (pending : Pending) :
    c.Confined A (c.find name pending) := by
  unfold Context.find
  split
  · exact .refl c
  · dsimp only
    split
    · exact Machine.Confined.registerNative ..
    · exact .refl c

theorem adopt (c : Context) (name : String) (result : Except FinderError (Option LinkedModule))
    (pending : Pending) : c.Confined A (c.adopt name result pending) := by
  unfold Context.adopt
  split
  · split
    · exact .refl c
    · exact Machine.Confined.register ..
  all_goals exact .refl c

theorem load (c : Context) (module : ModuleId) (entry : ModuleEntry) (object : Bool)
    (pending : Pending) : c.Confined A (c.load module entry object pending) := by
  unfold Context.load
  cases entry.body with
  | none => exact .refl c
  | some code =>
    dsimp only [Machine.onHeap]
    generalize hbound : Frame.bind _ _ _ _ _ _ _ = bound
    have hbind : c.machine.heap.Confined A bound.2 := by
      rw [← hbound]
      refine .trans (.of_objects ?_) (Frame.confined_bind ..)
      rfl
    obtain ⟨fault | frame, heap⟩ := bound
    · let loading := c.machine.setState module (.loading c.id)
      let raised := Context.envelope ⟨{ loading with heap }, c.id, c.fiber⟩ fault
      have hraised : c.machine.Confined A raised.2.machine :=
        hbind.trans (heap.confined_envelope c.fiber.frames fault)
      exact hraised.trans (.finishModule raised.2.machine module (some raised.1))
    · exact (Confined.enter ..).after hbind

theorem enterModule (c : Context) (module : ModuleId) (object : Bool) (pending : Pending) :
    c.Confined A (c.enterModule module object pending) := by
  unfold Context.enterModule
  split
  · exact .refl c
  · split
    · exact .refl c
    · exact .refl c
    · split
      · exact .refl c
      · split <;> exact .refl c
    · exact .load ..

theorem wake (c : Context) (module : ModuleId) (object : Bool) (pending : Pending) :
    c.Confined A (c.wake module object pending) := by
  unfold Context.wake
  dsimp only
  split <;> exact .refl c

/-- A transition in which neither code of `A` nor a program of the host is executed. -/
theorem advance (c : Context) (h : c.fiber.isForeign A) : c.Confined A c.advance := by
  unfold Fiber.isForeign at h
  unfold Context.advance
  cases hactivity : c.fiber.activity with
  | idle => exact .refl c
  | running base caller =>
    rw [hactivity] at h
    exact .run c base caller (bne_iff_ne.mp h)
  | program program purpose =>
    rw [hactivity] at h
    cases h
  | finding name pending => exact .find ..
  | found name result pending => exact .adopt ..
  | entering module object pending => exact .enterModule ..
  | waiting module object pending => exact .wake ..
  | answered result pending =>
    cases pending with
    | instruction base negate caller =>
      cases result with
      | ok value => exact .deliver ..
      | error fault => exact .fail ..
    | entry caller => cases result <;> exact .finish ..
  | replied outcome caller => cases caller <;> exact .refl c

end Confined

end Context

/-! ## Histories -/

namespace World

/--
No code of `A` is executed in the event, nor a program of the host, which may do anything. Entries
are made on behalf of the module whose frame is on top.
-/
def isForeign (A : ModuleId) (w : World) : Event → Bool
  | .edit _ => false
  | .start id _ => (w.fiber? id).all (·.currentModule? != some A)
  | .advance id => (w.fiber? id).all (·.isForeign A)
  | _ => true

/-- Only foreign code is executed in all events. -/
def allForeign (A : ModuleId) : World → List Event → Bool
  | _, [] => true
  | w, e :: events => w.isForeign A e && (w.perform e).allForeign A events

theorem confined_failAll (m : Machine) (modules : List ModuleId) :
    m.Confined A (failAll m modules) := by
  induction modules generalizing m with
  | nil => exact .refl m
  | cons module rest ih =>
    exact (Machine.Confined.envelope m [] .moduleFailed).trans
      ((Machine.Confined.finishModule ..).trans (ih _))

theorem confined_perform {w : World} {e : Event} (h : w.isForeign A e) :
    w.machine.Confined A (w.perform e).machine := by
  cases e with
  | register linked => exact .register w.machine linked
  | registerNative | relocate | spawn | configure | expire => exact .refl w.machine
  | edit change => cases h
  | drop id => exact confined_failAll (w.machine.setWait id none) (w.loadedBy id)
  | start id entry =>
    rcases w.perform_start_cases id entry with heq | ⟨fiber, -, -, -, heq⟩ <;> rw [heq]
    · exact .refl w.machine
    · exact Context.Confined.start ⟨w.machine, id, fiber⟩ entry .host
  | advance id =>
    rcases w.perform_advance_cases id with heq | ⟨fiber, hfiber, -, -, heq⟩ <;> rw [heq]
    · exact .refl w.machine
    · have hforeign : fiber.isForeign A := by rwa [isForeign, hfiber] at h
      exact Context.Confined.advance ⟨w.machine, id, fiber⟩ hforeign
  | rouse id =>
    rcases w.perform_rouse_cases id with heq | ⟨fiber, -, hwaiting, heq⟩ <;> rw [heq]
    · exact .refl w.machine
    · exact Context.Confined.advance ⟨w.machine, id, fiber⟩ (Fiber.isForeign_of_isWaiting hwaiting)

theorem confined_run {w : World} {events : List Event} (h : w.allForeign A events) :
    w.machine.Confined A (w.run events).machine := by
  induction events generalizing w with
  | nil => exact .refl w.machine
  | cons e rest ih =>
    obtain ⟨hfirst, hrest⟩ := (Bool.and_eq_true _ _).mp h
    exact (confined_perform hfirst).trans (ih hrest)

/--
**Foreign code is confined.** As long as neither code of `A` nor a program of the host is executed,
the object of `A` keeps its names, every attribute keeps its export and lock, one that is not
exported stays as it is, and one that changes was exported and not fixed, and is assigned.
-/
theorem attributes_of_allForeign {w : World} {events : List Event} (h : w.allForeign A events)
    {r : Ref .object} {o : Object} (ho : w.machine.heap.object? r = some o)
    (hA : o.module = some A) :
    ∃ o', (w.run events).machine.heap.object? r = some o' ∧
      o'.attributes.keys = o.attributes.keys ∧
      ∀ name a, o.attributes.get? name = some a →
        ∃ a', o'.attributes.get? name = some a' ∧
          a'.exported = a.exported ∧ a'.locked = a.locked ∧ (a.exported = false → a' = a) ∧
          (a' ≠ a → a.exported ∧ ¬ a.locked ∧ ¬ (a.constant ∧ a.assigned) ∧ a'.assigned ∧
            (a.constant → a'.constant)) := by
  obtain ⟨o', ho', H⟩ := (confined_run h).object r o ho hA
  refine ⟨o', ho', H.names, fun name a ha => ?_⟩
  obtain ⟨a', ha', Ha⟩ := H.kept name a ha
  refine ⟨a', ha', Ha.exported, Ha.locked, Ha.eq_of_not_exported, fun hne => ?_⟩
  obtain ⟨hexported, hfree, hassigned, hconstant⟩ := Ha.changed hne
  simp only [Attribute.isFixed, Bool.or_eq_false_iff] at hfree
  refine ⟨hexported, by simp [hfree.2], fun hwritten => ?_, hassigned, hconstant⟩
  simp [hwritten] at hfree

/-- A module that loads another one before it stores it under a name of its own. -/
def importing : LinkedModule where
  name := "a"
  pool := #[.int 1, .string "x", .string "y", .string "b", .code {
    name := none, signature := {}, captures := []
    instructions := #[
      { opcode := .loadConst }, { opcode := .storeGlobal, operand := 1 },
      { opcode := .loadConst }, { opcode := .storeGlobal, operand := 2 },
      { opcode := .loadLocal, operand := 1 }, { opcode := .export, operand := 1 },
      { opcode := .loadModule, operand := 3 }, { opcode := .storeGlobal, operand := 3 }] }]

/-- A module that changes and seals the one that is loading it. -/
def meddling : LinkedModule where
  name := "b"
  pool := #[.int 2, .string "x", .string "a", .code {
    name := none, signature := {}, captures := []
    instructions := #[
      { opcode := .loadModule, operand := 2 }, { opcode := .loadConst },
      { opcode := .setAttr, operand := 1 },
      { opcode := .loadModule, operand := 2 }, { opcode := .seal }] }]

/-- The first module has asked for the second one. -/
def halfLoaded : World :=
  run {} ([.register importing, .register meddling, .spawn, .start ⟨0⟩ (.load "a")] ++
    List.replicate 9 (.advance ⟨0⟩))

/-- The second module is loaded. -/
def meanwhile : List Event := List.replicate 14 (.advance ⟨0⟩)

/--
While a module is loading, another one assigns what it exports and seals it. The names and what is
not exported stay.
-/
theorem attributes_of_meddling :
    halfLoaded.allForeign ⟨0⟩ meanwhile ∧
    ∃ o, halfLoaded.machine.heap.object? ⟨0⟩ = some o ∧ o.module = some ⟨0⟩ ∧
      o.sealed = false ∧ o.attributes.keys = ["x", "y"] ∧
      o.attributes.get? "x" = some { value := .int 1, exported := true } ∧
      o.attributes.get? "y" = some { value := .int 1 } ∧
      ∃ o', (halfLoaded.run meanwhile).machine.heap.object? ⟨0⟩ = some o' ∧
        o'.sealed ∧ o'.attributes.keys = ["x", "y"] ∧
        o'.attributes.get? "x" = some { value := .int 2, exported := true } ∧
        o'.attributes.get? "y" = some { value := .int 1 } := by
  have hforeign : halfLoaded.allForeign ⟨0⟩ meanwhile := by decide +kernel
  have hbefore : ∃ o ∈ halfLoaded.machine.heap.object? ⟨0⟩, o.module = some ⟨0⟩ ∧
      o.sealed = false ∧ o.attributes.keys = ["x", "y"] ∧
      o.attributes.get? "x" = some { value := .int 1, exported := true } ∧
      o.attributes.get? "y" = some { value := .int 1 } := by decide +kernel
  have hafter : ∀ o' ∈ (halfLoaded.run meanwhile).machine.heap.object? ⟨0⟩, o'.sealed ∧
      o'.attributes.get? "x" = some { value := .int 2, exported := true } := by decide +kernel
  obtain ⟨o, ho, hmodule, hsealed, hkeys, hx, hy⟩ := hbefore
  obtain ⟨o', ho', hkeys', hkept⟩ := attributes_of_allForeign hforeign ho hmodule
  obtain ⟨a', ha', -, -, hsame, -⟩ := hkept "y" _ hy
  obtain ⟨hsealed', hx'⟩ := hafter o' ho'
  cases hsame rfl
  exact ⟨hforeign, o, ho, hmodule, hsealed, hkeys, hx, hy, o', ho', hsealed',
    hkeys'.trans hkeys, hx', ha'⟩

end World

end FiberMachine
