import FiberMachine.Proofs.Execution.Nesting

/-!
# Execution without budget and deadline

Budget and deadline decide whether an instruction is executed, and nothing else: a transition that
is not held up does to the machine, the frames and the activity what it does without them
(`Context.unlimited_advance`).
-/

namespace FiberMachine

/-- Whether the meter refuses an instruction, or charges for it after the deadline. -/
def Fiber.isHeldUp (f : Fiber) : Bool :=
  match f.meter.admit? with
  | none => true
  | some (_, charged) => charged && f.deadline = some .past

theorem Fiber.isHeldUp_of_off {f : Fiber} (hbudget : f.meter.budget = none)
    (hdeadline : f.deadline = none) : f.isHeldUp = false := by
  obtain ⟨admitted, hmeter⟩ : ∃ admitted, f.meter.admit? = some admitted := by
    unfold Meter.admit? Meter.charge?
    rw [hbudget]
    split <;> exact ⟨_, rfl⟩
  simp [isHeldUp, hmeter, hdeadline]

namespace Context

/-- The fiber with its budget turned off and its deadline lifted. -/
def unlimited (c : Context) : Context :=
  ⟨c.machine, c.id, { c.fiber with meter := {}, deadline := none }⟩

variable {c : Context}

@[simp] theorem unlimited_machine : c.unlimited.machine = c.machine := rfl

@[simp] theorem unlimited_id : c.unlimited.id = c.id := rfl

@[simp] theorem unlimited_frames : c.unlimited.fiber.frames = c.fiber.frames := rfl

@[simp] theorem unlimited_activity : c.unlimited.fiber.activity = c.fiber.activity := rfl

/-! ## Parts of a transition -/

theorem unlimited_finish (c : Context) (result : Except Fault Value) (caller : Caller) :
    (c.finish result caller).unlimited = (c.unlimited.finish result caller).unlimited := by
  cases result with
  | ok value => rfl
  | error fault => cases fault <;> rfl

theorem unlimited_complete (c : Context) (result : Except Value Value) (base : Nat)
    (caller : Caller) :
    (c.complete result base caller).unlimited =
      (c.unlimited.complete result base caller).unlimited := by
  obtain ⟨m, id, ⟨frames, meter, deadline, maxDepth, activity⟩⟩ := c
  simp only [complete, unlimited]
  split <;> rfl

theorem unlimited_raise (c : Context) (fault : Fault) (base : Nat) (caller : Caller) :
    (c.raise fault base caller).unlimited = (c.unlimited.raise fault base caller).unlimited := by
  obtain ⟨m, id, ⟨frames, meter, deadline, maxDepth, activity⟩⟩ := c
  cases frames with
  | nil => exact unlimited_complete ..
  | cons frame rest =>
    simp only [raise, envelope, unlimited]
    split
    · rfl
    · exact unlimited_complete ..

theorem unlimited_abandon (c : Context) (fault : Fault) (base : Nat) (caller : Caller) :
    (c.abandon fault base caller).unlimited =
      (c.unlimited.abandon fault base caller).unlimited := by
  unfold abandon
  split
  · exact unlimited_finish ..
  · exact unlimited_finish ..

theorem unlimited_fail (c : Context) (fault : Fault) (base : Nat) (caller : Caller) :
    (c.fail fault base caller).unlimited = (c.unlimited.fail fault base caller).unlimited := by
  unfold fail
  split
  · exact unlimited_abandon ..
  · exact unlimited_raise ..

theorem unlimited_deliver (c : Context) (value : Value) (base : Nat) (caller : Caller) :
    (c.deliver value base caller).unlimited =
      (c.unlimited.deliver value base caller).unlimited := by
  obtain ⟨m, id, ⟨frames, meter, deadline, maxDepth, activity⟩⟩ := c
  cases frames with
  | nil => exact unlimited_raise ..
  | cons frame rest => rfl

theorem unlimited_enter (c : Context) (frame : Frame) (pending : Pending) :
    (c.enter frame pending).unlimited = (c.unlimited.enter frame pending).unlimited := by
  have hfull : c.unlimited.fiber.isFull = c.fiber.isFull := rfl
  cases pending with
  | instruction base negate caller =>
    simp only [enter, hfull]
    split
    · exact unlimited_raise ..
    · rfl
  | entry caller =>
    simp only [enter, hfull]
    split
    · exact unlimited_finish ..
    · rfl

theorem unlimited_proceed (c : Context) (invocation : Machine.Invocation) (pending : Pending) :
    (c.proceed invocation pending).unlimited =
      (c.unlimited.proceed invocation pending).unlimited := by
  cases invocation with
  | enter frame => exact unlimited_enter ..
  | complete | run | fail => rfl

theorem unlimited_call (c : Context) (callable receiver : Value) (args : Arguments)
    (pending : Pending) :
    (c.call callable receiver args pending).unlimited =
      (c.unlimited.call callable receiver args pending).unlimited := unlimited_proceed ..

theorem unlimited_invoke (c : Context) (target : Value) (name : String) (args : Arguments)
    (pending : Pending) :
    (c.invoke target name args pending).unlimited =
      (c.unlimited.invoke target name args pending).unlimited := unlimited_proceed ..

theorem unlimited_instruct (c : Context) (base : Nat) (caller : Caller) :
    (c.instruct base caller).unlimited = (c.unlimited.instruct base caller).unlimited := by
  obtain ⟨m, id, ⟨frames, meter, deadline, maxDepth, activity⟩⟩ := c
  cases frames with
  | nil => exact unlimited_raise ..
  | cons frame rest =>
    simp only [instruct, Machine.onHeap, unlimited]
    generalize Exec.step.run ⟨m.heap, frame⟩ = stepped
    obtain ⟨action, ⟨heap, frame⟩⟩ := stepped
    cases action with
    | error fault => exact unlimited_fail ..
    | ok action =>
      cases action with
      | next | load => rfl
      | call => exact unlimited_call ..
      | invoke => exact unlimited_invoke ..
      | «return» => exact unlimited_complete ..

theorem unlimited_find (c : Context) (name : String) (pending : Pending) :
    (c.find name pending).unlimited = (c.unlimited.find name pending).unlimited := by
  obtain ⟨m, id, f⟩ := c
  change _ = (find ⟨m, id, { f with meter := {}, deadline := none }⟩ name pending).unlimited
  simp only [find]
  split
  · rfl
  · split <;> rfl

theorem unlimited_adopt (c : Context) (name : String)
    (result : Except FinderError (Option LinkedModule)) (pending : Pending) :
    (c.adopt name result pending).unlimited =
      (c.unlimited.adopt name result pending).unlimited := by
  unfold adopt
  split
  · rw [unlimited_machine]
    split <;> rfl
  all_goals rfl

theorem unlimited_load (c : Context) (module : ModuleId) (entry : ModuleEntry) (object : Bool)
    (pending : Pending) :
    (c.load module entry object pending).unlimited =
      (c.unlimited.load module entry object pending).unlimited := by
  simp only [load, unlimited_machine, unlimited_id]
  split
  · rfl
  · split
    · exact unlimited_enter ..
    · rfl

theorem unlimited_enterModule (c : Context) (module : ModuleId) (object : Bool)
    (pending : Pending) :
    (c.enterModule module object pending).unlimited =
      (c.unlimited.enterModule module object pending).unlimited := by
  obtain ⟨m, id, f⟩ := c
  change _ = (enterModule ⟨m, id, { f with meter := {}, deadline := none }⟩
    module object pending).unlimited
  simp only [enterModule]
  split
  · rfl
  · split
    · rfl
    · rfl
    · split
      · rfl
      · split <;> rfl
    · exact unlimited_load ..

theorem unlimited_start (c : Context) (entry : Entry) (caller : Caller) :
    (c.start entry caller).unlimited = (c.unlimited.start entry caller).unlimited := by
  cases entry with
  | execute linked limit | resume limit => cases limit <;> rfl
  | load name => rfl
  | call callable receiver args => exact unlimited_call ..
  | invoke target name args => exact unlimited_invoke ..

theorem unlimited_step (c : Context) (program : Program) (purpose : Purpose) :
    (c.step program purpose).unlimited = (c.unlimited.step program purpose).unlimited := by
  cases program with
  | finish result =>
    cases purpose with
    | call pending => rfl
    | load module pending => cases result <;> rfl
  | enter entry next => exact unlimited_start ..
  | newArray | newObject | newFunction | read | backtrace => rfl
  | update target update next =>
    simp only [step, unlimited_machine]
    split <;> rfl
  | configure setting next => cases setting <;> rfl

/-! ## Transitions -/

/-- An instruction that is not held up is executed. -/
theorem run_of_not_isHeldUp (h : c.fiber.isHeldUp = false) (base : Nat) (caller : Caller) :
    (c.run base caller).unlimited = (c.unlimited.instruct base caller).unlimited := by
  rw [Fiber.isHeldUp] at h
  rw [run]
  cases hmeter : c.fiber.meter.admit? with
  | none =>
    rw [hmeter] at h
    exact nomatch h
  | some admitted =>
    obtain ⟨meter, charged⟩ := admitted
    rw [hmeter] at h
    have hlate : ¬ (charged && isLate ⟨c.machine, c.id, { c.fiber with meter }⟩) :=
      Bool.eq_false_iff.mp h
    exact (congrArg unlimited (if_neg hlate)).trans (unlimited_instruct ..)

/-- An instruction that is held up pauses the outermost run before it. -/
theorem run_of_isHeldUp (h : c.fiber.isHeldUp) (caller : Caller) :
    ∃ failure, failure.isPause ∧ (c.run 0 caller).unlimited =
      (c.unlimited.setActivity (.replied (.error failure) caller)) := by
  rw [Fiber.isHeldUp] at h
  rw [run]
  cases hmeter : c.fiber.meter.admit? with
  | none => exact ⟨.noBudget, rfl, rfl⟩
  | some admitted =>
    obtain ⟨meter, charged⟩ := admitted
    rw [hmeter] at h
    have hlate : charged && isLate ⟨c.machine, c.id, { c.fiber with meter }⟩ := h
    exact ⟨.timeout, rfl, congrArg unlimited (if_pos hlate)⟩

/-- **A transition that is not held up does the same without budget and deadline.** -/
theorem unlimited_advance
    (hwait : ∀ id object pending, c.fiber.activity ≠ .waiting id object pending)
    (hheld : ∀ base caller, c.fiber.activity = .running base caller → c.fiber.isHeldUp = false) :
    c.advance.unlimited = c.unlimited.advance.unlimited := by
  unfold advance
  rw [unlimited_activity]
  cases hactivity : c.fiber.activity with
  | idle => rfl
  | running base caller =>
    refine (run_of_not_isHeldUp (hheld base caller hactivity) base caller).trans ?_
    exact (run_of_not_isHeldUp (c := c.unlimited) rfl base caller).symm
  | program program purpose => exact unlimited_step ..
  | finding name pending => exact unlimited_find ..
  | found name result pending => exact unlimited_adopt ..
  | entering module object pending => exact unlimited_enterModule ..
  | waiting module object pending => exact absurd hactivity (hwait module object pending)
  | answered result pending =>
    cases pending with
    | instruction base negate caller =>
      cases result with
      | ok value => exact unlimited_deliver ..
      | error fault => exact unlimited_fail ..
    | entry caller => cases result <;> exact unlimited_finish ..
  | replied outcome caller => cases caller <;> rfl

end Context

/-! ## Entries -/

namespace Entry

/-- The entry without its deadline. -/
def unlimited : Entry → Entry
  | .execute linked _ => .execute linked .unlimited
  | .resume _ => .resume .unlimited
  | entry => entry

/-- Whether the deadline of the entry, if any, can be represented. -/
def isRepresentable : Entry → Bool
  | .execute _ .unrepresentable | .resume .unrepresentable => false
  | _ => true

end Entry

theorem Context.start_unlimited (c : Context) {entry : Entry} (h : entry.isRepresentable)
    (caller : Caller) :
    (c.start entry.unlimited caller).unlimited = (c.start entry caller).unlimited := by
  cases entry with
  | execute linked limit | resume limit =>
    cases limit with
    | unrepresentable => exact nomatch h
    | unlimited | deadline => rfl
  | load | call | invoke => rfl

end FiberMachine
