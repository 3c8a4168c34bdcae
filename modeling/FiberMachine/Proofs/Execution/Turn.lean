import FiberMachine.Execution
import FiberMachine.Proofs.Execution.Invalid
import FiberMachine.Proofs.World.History

/-!
# What a transition does to waits and deadlines

A transition changes the wait of its own fiber only, when the fiber starts to wait for a module and
when it wakes up. It neither sets a deadline nor times out unless there is a reason, a deadline that
the fiber has or a program that asks for it, and an entry of the host that ends without an error and
without frames leaves no deadline (`Context.advance_cases`).
-/

namespace FiberMachine

/-! ## Parts of a machine that execution leaves alone -/

namespace Machine

/-- The view shows neither the heap nor the states of modules. -/
structure IsApart {α : Type} (view : Machine → α) : Prop where
  heap (m : Machine) (heap : Heap) : view { m with heap } = view m
  state (m : Machine) (id : ModuleId) (s : ModuleState) : view (m.setState id s) = view m

namespace IsApart

variable {α : Type} {view : Machine → α} (H : IsApart view) (m : Machine)

include H

theorem onHeap {β : Type} (f : Heap → β × Heap) : view (m.onHeap f).2 = view m := H.heap m _

theorem finishModule (id : ModuleId) (error : Option Value) :
    view (m.finishModule id error) = view m := by
  unfold Machine.finishModule
  dsimp only
  split
  · exact H.state m id _
  · exact (H.onHeap _ _).trans (H.state m id _)

theorem conclude (continuation : Continuation) (result : Except Value Value) :
    view (m.conclude continuation result).2 = view m := by
  cases continuation with
  | result => rfl
  | negated => cases result <;> rfl
  | module id object =>
    cases result with
    | error e => exact H.finishModule m id (some e)
    | ok value =>
      simp only [Machine.conclude]
      split <;> exact H.finishModule m id none

theorem complete (base : Nat) (result : Except Value Value) (frames : List Frame) :
    view (Machine.complete base m result frames).machine = view m := by
  induction frames generalizing m result with
  | nil => rfl
  | cons top rest ih =>
    have hconcluded := H.conclude m top.continuation result
    unfold Machine.complete
    generalize m.conclude top.continuation result = concluded at hconcluded
    obtain ⟨result, m'⟩ := concluded
    dsimp only at hconcluded ⊢
    split
    · exact hconcluded
    · cases rest with
      | nil => cases result <;> exact hconcluded
      | cons frame below =>
        cases result with
        | ok value => exact hconcluded
        | error e =>
          dsimp only
          split
          · exact hconcluded
          · exact (ih m' (.error e)).trans hconcluded

theorem discard (base : Nat) (frames : List Frame) :
    view (Machine.discard base m frames).1 = view m := by
  induction frames generalizing m with
  | nil => rfl
  | cons top rest ih =>
    unfold Machine.discard
    split
    · rfl
    · cases top.continuation with
      | result | negated => exact ih m
      | module id object =>
        exact (ih _).trans ((H.finishModule _ id _).trans (H.heap m _))

theorem prepareCall (callable receiver : Value) (args : Arguments) :
    view (m.prepareCall callable receiver args).2 = view m := by
  cases callable with
  | function r =>
    simp only [Machine.prepareCall]
    cases m.heap.function? r with
    | none => rfl
    | some f =>
      dsimp only
      cases f.body with
      | native name routine => rfl
      | interpreted code captures =>
        dsimp only
        cases f.module.bind m.scope? with
        | none => rfl
        | some scope =>
          dsimp only [Machine.onHeap]
          split <;> (rename_i h; obtain ⟨_, rfl⟩ := Prod.mk.inj h; exact H.heap m _)
  | template r =>
    simp only [Machine.prepareCall]
    cases m.heap.template? r with
    | none => rfl
    | some t =>
      dsimp only [Machine.onHeap]
      split <;> (rename_i h; obtain ⟨_, rfl⟩ := Prod.mk.inj h; exact H.heap m _)
  | _ => rfl

theorem prepareInvoke (target : Value) (name : String) (args : Arguments)
    (caller : Option ModuleId) :
    view (m.prepareInvoke target name args caller).2 = view m := by
  unfold Machine.prepareInvoke
  split
  · split
    · rfl
    · split
      · exact H.prepareCall m ..
      · rfl
  · split
    · rfl
    · exact H.heap m _

end IsApart

theorem isApart_waits : IsApart Machine.waits := ⟨fun _ _ => rfl, fun _ _ _ => rfl⟩

end Machine

/-! ## Reasons to time out -/

/-- The entry is given a deadline, or a limit that ends it at once. -/
def Entry.Timed : Entry → Prop
  | .execute _ limit | .resume limit => limit ≠ .unlimited
  | _ => False

instance Entry.decidableTimed (entry : Entry) : Decidable entry.Timed :=
  match entry with
  | .execute _ limit | .resume limit => inferInstanceAs (Decidable (limit ≠ .unlimited))
  | .load _ | .call .. | .invoke .. => inferInstanceAs (Decidable False)

/-- The program times out, or starts an entry with a limit. -/
def Program.Timed : Program → Prop
  | .finish result => result = .error .timeout
  | .enter entry _ => entry.Timed
  | _ => False

instance Program.decidableTimed (program : Program) : Decidable program.Timed :=
  match program with
  | .finish (.ok _) => isFalse nofun
  | .finish (.error fault) =>
    decidable_of_iff (fault = .timeout) ⟨congrArg Except.error, Except.error.inj⟩
  | .enter entry _ => inferInstanceAs (Decidable entry.Timed)
  | .newArray .. | .newObject _ | .newFunction .. | .read .. | .update .. | .backtrace _
  | .configure .. => inferInstanceAs (Decidable False)

/-- Something has timed out. -/
def Activity.TimesOut : Activity → Prop
  | .answered result _ => result = .error .timeout
  | .replied outcome _ => outcome = .error .timeout
  | _ => False

instance Activity.decidableTimesOut (activity : Activity) : Decidable activity.TimesOut :=
  match activity with
  | .answered (.ok _) _ | .replied (.ok _) _ => isFalse nofun
  | .answered (.error fault) _ =>
    decidable_of_iff (fault = .timeout) ⟨congrArg Except.error, Except.error.inj⟩
  | .replied (.error failure) _ =>
    decidable_of_iff (failure = .timeout) ⟨congrArg Except.error, Except.error.inj⟩
  | .idle | .running .. | .program .. | .finding .. | .found .. | .entering .. | .waiting .. =>
    inferInstanceAs (Decidable False)

/-- A program is about to time out, or to start an entry with a limit. -/
def Activity.Timed : Activity → Prop
  | .program p _ => p.Timed
  | _ => False

instance Activity.decidableTimed (activity : Activity) : Decidable activity.Timed :=
  match activity with
  | .program p _ => inferInstanceAs (Decidable p.Timed)
  | .idle | .running .. | .finding .. | .found .. | .entering .. | .waiting .. | .answered ..
  | .replied .. => inferInstanceAs (Decidable False)

/-- The next transition may set a deadline or time out. -/
def Fiber.Timed (f : Fiber) : Prop :=
  f.deadline ≠ none ∨ f.activity.TimesOut ∨ f.activity.Timed

/-! ## Turns -/

theorem Activity.failed_of_isAtRest {failure : Failure} {caller : Caller}
    (h : (Activity.replied (.error failure) caller).isAtRest) :
    ∃ failure', Activity.replied (.error failure) caller = .replied (.error failure') .host := by
  cases caller with
  | host => exact ⟨failure, rfl⟩
  | program next purpose => exact nomatch h

namespace Context

/--
`c'` follows on `c` with the same waits, and does not wait. The fiber has not got a deadline and
nothing has timed out, unless for the given cause. Where an entry of the host has ended and there
are no frames, no deadline is left, unless the entry has ended with an error.
-/
structure Turns (c : Context) (cause : Prop) (c' : Context) : Prop where
  waits : c'.machine.waits = c.machine.waits
  awake : c'.fiber.activity.isWaiting = false
  deadline : c.fiber.deadline = none → c'.fiber.deadline = none ∨ cause
  timesOut : c'.fiber.activity.TimesOut → cause
  rest : c'.fiber.activity.isAtRest → c'.fiber.frames = [] →
    c'.fiber.deadline = none ∨ ∃ failure, c'.fiber.activity = .replied (.error failure) .host

variable {c c' c'' : Context} {cause cause' : Prop}

theorem Turns.mono (H : c.Turns cause c') (h : cause → cause') : c.Turns cause' c' :=
  ⟨H.waits, H.awake, fun hnone => (H.deadline hnone).imp_right h, fun hout => h (H.timesOut hout),
    H.rest⟩

/-- A change that comes before and touches neither waits nor the deadline. -/
theorem Turns.after (H : c'.Turns cause c'') (hwaits : c'.machine.waits = c.machine.waits)
    (hdeadline : c'.fiber.deadline = c.fiber.deadline) : c.Turns cause c'' :=
  ⟨H.waits.trans hwaits, H.awake, fun hnone => H.deadline (hdeadline.trans hnone), H.timesOut,
    H.rest⟩

theorem Turns.answer (c : Context) (result : Except Fault Value) (pending : Pending) :
    c.Turns (result = .error .timeout) (c.answer result pending) :=
  ⟨rfl, rfl, .inl, fun h => h, nofun⟩

theorem Turns.finish (c : Context) (result : Except Fault Value) (caller : Caller) :
    c.Turns (result = .error .timeout) (c.finish result caller) := by
  unfold Context.finish
  split
  · refine ⟨rfl, rfl, fun hnone => .inl ?_, nofun, fun _ hframes => .inl ?_⟩
    · dsimp only
      rw [hnone, ite_self]
    · dsimp only at hframes ⊢
      rw [hframes]
      rfl
  · exact ⟨rfl, rfl, .inl, nofun, fun h _ => .inr (Activity.failed_of_isAtRest h)⟩
  · exact ⟨rfl, rfl, .inl, fun _ => rfl, fun h _ => .inr (Activity.failed_of_isAtRest h)⟩
  · exact ⟨rfl, rfl, .inl, nofun, fun h _ => .inr (Activity.failed_of_isAtRest h)⟩
  · exact ⟨rfl, rfl, .inl, nofun, fun h _ => .inr (Activity.failed_of_isAtRest h)⟩

theorem Turns.complete (c : Context) (result : Except Value Value) (base : Nat)
    (caller : Caller) : c.Turns False (c.complete result base caller) := by
  obtain ⟨m, id, ⟨frames, meter, deadline, maxDepth, activity⟩⟩ := c
  have hwaits := Machine.isApart_waits.complete m base result frames
  unfold Context.complete
  dsimp only
  generalize Machine.complete base m result frames = unwound at hwaits
  obtain ⟨m', frames', finished⟩ := unwound
  match finished with
  | none => exact ⟨hwaits, rfl, .inl, nofun, nofun⟩
  | some (.ok value) =>
    exact ((Turns.finish _ (.ok value) caller).mono nofun).after hwaits rfl
  | some (.error e) =>
    exact ((Turns.finish _ (.error (.exception e)) caller).mono nofun).after hwaits rfl

theorem Turns.raise (c : Context) (fault : Fault) (base : Nat) (caller : Caller) :
    c.Turns False (c.raise fault base caller) := by
  obtain ⟨m, id, ⟨frames, meter, deadline, maxDepth, activity⟩⟩ := c
  unfold Context.raise
  dsimp only [envelope]
  cases frames with
  | nil => exact (Turns.complete ..).after rfl rfl
  | cons frame rest =>
    dsimp only
    split
    · exact ⟨rfl, rfl, .inl, nofun, nofun⟩
    · exact (Turns.complete ..).after rfl rfl

theorem Turns.abandon (c : Context) (fault : Fault) (base : Nat) (caller : Caller) :
    c.Turns (fault = .timeout) (c.abandon fault base caller) := by
  obtain ⟨m, id, f⟩ := c
  unfold Context.abandon
  split
  · exact (Turns.finish _ _ caller).mono Except.error.inj
  · have hwaits := Machine.isApart_waits.discard m base f.frames
    exact ((Turns.finish _ _ caller).mono Except.error.inj).after hwaits rfl

theorem Turns.fail (c : Context) (fault : Fault) (base : Nat) (caller : Caller) :
    c.Turns (fault = .timeout) (c.fail fault base caller) := by
  unfold Context.fail
  split
  · exact .abandon ..
  · exact (Turns.raise ..).mono False.elim

theorem Turns.deliver (c : Context) (value : Value) (base : Nat) (caller : Caller) :
    c.Turns False (c.deliver value base caller) := by
  obtain ⟨m, id, ⟨frames, meter, deadline, maxDepth, activity⟩⟩ := c
  cases frames with
  | nil =>
    unfold Context.deliver
    exact .raise ..
  | cons frame rest => exact ⟨rfl, rfl, .inl, nofun, nofun⟩

theorem Turns.enter (c : Context) (frame : Frame) (pending : Pending) :
    c.Turns False (c.enter frame pending) := by
  unfold Context.enter
  split
  · split
    · exact .raise ..
    · exact ⟨rfl, rfl, .inl, nofun, nofun⟩
  · split
    · exact (Turns.finish ..).mono nofun
    · exact ⟨rfl, rfl, .inl, nofun, nofun⟩

theorem Turns.proceed (c : Context) {invocation : Machine.Invocation} (h : invocation.Mild)
    (pending : Pending) : c.Turns False (c.proceed invocation pending) := by
  cases invocation with
  | complete value => exact (Turns.answer ..).mono nofun
  | enter frame => exact .enter ..
  | run program => exact ⟨rfl, rfl, .inl, nofun, nofun⟩
  | fail fault =>
    refine (Turns.answer ..).mono fun heq => ?_
    cases heq
    exact nomatch h

theorem Turns.call (c : Context) (callable receiver : Value) (args : Arguments)
    (pending : Pending) : c.Turns False (c.call callable receiver args pending) :=
  (Turns.proceed _ (c.machine.mild_prepareCall callable receiver args) pending).after
    (Machine.isApart_waits.prepareCall ..) rfl

theorem Turns.invoke (c : Context) (target : Value) (name : String) (args : Arguments)
    (pending : Pending) : c.Turns False (c.invoke target name args pending) :=
  (Turns.proceed _ (c.machine.mild_prepareInvoke target name args _) pending).after
    (Machine.isApart_waits.prepareInvoke ..) rfl

theorem Turns.instruct (c : Context) {base : Nat} {caller : Caller}
    (h : c.fiber.activity = .running base caller) : c.Turns False (c.instruct base caller) := by
  obtain ⟨m, id, ⟨frames, meter, deadline, maxDepth, activity⟩⟩ := c
  cases h
  cases frames with
  | nil =>
    unfold Context.instruct
    exact .raise ..
  | cons frame rest =>
    have hmild {l : Local} {fault : Fault} (h : Exec.step.run ⟨m.heap, frame⟩ = (.error fault, l)) :
        fault ≠ .timeout := by
      rintro rfl
      exact nomatch Exec.mild_step.fault h
    simp only [Context.instruct, Machine.onHeap]
    generalize Exec.step.run ⟨m.heap, frame⟩ = stepped at hmild
    obtain ⟨action, ⟨heap, frame'⟩⟩ := stepped
    match action with
    | .ok .next => exact ⟨rfl, rfl, .inl, nofun, nofun⟩
    | .ok (.call callable receiver args negate) => exact (Turns.call ..).after rfl rfl
    | .ok (.invoke target name args) => exact (Turns.invoke ..).after rfl rfl
    | .ok (.load name) => exact ⟨rfl, rfl, .inl, nofun, nofun⟩
    | .ok (.return value) => exact (Turns.complete ..).after rfl rfl
    | .error fault => exact ((Turns.fail ..).mono (hmild rfl)).after rfl rfl

theorem Turns.run (c : Context) {base : Nat} {caller : Caller}
    (h : c.fiber.activity = .running base caller) :
    c.Turns (c.fiber.deadline ≠ none) (c.run base caller) := by
  unfold Context.run
  split
  · exact (Turns.abandon ..).mono nofun
  · rename_i meter charged _
    dsimp only
    split
    · rename_i hlate
      have hpast : c.fiber.deadline = some .past :=
        of_decide_eq_true ((Bool.and_eq_true _ _).mp hlate).2
      have hdeadline : c.fiber.deadline ≠ none := fun hnone => nomatch hnone.symm.trans hpast
      have H := Turns.abandon (clearDeadline ⟨c.machine, c.id, { c.fiber with meter }⟩)
        .timeout base caller
      exact ⟨H.waits, H.awake, fun _ => .inr hdeadline, fun _ => hdeadline, H.rest⟩
    · have H := Turns.instruct ⟨c.machine, c.id, { c.fiber with meter }⟩ h
      exact (H.mono False.elim).after rfl rfl

/-! ## Entries and programs -/

/-- An entry, unless it is the host's and resumes nothing. -/
theorem Turns.start (c : Context) (entry : Entry) {caller : Caller}
    (h : caller = .host → ∀ limit, entry = .resume limit → c.fiber.frames ≠ []) :
    c.Turns entry.Timed (c.start entry caller) := by
  cases entry with
  | execute linked limit =>
    cases limit with
    | unrepresentable =>
      exact ⟨rfl, rfl, .inl, fun _ => nofun, fun h _ => .inr (Activity.failed_of_isAtRest h)⟩
    | unlimited => exact ⟨rfl, rfl, fun _ => .inl rfl, nofun, nofun⟩
    | deadline d => exact ⟨rfl, rfl, fun _ => .inr nofun, nofun, nofun⟩
  | load name => exact ⟨rfl, rfl, .inl, nofun, nofun⟩
  | call callable receiver args => exact .call c callable receiver args (.entry caller)
  | invoke target name args => exact .invoke c target name args (.entry caller)
  | resume limit =>
    -- where there are frames, the fiber goes on; where there are none, a program is told so
    have resumed (deadline : Option Deadline)
        (hdeadline : c.fiber.deadline = none → deadline = none ∨ limit ≠ .unlimited) :
        c.Turns (limit ≠ .unlimited) ⟨c.machine, c.id, { c.fiber with
          deadline
          activity := if c.fiber.frames.isEmpty then .replied (.ok .null) caller
            else .running 0 caller }⟩ := by
      cases hframes : c.fiber.frames with
      | cons frame rest => exact ⟨rfl, rfl, hdeadline, nofun, nofun⟩
      | nil =>
        refine ⟨rfl, rfl, hdeadline, nofun, fun hrest _ => ?_⟩
        cases caller with
        | host => exact absurd hframes (h rfl limit rfl)
        | program next purpose => exact nomatch hrest
    cases limit with
    | unrepresentable =>
      exact ⟨rfl, rfl, .inl, fun _ => nofun, fun h _ => .inr (Activity.failed_of_isAtRest h)⟩
    | unlimited => exact resumed _ .inl
    | deadline d => exact resumed _ fun _ => .inr nofun

/-- An entry, unless it resumes nothing: then there is an outcome at once. -/
theorem start_cases (c : Context) (entry : Entry) (caller : Caller) :
    c.Turns entry.Timed (c.start entry caller) ∨
      ∃ limit, entry = .resume limit ∧ c.fiber.frames = [] ∧
        ∃ deadline outcome,
          (limit = .unlimited → deadline = c.fiber.deadline ∧ outcome = .ok .null) ∧
          c.start entry caller =
            ⟨c.machine, c.id, { c.fiber with deadline, activity := .replied outcome caller }⟩ := by
  by_cases h : ∃ limit, entry = .resume limit ∧ c.fiber.frames = []
  · obtain ⟨limit, rfl, hframes⟩ := h
    refine .inr ⟨limit, rfl, hframes, ?_⟩
    cases limit with
    | unrepresentable => exact ⟨_, _, nofun, rfl⟩
    | unlimited =>
      simp only [Context.start, hframes]
      exact ⟨_, _, fun _ => ⟨rfl, rfl⟩, rfl⟩
    | deadline d =>
      simp only [Context.start, hframes]
      exact ⟨_, _, nofun, rfl⟩
  · exact .inl (.start c entry fun _ limit hentry hframes => h ⟨limit, hentry, hframes⟩)

/-- A native initializer that ends ends the load of its module. -/
theorem Turns.answer_load (c : Context) (id : ModuleId) (error : Option Value)
    (result : Except Fault Value) (pending : Pending) :
    c.Turns (result = .error .timeout)
      (Context.answer ⟨c.machine.finishModule id error, c.id, c.fiber⟩ result pending) :=
  (Turns.answer _ result pending).after (Machine.isApart_waits.finishModule c.machine id error) rfl

theorem Turns.step (c : Context) (program : Program) (purpose : Purpose) :
    c.Turns program.Timed (c.step program purpose) := by
  cases program with
  | finish result =>
    cases purpose with
    | call pending => exact .answer ..
    | load id pending =>
      cases result with
      | ok value => exact (Turns.answer_load c id none (.ok _) pending).mono nofun
      | error fault =>
        let raised := c.envelope (if fault.isFatal then .moduleFailed else fault)
        have H := Turns.answer_load raised.2 id (some raised.1)
          (.error (if fault.isFatal then fault else .exception raised.1)) pending
        refine (H.mono fun heq => ?_).after rfl rfl
        split at heq
        · exact heq
        · exact nomatch heq
  | enter entry next => exact .start c entry nofun
  | newArray values next | newObject next | newFunction name module routine next
  | read target next | backtrace next => exact ⟨rfl, rfl, .inl, nofun, nofun⟩
  | configure setting next => cases setting <;> exact ⟨rfl, rfl, .inl, nofun, nofun⟩
  | update target update next =>
    simp only [Context.step]
    split <;> exact ⟨rfl, rfl, .inl, nofun, nofun⟩

/-! ## Modules -/

theorem Turns.find (c : Context) (name : String) (pending : Pending) :
    c.Turns False (c.find name pending) := by
  unfold Context.find
  split
  · exact ⟨rfl, rfl, .inl, nofun, nofun⟩
  · dsimp only
    split <;> exact ⟨rfl, rfl, .inl, nofun, nofun⟩

theorem Turns.adopt (c : Context) (name : String)
    (result : Except FinderError (Option LinkedModule)) (pending : Pending) :
    c.Turns False (c.adopt name result pending) := by
  unfold Context.adopt
  split
  · split <;> exact ⟨rfl, rfl, .inl, nofun, nofun⟩
  all_goals exact (Turns.answer ..).mono nofun

theorem Turns.load (c : Context) (id : ModuleId) (entry : ModuleEntry) (object : Bool)
    (pending : Pending) : c.Turns False (c.load id entry object pending) := by
  unfold Context.load
  cases entry.body with
  | none => exact ⟨rfl, rfl, .inl, nofun, nofun⟩
  | some code =>
    dsimp only [Machine.onHeap]
    generalize Frame.bind _ _ _ _ _ _ _ = bound
    obtain ⟨fault | frame, heap⟩ := bound
    · let loading := c.machine.setState id (.loading c.id)
      let raised := envelope ⟨{ loading with heap }, c.id, c.fiber⟩ fault
      have H := Turns.answer_load raised.2 id (some raised.1) (.error (.exception raised.1)) pending
      exact (H.mono nofun).after rfl rfl
    · exact (Turns.enter ..).after rfl rfl

/-- A fiber that enters a module goes on, or waits for one that would not wait for it. -/
theorem enterModule_cases (c : Context) (id : ModuleId) (object : Bool) (pending : Pending) :
    c.Turns False (c.enterModule id object pending) ∨
      ∃ loader, (c.machine.module? id).map ModuleEntry.state = some (.loading loader) ∧
        loader ≠ c.id ∧ c.machine.wouldDeadlock c.id loader = false ∧
        c.enterModule id object pending = ⟨c.machine.setWait c.id (some id), c.id,
          { c.fiber with activity := .waiting id object pending }⟩ := by
  unfold Context.enterModule
  cases hentry : c.machine.module? id with
  | none => exact .inl ((Turns.answer ..).mono nofun)
  | some entry =>
    dsimp only
    cases hs : entry.state with
    | loaded => exact .inl ((Turns.answer ..).mono nofun)
    | failed e => exact .inl ((Turns.answer ..).mono nofun)
    | registered => exact .inl (.load ..)
    | loading loader =>
      dsimp only
      by_cases hself : loader = c.id
      · rw [if_pos hself]
        exact .inl ((Turns.answer ..).mono nofun)
      · rw [if_neg hself]
        cases hdeadlock : c.machine.wouldDeadlock c.id loader with
        | true => exact .inl ((Turns.answer ..).mono nofun)
        | false => exact .inr ⟨loader, congrArg some hs, hself, hdeadlock, rfl⟩

/-- A fiber that wakes up has no wait. -/
theorem Turns.wake (c : Context) (id : ModuleId) (object : Bool) (pending : Pending) :
    Turns ⟨c.machine.setWait c.id none, c.id, c.fiber⟩ (c.fiber.deadline ≠ none)
      (c.wake id object pending) := by
  unfold Context.wake
  dsimp only
  split
  · rename_i hlate
    have hdeadline : c.fiber.deadline ≠ none := fun hnone =>
      nomatch hnone.symm.trans (of_decide_eq_true hlate)
    exact ⟨rfl, rfl, fun _ => .inr hdeadline, fun _ => hdeadline, nofun⟩
  · exact ⟨rfl, rfl, .inl, nofun, nofun⟩

/-! ## Transitions -/

/--
**What a transition does to waits and deadlines.** Unless the fiber wakes up or starts to wait, the
waits stay.
-/
theorem advance_cases (c : Context) (h : ¬ c.fiber.activity.isAtRest) :
    c.Turns c.fiber.Timed c.advance ∨
    (c.fiber.activity.isWaiting ∧
      Turns ⟨c.machine.setWait c.id none, c.id, c.fiber⟩ c.fiber.Timed c.advance) ∨
    ∃ id object pending loader, c.fiber.activity = .entering id object pending ∧
      (c.machine.module? id).map ModuleEntry.state = some (.loading loader) ∧
      loader ≠ c.id ∧ c.machine.wouldDeadlock c.id loader = false ∧
      c.advance = ⟨c.machine.setWait c.id (some id), c.id,
        { c.fiber with activity := .waiting id object pending }⟩ := by
  obtain ⟨m, id, ⟨frames, meter, deadline, maxDepth, activity⟩⟩ := c
  cases activity with
  | idle => exact absurd rfl h
  | running base caller => exact .inl ((Turns.run _ rfl).mono .inl)
  | program program purpose =>
    exact .inl ((Turns.step ..).mono fun h => .inr (.inr h))
  | finding name pending => exact .inl ((Turns.find ..).mono False.elim)
  | found name result pending => exact .inl ((Turns.adopt ..).mono False.elim)
  | waiting module object pending => exact .inr (.inl ⟨rfl, (Turns.wake ..).mono .inl⟩)
  | entering module object pending =>
    rcases enterModule_cases _ module object pending with H | ⟨loader, hs, hself, hfree, heq⟩
    · exact .inl (H.mono False.elim)
    · exact .inr (.inr ⟨module, object, pending, loader, rfl, hs, hself, hfree, heq⟩)
  | answered result pending =>
    cases pending with
    | entry caller =>
      cases result with
      | ok value => exact .inl ((Turns.finish _ (.ok value) caller).mono nofun)
      | error fault => exact .inl ((Turns.finish ..).mono fun h => .inr (.inl h))
    | instruction base negate caller =>
      cases result with
      | ok value => exact .inl ((Turns.deliver ..).mono False.elim)
      | error fault =>
        exact .inl ((Turns.fail ..).mono fun h => .inr (.inl (congrArg Except.error h)))
  | replied outcome caller =>
    cases caller with
    | host => exact absurd rfl h
    | program next purpose => exact .inl ⟨rfl, rfl, .inl, nofun, nofun⟩

end Context

end FiberMachine
