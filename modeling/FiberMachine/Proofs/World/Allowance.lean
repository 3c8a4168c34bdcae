import FiberMachine.Proofs.World.Deadline

/-!
# What a budget admits

The allowance of a meter is the number of instructions that its budget still admits. What an event
does to the meter of a fiber is one of three things: an instruction is asked for, a setting is made
by the host or by a program, or nothing (`World.meter_perform`). From this follows the account of
any stretch of a history, over pauses and through runs nested in each other: what is left of the
allowance and what was admitted are together what there was and what was added
(`World.allowance_exact`).
-/

namespace FiberMachine

/-! ## Meters -/

namespace Meter

/-- The number of instructions that are admitted until the budget is used up, if it can be. -/
def allowance (m : Meter) : Option Nat :=
  m.budget.map fun budget => budget * m.stepsPerCharge + (m.counter - 1)

/-- An instruction remains until the next charge, at most a unit's worth, and the budget is no more
than the largest one. -/
structure Valid (m : Meter) : Prop where
  counter : 1 ≤ m.counter
  steps : m.counter ≤ m.stepsPerCharge
  budget : ∀ b, m.budget = some b → b ≤ maxBudget

/-- What happens to a meter. -/
inductive Use where
  | idle
  /-- An instruction is asked for. -/
  | iteration
  | setting (s : Setting)
deriving DecidableEq

/-- The meter after something has happened to it. -/
def after (m : Meter) : Use → Meter
  | .idle | .setting (.maxDepth _) => m
  | .iteration => (m.admit?.map Prod.fst).getD m
  | .setting (.stepsPerCharge steps) => m.setSteps steps
  | .setting (.budget amount) => m.allocate amount

/-- The number of instructions that are admitted in the course of uses. -/
def admitted : Meter → List Use → Nat
  | _, [] => 0
  | m, u :: uses =>
    (if u = .iteration ∧ m.admit?.isSome then 1 else 0) + admitted (m.after u) uses

/-- What is added to the budget in the course of uses. -/
def added : List Use → Nat
  | [] => 0
  | .setting (.budget amount) :: uses => amount + added uses
  | _ :: uses => added uses

/-- No use changes the number of instructions per unit. -/
def Fixes (steps : Nat) (uses : List Use) : Prop :=
  ∀ u ∈ uses, ∀ n, u = .setting (.stepsPerCharge n) → max n 1 = steps

variable {m : Meter} {a b : Nat}

theorem valid_default : Valid {} := by
  refine ⟨by decide, by decide, fun b h => ?_⟩
  cases h

/-- An instruction is refused where the allowance is used up, and takes one off it otherwise. -/
theorem admit?_of_allowance (hm : m.Valid) (ha : m.allowance = some a) :
    (a = 0 ∧ m.admit? = none) ∨
      ∃ a' m' charged, a = a' + 1 ∧ m.admit? = some (m', charged) ∧ m'.allowance = some a' := by
  obtain ⟨budget, counter, steps⟩ := m
  obtain ⟨hcounter, hsteps, -⟩ := hm
  obtain ⟨b, rfl, rfl⟩ := Option.map_eq_some_iff.mp ha
  dsimp only at hcounter hsteps ⊢
  by_cases hlt : 1 < counter
  · refine .inr ⟨b * steps + (counter - 1 - 1), _, _, by omega, if_pos hlt, rfl⟩
  · obtain rfl : counter = 1 := by omega
    cases b with
    | zero => exact .inl ⟨by omega, by simp [admit?, charge?]⟩
    | succ b =>
      refine .inr ⟨b * steps + (steps - 1), _, _, ?_, if_neg hlt, rfl⟩
      rw [Nat.succ_mul]
      omega

theorem allowance_iteration (hm : m.Valid) (ha : m.allowance = some a) :
    (m.after .iteration).allowance = some (a - 1) := by
  rcases admit?_of_allowance hm ha with ⟨rfl, hnone⟩ | ⟨a', m', charged, rfl, hsome, ha'⟩
  · rw [after, hnone]
    exact ha
  · rw [after, hsome]
    exact ha'

theorem allowance_allocate (hb : m.budget = some b) (ha : m.allowance = some a) {amount : Nat}
    (h : b + amount ≤ maxBudget) :
    (m.allocate amount).allowance = some (a + amount * m.stepsPerCharge) := by
  rw [allowance, hb] at ha
  cases ha
  simp only [allowance, allocate, hb, Option.getD_some, Nat.min_eq_left h, Option.map_some,
    Nat.add_mul]
  congr 1
  omega

/-- Setting the number of instructions per unit to what it is changes nothing. -/
theorem setSteps_eq_self (hm : m.Valid) {steps : Nat} (h : max steps 1 = m.stepsPerCharge) :
    m.setSteps steps = m := by
  simp only [setSteps, h, Nat.min_eq_left hm.steps]

theorem Valid.after (hm : m.Valid) (u : Use) : (m.after u).Valid := by
  obtain ⟨budget, counter, steps⟩ := m
  obtain ⟨hcounter, hsteps, hbudget⟩ := hm
  dsimp only at hcounter hsteps hbudget
  cases u with
  | idle => exact ⟨hcounter, hsteps, hbudget⟩
  | iteration =>
    simp only [Meter.after, admit?]
    split
    · exact ⟨by simp; omega, by simp; omega, hbudget⟩
    · simp only [charge?]
      split
      · exact ⟨by simp; omega, Nat.le_refl _, hbudget⟩
      · exact ⟨hcounter, hsteps, hbudget⟩
      · refine ⟨by simp; omega, Nat.le_refl _, fun b h => ?_⟩
        cases h
        exact Nat.le_of_succ_le (hbudget _ rfl)
  | setting s =>
    cases s with
    | maxDepth depth => exact ⟨hcounter, hsteps, hbudget⟩
    | stepsPerCharge steps =>
      exact ⟨by simp [Meter.after, setSteps]; omega, Nat.min_le_right _ _, hbudget⟩
    | budget amount =>
      refine ⟨hcounter, hsteps, fun b h => ?_⟩
      cases h
      exact Nat.min_le_right _ _

theorem valid_foldl (hm : m.Valid) (uses : List Use) : (uses.foldl Meter.after m).Valid := by
  induction uses generalizing m with
  | nil => exact hm
  | cons u uses ih => exact ih (hm.after u)

/-- Budgeting that is on stays on. -/
theorem isSome_budget_after (h : m.budget.isSome) (u : Use) : (m.after u).budget.isSome := by
  obtain ⟨b, hb⟩ := Option.isSome_iff_exists.mp h
  cases u with
  | idle => exact h
  | iteration =>
    simp only [after, admit?, charge?, hb]
    split
    · rfl
    · cases b with
      | zero => exact h
      | succ b => rfl
  | setting s =>
    cases s with
    | maxDepth depth | stepsPerCharge steps => exact h
    | budget amount => rfl

theorem isSome_budget_foldl (h : m.budget.isSome) (uses : List Use) :
    (uses.foldl after m).budget.isSome := by
  induction uses generalizing m with
  | nil => exact h
  | cons u uses ih => exact ih (isSome_budget_after h u)

theorem added_cons (u : Use) (uses : List Use) : added (u :: uses) = added [u] + added uses := by
  cases u with
  | idle | iteration => exact (Nat.zero_add _).symm
  | setting s => cases s <;> simp [added]

/-- The account of one use. -/
theorem account_after (hm : m.Valid) (hb : m.budget = some b) (ha : m.allowance = some a) {u : Use}
    (hfixed : Fixes m.stepsPerCharge [u]) (hadded : b + added [u] ≤ maxBudget) :
    (m.after u).stepsPerCharge = m.stepsPerCharge ∧
      ∃ b' a', (m.after u).budget = some b' ∧ b' ≤ b + added [u] ∧
        (m.after u).allowance = some a' ∧
        a' + m.admitted [u] = a + added [u] * m.stepsPerCharge := by
  have hsame (heq : m.after u = m) (hadmitted : m.admitted [u] = 0) (hnone : added [u] = 0) :
      (m.after u).stepsPerCharge = m.stepsPerCharge ∧
        ∃ b' a', (m.after u).budget = some b' ∧ b' ≤ b + added [u] ∧
          (m.after u).allowance = some a' ∧
          a' + m.admitted [u] = a + added [u] * m.stepsPerCharge := by
    rw [heq, hadmitted, hnone, Nat.zero_mul]
    exact ⟨rfl, b, a, hb, Nat.le_refl _, ha, rfl⟩
  cases u with
  | idle => exact hsame rfl rfl rfl
  | setting s =>
    cases s with
    | maxDepth depth => exact hsame rfl rfl rfl
    | stepsPerCharge steps =>
      have heq := hfixed _ (List.mem_singleton_self _) steps rfl
      exact hsame (setSteps_eq_self hm heq) rfl rfl
    | budget amount =>
      refine ⟨rfl, _, _, rfl, ?_, allowance_allocate hb ha hadded, rfl⟩
      rw [hb]
      exact Nat.min_le_left _ _
  | iteration =>
    have hsteps : (m.after .iteration).stepsPerCharge = m.stepsPerCharge := by
      simp only [after, admit?, charge?]
      split
      · rfl
      · split <;> rfl
    have hbudget : ∃ b', (m.after .iteration).budget = some b' ∧ b' ≤ b := by
      simp only [after, admit?, charge?, hb]
      split
      · exact ⟨b, rfl, Nat.le_refl b⟩
      · cases b with
        | zero => exact ⟨0, hb, Nat.le_refl 0⟩
        | succ b => exact ⟨b, rfl, Nat.le_succ b⟩
    obtain ⟨b', hb', hle⟩ := hbudget
    refine ⟨hsteps, b', a - 1, hb', hle, allowance_iteration hm ha, ?_⟩
    rcases admit?_of_allowance hm ha with ⟨rfl, hnone⟩ | ⟨a', m', charged, rfl, hsome, -⟩
    · simp [admitted, added, hnone]
    · simp [admitted, added, hsome]

/-- **The account of a meter.** What is left and what was admitted is what there was and what was
added. -/
theorem account_foldl (hm : m.Valid) (hb : m.budget = some b) (ha : m.allowance = some a)
    {uses : List Use} (hfixed : Fixes m.stepsPerCharge uses)
    (hadded : b + added uses ≤ maxBudget) :
    ∃ a', (uses.foldl after m).allowance = some a' ∧
      a' + m.admitted uses = a + added uses * m.stepsPerCharge := by
  induction uses generalizing m a b with
  | nil => exact ⟨a, ha, by simp [admitted, added]⟩
  | cons u uses ih =>
    rw [added_cons] at hadded ⊢
    obtain ⟨hsteps, b₁, a₁, hb₁, hle, ha₁, haccount⟩ :=
      account_after hm hb ha
        (fun u' hu => hfixed u' (List.mem_singleton.mp hu ▸ List.mem_cons_self)) (by omega)
    obtain ⟨a', ha', hrest⟩ := ih (hm.after u) hb₁ ha₁
      (hsteps ▸ fun u' hu => hfixed u' (List.mem_cons_of_mem _ hu)) (by omega)
    refine ⟨a', ha', ?_⟩
    rw [hsteps] at hrest
    simp only [admitted] at haccount hrest ⊢
    rw [Nat.add_mul]
    omega

end Meter

/-! ## Transitions that are not metered -/

/-- An entry has run out of budget. -/
def Activity.RunsOut : Activity → Prop
  | .replied outcome _ => outcome = .error .noBudget
  | _ => False

namespace Context

/-- `c'` follows on `c` with the same meter, and no budget has run out but for the given cause. -/
structure Unmetered (c : Context) (cause : Prop) (c' : Context) : Prop where
  meter : c'.fiber.meter = c.fiber.meter
  runsOut : c'.fiber.activity.RunsOut → cause

variable {c c' c'' : Context} {cause cause' : Prop}

theorem Unmetered.mono (H : c.Unmetered cause c') (h : cause → cause') : c.Unmetered cause' c' :=
  ⟨H.meter, fun hout => h (H.runsOut hout)⟩

theorem Unmetered.after (H : c'.Unmetered cause c'') (h : c'.fiber.meter = c.fiber.meter) :
    c.Unmetered cause c'' := ⟨H.meter.trans h, H.runsOut⟩

theorem Unmetered.finish (c : Context) (result : Except Fault Value) (caller : Caller) :
    c.Unmetered (result = .error .noBudget) (c.finish result caller) := by
  unfold Context.finish
  split
  · exact ⟨rfl, by rintro ⟨⟩⟩
  · exact ⟨rfl, fun _ => rfl⟩
  all_goals exact ⟨rfl, by rintro ⟨⟩⟩

theorem Unmetered.complete (c : Context) (result : Except Value Value) (base : Nat)
    (caller : Caller) : c.Unmetered False (c.complete result base caller) := by
  obtain ⟨m, id, ⟨frames, meter, deadline, maxDepth, activity⟩⟩ := c
  unfold Context.complete
  dsimp only
  generalize Machine.complete base m result frames = unwound
  obtain ⟨m', frames', finished⟩ := unwound
  rcases finished with _ | (e | value)
  · exact ⟨rfl, False.elim⟩
  · exact ((Unmetered.finish _ (.error (.exception e)) caller).mono (by rintro ⟨⟩)).after rfl
  · exact ((Unmetered.finish _ (.ok value) caller).mono (by rintro ⟨⟩)).after rfl

theorem Unmetered.raise (c : Context) (fault : Fault) (base : Nat) (caller : Caller) :
    c.Unmetered False (c.raise fault base caller) := by
  obtain ⟨m, id, ⟨frames, meter, deadline, maxDepth, activity⟩⟩ := c
  unfold Context.raise
  dsimp only [envelope]
  cases frames with
  | nil => exact (Unmetered.complete ..).after rfl
  | cons frame rest =>
    dsimp only
    split
    · exact ⟨rfl, False.elim⟩
    · exact (Unmetered.complete ..).after rfl

theorem Unmetered.abandon (c : Context) (fault : Fault) (base : Nat) (caller : Caller) :
    c.Unmetered (fault = .noBudget) (c.abandon fault base caller) := by
  unfold Context.abandon
  split
  · exact (Unmetered.finish _ _ caller).mono Except.error.inj
  · exact ((Unmetered.finish _ _ caller).mono Except.error.inj).after rfl

theorem Unmetered.fail (c : Context) (fault : Fault) (base : Nat) (caller : Caller) :
    c.Unmetered (fault = .noBudget) (c.fail fault base caller) := by
  unfold Context.fail
  split
  · exact .abandon ..
  · exact (Unmetered.raise ..).mono False.elim

theorem Unmetered.enter (c : Context) (frame : Frame) (pending : Pending) :
    c.Unmetered False (c.enter frame pending) := by
  unfold Context.enter
  split
  · split
    · exact .raise ..
    · exact ⟨rfl, False.elim⟩
  · split
    · exact (Unmetered.finish ..).mono (by rintro ⟨⟩)
    · exact ⟨rfl, False.elim⟩

theorem Unmetered.proceed (c : Context) (invocation : Machine.Invocation) (pending : Pending) :
    c.Unmetered False (c.proceed invocation pending) := by
  cases invocation with
  | enter frame => exact .enter ..
  | complete | run | fail => exact ⟨rfl, False.elim⟩

theorem Unmetered.call (c : Context) (callable receiver : Value) (args : Arguments)
    (pending : Pending) : c.Unmetered False (c.call callable receiver args pending) :=
  (Unmetered.proceed ..).after rfl

theorem Unmetered.invoke (c : Context) (target : Value) (name : String) (args : Arguments)
    (pending : Pending) : c.Unmetered False (c.invoke target name args pending) :=
  (Unmetered.proceed ..).after rfl

theorem Unmetered.instruct (c : Context) {base : Nat} {caller : Caller}
    (h : c.fiber.activity = .running base caller) :
    c.Unmetered False (c.instruct base caller) := by
  obtain ⟨m, id, ⟨frames, meter, deadline, maxDepth, activity⟩⟩ := c
  cases h
  cases frames with
  | nil =>
    unfold Context.instruct
    exact .raise ..
  | cons frame rest =>
    have hmild {l : Local} {fault : Fault} (h : Exec.step.run ⟨m.heap, frame⟩ = (.error fault, l)) :
        fault ≠ .noBudget := by
      rintro rfl
      cases Exec.mild_step.fault h
    simp only [Context.instruct, Machine.onHeap]
    generalize Exec.step.run ⟨m.heap, frame⟩ = stepped at hmild
    obtain ⟨fault | action, ⟨heap, frame'⟩⟩ := stepped
    · exact ((Unmetered.fail ..).mono (hmild rfl)).after rfl
    · cases action with
      | next | load => exact ⟨rfl, False.elim⟩
      | call callable receiver args negate => exact (Unmetered.call ..).after rfl
      | invoke target name args => exact (Unmetered.invoke ..).after rfl
      | «return» value => exact (Unmetered.complete ..).after rfl

/-- **An iteration** asks for an instruction, and its run is out of budget if it is refused. -/
theorem run_metered (c : Context) {base : Nat} {caller : Caller}
    (h : c.fiber.activity = .running base caller) :
    (c.run base caller).fiber.meter = c.fiber.meter.after .iteration ∧
      ((c.run base caller).fiber.activity = .replied (.error .noBudget) caller ↔
        c.fiber.meter.admit? = none) := by
  unfold Context.run
  cases hmeter : c.fiber.meter.admit? with
  | none =>
    have H := Unmetered.abandon c .noBudget base caller
    refine ⟨H.meter.trans (by rw [Meter.after, hmeter]; rfl), fun _ => rfl, fun _ => ?_⟩
    simp only [Context.abandon]
    split <;> rfl
  | some admitted =>
    obtain ⟨meter, charged⟩ := admitted
    have hafter : c.fiber.meter.after .iteration = meter := by
      rw [Meter.after, hmeter]
      rfl
    dsimp only
    rw [hafter]
    have hrest {c' : Context} (H : Unmetered ⟨c.machine, c.id, { c.fiber with meter }⟩ False c') :
        c'.fiber.meter = meter ∧ (c'.fiber.activity = .replied (.error .noBudget) caller ↔
          some (meter, charged) = (none : Option (Meter × Bool))) := by
      refine ⟨H.meter, fun hout => (H.runsOut (by rw [hout]; rfl)).elim, ?_⟩
      rintro ⟨⟩
    split
    · exact hrest (((Unmetered.abandon ..).mono (by rintro ⟨⟩)).after rfl)
    · exact hrest (Unmetered.instruct ⟨c.machine, c.id, { c.fiber with meter }⟩ h)

/-! ## Transitions -/

theorem meter_deliver (c : Context) (value : Value) (base : Nat) (caller : Caller) :
    (c.deliver value base caller).fiber.meter = c.fiber.meter := by
  obtain ⟨m, id, ⟨frames, meter, deadline, maxDepth, activity⟩⟩ := c
  cases frames with
  | nil => exact (Unmetered.raise ..).meter
  | cons frame rest => rfl

theorem meter_start (c : Context) (entry : Entry) (caller : Caller) :
    (c.start entry caller).fiber.meter = c.fiber.meter := by
  cases entry with
  | execute linked limit | resume limit => cases limit <;> rfl
  | load name => rfl
  | call callable receiver args => exact (Unmetered.call ..).meter
  | invoke target name args => exact (Unmetered.invoke ..).meter

theorem meter_find (c : Context) (name : String) (pending : Pending) :
    (c.find name pending).fiber.meter = c.fiber.meter := by
  unfold Context.find
  split
  · rfl
  · dsimp only
    split <;> rfl

theorem meter_adopt (c : Context) (name : String)
    (result : Except FinderError (Option LinkedModule)) (pending : Pending) :
    (c.adopt name result pending).fiber.meter = c.fiber.meter := by
  unfold Context.adopt
  split
  · split <;> rfl
  all_goals rfl

theorem meter_load (c : Context) (id : ModuleId) (entry : ModuleEntry) (object : Bool)
    (pending : Pending) : (c.load id entry object pending).fiber.meter = c.fiber.meter := by
  unfold Context.load
  cases entry.body with
  | none => rfl
  | some code =>
    dsimp only
    split
    · exact (Unmetered.enter ..).meter
    · rfl

theorem meter_enterModule (c : Context) (id : ModuleId) (object : Bool) (pending : Pending) :
    (c.enterModule id object pending).fiber.meter = c.fiber.meter := by
  unfold Context.enterModule
  split
  · rfl
  · split
    · rfl
    · rfl
    · split
      · rfl
      · split <;> rfl
    · exact meter_load ..

theorem meter_wake (c : Context) (id : ModuleId) (object : Bool) (pending : Pending) :
    (c.wake id object pending).fiber.meter = c.fiber.meter := by
  simp only [Context.wake]
  split <;> rfl

end Context

/-- What the next transition does to the meter of a fiber. -/
def Activity.use : Activity → Meter.Use
  | .running .. => .iteration
  | .program (.configure setting _) _ => .setting setting
  | _ => .idle

theorem Fiber.meter_configure (f : Fiber) (setting : Setting) :
    (f.configure setting).meter = f.meter.after (.setting setting) := by
  cases setting <;> rfl

namespace Context

theorem meter_step (c : Context) (program : Program) (purpose : Purpose) :
    (c.step program purpose).fiber.meter =
      c.fiber.meter.after (Activity.program program purpose).use := by
  cases program with
  | finish result =>
    cases purpose with
    | call pending => rfl
    | load id pending => cases result <;> rfl
  | enter entry next => exact meter_start ..
  | newArray | newObject | newFunction | read | backtrace => rfl
  | update target update next =>
    simp only [Context.step]
    split <;> rfl
  | configure setting next => exact c.fiber.meter_configure setting

/-- **What a transition does to the meter.** -/
theorem meter_advance (c : Context) :
    c.advance.fiber.meter = c.fiber.meter.after c.fiber.activity.use := by
  unfold Context.advance
  cases hactivity : c.fiber.activity with
  | idle => rfl
  | running base caller => exact (run_metered c hactivity).1
  | program program purpose => exact meter_step ..
  | finding name pending => exact meter_find ..
  | found name result pending => exact meter_adopt ..
  | entering id object pending => exact meter_enterModule ..
  | waiting id object pending => exact meter_wake ..
  | answered result pending =>
    cases pending with
    | instruction base negate caller =>
      cases result with
      | ok value => exact meter_deliver ..
      | error fault => exact (Unmetered.fail ..).meter
    | entry caller => cases result <;> exact (Unmetered.finish ..).meter
  | replied outcome caller => cases caller <;> rfl

end Context

/-! ## Histories -/

namespace World

variable {w : World} {f : FiberId} {fiber fiber' : Fiber}

/-- What an event does to the meter of `f`. -/
def use (f : FiberId) (w : World) : Event → Meter.Use
  | .configure id setting => if id = f then .setting setting else .idle
  | .advance id =>
    if id = f then ((w.fiber? f).map (·.activity.use)).getD .idle else .idle
  | _ => .idle

/-- What events do to the meter of `f`, in order. -/
def uses (f : FiberId) : World → List Event → List Meter.Use
  | _, [] => []
  | w, e :: events => w.use f e :: uses f (w.perform e) events

/-- A fiber that settles does so without its meter. -/
theorem use_of_isSettled {c : Context} (h : c.isSettled) : c.fiber.activity.use = .idle := by
  unfold Context.isSettled at h
  unfold Activity.use
  split
  · rename_i heq
    rw [heq] at h
    cases h
  · rename_i heq
    rw [heq] at h
    cases h
  · rfl

/-- A transition, if the fiber makes one, does to its meter what it is about to do. -/
theorem meter_drive (c : Context) :
    (Context.drive 1 c).fiber.meter = c.fiber.meter.after c.fiber.activity.use := by
  rw [Context.drive]
  by_cases hsettled : c.isSettled
  · rw [if_pos hsettled, use_of_isSettled hsettled]
    rfl
  · rw [if_neg hsettled, Context.drive]
    exact c.meter_advance

theorem meter_update {id : FiberId} {c : Context} (hf : w.fiber? id = some fiber) {u : Meter.Use}
    (hc : c.fiber.meter = fiber.meter.after u) (h : (w.update id c).fiber? f = some fiber') :
    ∃ fiber, w.fiber? f = some fiber ∧
      fiber'.meter = fiber.meter.after (if id = f then u else .idle) := by
  rcases fiber?_of_update hf h with ⟨rfl, rfl⟩ | ⟨hne, hf'⟩
  · exact ⟨fiber, hf, by rw [if_pos rfl, hc]⟩
  · exact ⟨fiber', hf', by rw [if_neg hne.symm]; rfl⟩

theorem meter_modifyFiber {id : FiberId} {change : Fiber → Fiber} {u : Meter.Use}
    (hchange : ∀ fiber, (change fiber).meter = fiber.meter.after u)
    (h : (w.modifyFiber id change).fiber? f = some fiber') :
    ∃ fiber, w.fiber? f = some fiber ∧
      fiber'.meter = fiber.meter.after (if id = f then u else .idle) := by
  by_cases heq : id = f
  · subst heq
    rw [fiber?_modifyFiber_self] at h
    obtain ⟨fiber, hf, rfl⟩ := Option.map_eq_some_iff.mp h
    exact ⟨fiber, hf, by rw [if_pos rfl, hchange]⟩
  · rw [fiber?_modifyFiber_of_ne (Ne.symm heq)] at h
    exact ⟨fiber', h, by rw [if_neg heq]; rfl⟩

/-- **What an event does to the meter of a fiber,** unless the fiber is new. -/
theorem meter_perform (e : Event) (h : (w.perform e).fiber? f = some fiber') :
    (f.index = w.fibers.size ∧ fiber' = {}) ∨
      ∃ fiber, w.fiber? f = some fiber ∧ fiber'.meter = fiber.meter.after (w.use f e) := by
  cases e with
  | register | registerNative | edit | relocate => exact .inr ⟨fiber', h, rfl⟩
  | spawn =>
    simp only [perform, fiber?_spawn] at h
    split at h
    · exact .inl ⟨‹_›, (Option.some.inj h).symm⟩
    · exact .inr ⟨fiber', h, rfl⟩
  | drop id =>
    have hne : f ≠ id := by
      rintro rfl
      cases fiber?_drop_self.symm.trans h
    exact .inr ⟨fiber', (fiber?_drop_of_ne hne).symm.trans h, rfl⟩
  | configure id setting => exact .inr (meter_modifyFiber (·.meter_configure setting) h)
  | start id entry =>
    rcases perform_start_cases w id entry with heq | ⟨fiber, hf, -, -, heq⟩
    · rw [heq] at h
      exact .inr ⟨fiber', h, rfl⟩
    · rw [heq] at h
      obtain ⟨fiber, hf, hmeter⟩ :=
        meter_update (u := .idle) hf (Context.meter_start _ entry .host) h
      exact .inr ⟨fiber, hf, by rwa [ite_self] at hmeter⟩
  | advance id =>
    cases hf : w.fiber? id with
    | none =>
      rw [perform, drive, hf] at h
      refine .inr ⟨fiber', h, ?_⟩
      have hne : id ≠ f := by
        rintro rfl
        cases hf.symm.trans h
      rw [use, if_neg hne]
      rfl
    | some fiber =>
      rw [perform, drive_eq_update hf] at h
      obtain ⟨fiber₀, hf₀, hmeter⟩ := meter_update hf (meter_drive _) h
      refine .inr ⟨fiber₀, hf₀, ?_⟩
      rw [hmeter, use]
      by_cases heq : id = f
      · subst heq
        rw [if_pos rfl, if_pos rfl, hf]
        rfl
      · rw [if_neg heq, if_neg heq]
  | expire id =>
    have hchange (fiber : Fiber) : fiber.expire.meter = fiber.meter.after .idle := rfl
    obtain ⟨fiber, hf, hmeter⟩ := meter_modifyFiber hchange h
    exact .inr ⟨fiber, hf, by rwa [ite_self] at hmeter⟩
  | rouse id =>
    simp only [perform] at h
    split at h
    · rename_i fiber hf
      split at h
      · rename_i hwaiting
        have huse : fiber.activity.use = .idle := by
          unfold Activity.isWaiting at hwaiting
          split at hwaiting
          · rename_i heq
            rw [heq]
            rfl
          · cases hwaiting
        obtain ⟨fiber, hf, hmeter⟩ := meter_update hf (Context.meter_advance _) h
        exact .inr ⟨fiber, hf, by rwa [huse, ite_self] at hmeter⟩
      · exact .inr ⟨fiber', h, rfl⟩
    · exact .inr ⟨fiber', h, rfl⟩

/-- Every fiber has a valid meter. -/
theorem valid_perform (e : Event) (h : ∀ fiber, w.fiber? f = some fiber → fiber.meter.Valid)
    (fiber' : Fiber) (hf : (w.perform e).fiber? f = some fiber') : fiber'.meter.Valid := by
  rcases meter_perform e hf with ⟨-, rfl⟩ | ⟨fiber, hfiber, hmeter⟩
  · exact Meter.valid_default
  · rw [hmeter]
    exact (h fiber hfiber).after _

theorem valid_run (events : List Event)
    (h : ∀ fiber, w.fiber? f = some fiber → fiber.meter.Valid) (fiber' : Fiber)
    (hf : (w.run events).fiber? f = some fiber') : fiber'.meter.Valid := by
  induction events generalizing w with
  | nil => exact h fiber' hf
  | cons e events ih => exact ih (valid_perform e h) hf

theorem size_fibers_update (w : World) (id : FiberId) (c : Context) :
    (w.update id c).fibers.size = w.fibers.size := Array.size_setIfInBounds

theorem size_fibers_perform (w : World) (e : Event) :
    w.fibers.size ≤ (w.perform e).fibers.size := by
  cases e with
  | register | registerNative | edit | relocate => exact Nat.le_refl _
  | spawn => exact Nat.le_trans (Nat.le_succ _) (Nat.le_of_eq (Array.size_push _).symm)
  | drop id => exact Nat.le_of_eq Array.size_setIfInBounds.symm
  | configure id setting => exact Nat.le_of_eq Array.size_modify.symm
  | start id entry =>
    rcases perform_start_cases w id entry with heq | ⟨_, _, _, _, heq⟩
    · exact Nat.le_of_eq (congrArg (·.fibers.size) heq).symm
    · exact Nat.le_of_eq ((congrArg (·.fibers.size) heq).trans (w.size_fibers_update _ _)).symm
  | advance id =>
    rcases perform_advance_cases w id with heq | ⟨_, _, _, _, heq⟩
    · exact Nat.le_of_eq (congrArg (·.fibers.size) heq).symm
    · exact Nat.le_of_eq ((congrArg (·.fibers.size) heq).trans (w.size_fibers_update _ _)).symm
  | expire id => exact Nat.le_of_eq Array.size_modify.symm
  | rouse id =>
    simp only [perform]
    split
    · split
      · exact Nat.le_of_eq (w.size_fibers_update _ _).symm
      · exact Nat.le_refl _
    · exact Nat.le_refl _

/-- The number of a fiber is not given again. -/
theorem fiber?_run_of_none (events : List Event) (hlt : f.index < w.fibers.size)
    (hf : w.fiber? f = none) : (w.run events).fiber? f = none := by
  induction events generalizing w with
  | nil => exact hf
  | cons e events ih =>
    refine ih (Nat.lt_of_lt_of_le hlt (w.size_fibers_perform e)) ?_
    cases hnext : (w.perform e).fiber? f with
    | none => rfl
    | some fiber' =>
      rcases meter_perform e hnext with ⟨heq, -⟩ | ⟨fiber, hfiber, -⟩
      · exact absurd heq (Nat.ne_of_lt hlt)
      · cases hf.symm.trans hfiber

/-- **What a stretch of a history does to the meter of a fiber.** -/
theorem meter_run (events : List Event) (hf : w.fiber? f = some fiber)
    (hf' : (w.run events).fiber? f = some fiber') :
    fiber'.meter = (w.uses f events).foldl Meter.after fiber.meter := by
  induction events generalizing w fiber with
  | nil =>
    cases hf.symm.trans hf'
    rfl
  | cons e events ih =>
    have hlt := lt_of_fiber? hf
    cases hnext : (w.perform e).fiber? f with
    | none =>
      have hlt' := Nat.lt_of_lt_of_le hlt (w.size_fibers_perform e)
      have hnone := fiber?_run_of_none events hlt' hnext
      cases hnone.symm.trans hf'
    | some fiber₁ =>
      rcases meter_perform e hnext with ⟨heq, -⟩ | ⟨fiber₀, hfiber, hmeter⟩
      · exact absurd heq (Nat.ne_of_lt hlt)
      · cases hf.symm.trans hfiber
        rw [ih hnext hf', hmeter]
        rfl

/--
**The allowance is what a budget admits.** In every reachable world a fiber is at least one
instruction from its next charge. Let it have a budget, and let `a` be its allowance. An iteration,
of whatever run, takes one off the allowance, and is refused exactly where nothing is left. What is
added to the budget is added to the allowance, until the budget is the largest one. In any later
world budgeting is still on, and if the number of instructions per unit was kept and the budget
never was the largest one, what is left and what was admitted is what there was and what was added.
-/
theorem allowance_exact (events : List Event) (f : FiberId) (fiber : Fiber)
    (hf : (run {} events).fiber? f = some fiber) :
    1 ≤ fiber.meter.counter ∧
    ∀ b a, fiber.meter.budget = some b → fiber.meter.allowance = some a →
      (∀ base caller, fiber.activity = .running base caller →
        let next := (Context.advance ⟨(run {} events).machine, f, fiber⟩).fiber
        (next.activity = .replied (.error .noBudget) caller ↔ a = 0) ∧
          next.meter.allowance = some (a - 1)) ∧
      (∀ amount, if b + amount ≤ Meter.maxBudget
        then (fiber.meter.allocate amount).allowance =
          some (a + amount * fiber.meter.stepsPerCharge)
        else (fiber.meter.allocate amount).budget = some Meter.maxBudget) ∧
      ∀ later fiber', ((run {} events).run later).fiber? f = some fiber' →
        let uses := (run {} events).uses f later
        (∃ b' ≤ Meter.maxBudget, fiber'.meter.budget = some b') ∧
        (Meter.Fixes fiber.meter.stepsPerCharge uses → b + Meter.added uses ≤ Meter.maxBudget →
          ∃ a', fiber'.meter.allowance = some a' ∧ a' + fiber.meter.admitted uses =
            a + Meter.added uses * fiber.meter.stepsPerCharge) := by
  have hempty (fiber : Fiber) (hfiber : fiber? {} f = some fiber) : fiber.meter.Valid := by
    simp [fiber?] at hfiber
  have hvalid := valid_run events hempty fiber hf
  refine ⟨hvalid.counter, fun b a hb ha => ⟨fun base caller hactivity => ?iteration,
    fun amount => ?added, fun later fiber' hf' => ?later⟩⟩
  case iteration =>
    obtain ⟨hmeter, hrefused⟩ :=
      Context.run_metered ⟨(run {} events).machine, f, fiber⟩ hactivity
    simp only [Context.advance, hactivity]
    rw [hmeter, hrefused]
    refine ⟨?_, Meter.allowance_iteration hvalid ha⟩
    rcases Meter.admit?_of_allowance hvalid ha with ⟨rfl, hnone⟩ | ⟨_, _, _, rfl, hsome, -⟩
    · simp [hnone]
    · simp [hsome]
  case added =>
    split
    · exact Meter.allowance_allocate hb ha ‹_›
    · simp only [Meter.allocate, hb, Option.getD_some]
      rw [Nat.min_eq_right (by omega)]
  case later =>
    have hmeter := meter_run later hf hf'
    have hsome := Meter.isSome_budget_foldl (Option.isSome_iff_exists.mpr ⟨b, hb⟩)
      ((run {} events).uses f later)
    rw [← hmeter] at hsome
    obtain ⟨b', hb'⟩ := Option.isSome_iff_exists.mp hsome
    have hvalid' := Meter.valid_foldl hvalid ((run {} events).uses f later)
    rw [← hmeter] at hvalid'
    refine ⟨⟨b', hvalid'.budget b' hb', hb'⟩, fun hfixed hadded => ?_⟩
    rw [hmeter]
    exact Meter.account_foldl hvalid hb ha hfixed hadded

/-- A fiber with one unit of two instructions is about to execute `idling`. -/
def rationed : List Event :=
  [.spawn, .configure ⟨0⟩ (.stepsPerCharge 2),
    .configure ⟨0⟩ (.budget 1), .start ⟨0⟩ (.execute idling .unlimited),
    .advance ⟨0⟩]

/-- It runs out of budget, is given two units more, and is resumed. -/
def replenished : List Event :=
  List.replicate 4 (.advance ⟨0⟩) ++
    [.configure ⟨0⟩ (.budget 2), .start ⟨0⟩ (.resume .unlimited)] ++
    List.replicate 2 (.advance ⟨0⟩)

/-- Three instructions are admitted and the fourth one is refused, then two are of four more. -/
theorem allowance_replenished :
    let w := run {} rationed
    ∃ fiber, w.fiber? ⟨0⟩ = some fiber ∧ fiber.meter.allowance = some 3 ∧
      fiber.activity.use = .iteration ∧ fiber.meter.admitted (w.uses ⟨0⟩ replenished) = 5 ∧
      ∀ fiber', (w.run replenished).fiber? ⟨0⟩ = some fiber' →
        ∃ a, fiber'.meter.allowance = some a ∧ a + 5 = 3 + 2 * 2 := by
  intro w
  have hfiber : (w.fiber? ⟨0⟩).map (fun fiber => (fiber.meter, fiber.activity.use)) =
      some (⟨some 1, 2, 2⟩, .iteration) := by decide +kernel
  have huses : w.uses ⟨0⟩ replenished =
      List.replicate 4 .iteration ++ [.setting (.budget 2), .idle] ++
        List.replicate 2 .iteration := by decide +kernel
  obtain ⟨fiber, hf, hboth⟩ := Option.map_eq_some_iff.mp hfiber
  obtain ⟨heq, hiteration⟩ := Prod.mk.inj hboth
  have hadmitted : fiber.meter.admitted (w.uses ⟨0⟩ replenished) = 5 := by
    rw [huses, heq]
    rfl
  have hfixed : Meter.Fixes 2 (w.uses ⟨0⟩ replenished) := by
    rw [huses]
    simp [Meter.Fixes]
  obtain ⟨-, h⟩ := allowance_exact rationed ⟨0⟩ fiber hf
  obtain ⟨-, -, hlater⟩ := h 1 3 (by rw [heq]) (by rw [heq]; rfl)
  refine ⟨fiber, hf, by rw [heq]; rfl, hiteration, hadmitted, fun fiber' hf' => ?_⟩
  obtain ⟨-, haccount⟩ := hlater replenished fiber' hf'
  obtain ⟨a, ha, hsum⟩ := haccount (by rw [heq]; exact hfixed) (by rw [huses]; decide)
  refine ⟨a, ha, ?_⟩
  rw [hadmitted, heq, huses] at hsum
  exact hsum

end World

end FiberMachine
