import FiberMachine.Proofs.Execution.Pause
import FiberMachine.Proofs.Execution.Unlimited
import FiberMachine.Proofs.Loading.Transition
import FiberMachine.Proofs.World.History

/-!
# Schedules

The host may limit the budget and the time of an execution, and resume it each time that it pauses.
If the programs of the host run no guest code, such an execution comes to what it comes to without
limits, unless a program of the host makes it pause (`Context.scheduled_iff_uninterrupted`).
-/

namespace FiberMachine

/-- Whether an entry of the host has ended so that it can be resumed. -/
def Activity.isPaused : Activity → Bool
  | .replied (.error failure) .host => failure.isPause
  | _ => false

/-- What the host does to an execution that it has started. -/
inductive Control where
  | advance
  | budget (amount : Nat)
  | stepsPerCharge (steps : Nat)
  /-- Resumes the execution, if it is paused. -/
  | resume (limit : Limit)

namespace Context

def control (c : Context) : Control → Context
  | .advance => c.advance
  | .budget amount => ⟨c.machine, c.id, c.fiber.configure (.budget amount)⟩
  | .stepsPerCharge steps => ⟨c.machine, c.id, c.fiber.configure (.stepsPerCharge steps)⟩
  | .resume limit => if c.fiber.activity.isPaused then c.start (.resume limit) .host else c

/-- An entry of the host under a schedule. -/
def scheduled (c : Context) (entry : Entry) (controls : List Control) : Context :=
  controls.foldl control (c.start entry .host)

/--
An entry of the host after `n` transitions, with budgeting disabled and no deadline, even if
programs of the host set them. If none does, this is the plain run of the fiber (`unlimited_drive`).
-/
def uninterrupted (c : Context) (entry : Entry) : Nat → Context
  | 0 => (c.unlimited.start entry.unlimited .host).unlimited
  | n + 1 => (c.uninterrupted entry n).advance.unlimited

variable {c s u : Context} {entry : Entry}

theorem scheduled_concat (controls : List Control) (last : Control) :
    c.scheduled entry (controls ++ [last]) = (c.scheduled entry controls).control last := by
  rw [scheduled, List.foldl_append]
  rfl

/-- A fiber that does not wait makes a transition, if only to stay as it is. -/
theorem drive_one (h : ∀ id object pending, c.fiber.activity ≠ .waiting id object pending) :
    drive 1 c = c.advance := by
  by_cases hsettled : c.isSettled
  · rw [drive_of_isSettled hsettled]
    unfold isSettled at hsettled
    unfold advance
    split at hsettled
    · rename_i hactivity
      rw [hactivity]
    · rename_i hactivity
      rw [hactivity]
    · exact absurd ‹_› (h _ _ _)
    · exact nomatch hsettled
  · simp only [drive, if_neg hsettled]

theorem advance_of_replied {outcome : Except Failure Value}
    (h : c.fiber.activity = .replied outcome .host) : c.advance = c := by
  rw [advance, h]

/-! ## A fiber that is alone -/

/-- No other fiber loads a module, and this one does not wait for any. -/
structure Alone (c : Context) : Prop where
  loading : ∀ id g, c.machine.state? id = some (.loading g) → g = c.id
  plain : c.fiber.activity.Plain fun _ => False

theorem Leads.alone {c' : Context} {loads refused : List ModuleId} (H : c.Leads loads refused c')
    (h : ∀ id g, c.machine.state? id = some (.loading g) → g = c.id) : c'.Alone := by
  have hloading : ∀ id g, c'.machine.state? id = some (.loading g) → g = c'.id := by
    rw [H.id]
    exact H.moves.eq_of_loading h
  exact ⟨hloading, H.plain.mono fun id ⟨g, hne, hg⟩ => hne (hloading id g hg)⟩

theorem Alone.advance (H : c.Alone) : c.advance.Alone := (c.advance_leads H.plain).alone H.loading

theorem Alone.not_waiting (H : c.Alone) (id : ModuleId) (object : Bool) (pending : Pending) :
    c.fiber.activity ≠ .waiting id object pending := by
  intro h
  have hplain := H.plain
  rw [h] at hplain
  exact hplain.1

theorem Alone.unlimited (H : c.Alone) : c.unlimited.Alone := ⟨H.loading, H.plain⟩

/-! ## The outermost run -/

/-- Nothing but the outermost run executes guest code, and it does not pause. -/
structure Outermost (u : Context) : Prop where
  waiting : ∀ id object pending, u.fiber.activity ≠ .waiting id object pending
  running : ∀ base caller, u.fiber.activity = .running base caller →
    base = 0 ∧ caller = .host ∧ u.fiber.frames ≠ []
  paused : u.fiber.activity.isPaused = false

/-- Busy on behalf of the host, for which alone guest code runs. -/
abbrev ForHost (u : Context) : Prop := u.Nested (· = .host) (.caller .host) []

theorem ForHost.unlimited (H : u.ForHost) : u.unlimited.ForHost := ⟨H.activity, H.frames⟩

theorem outermost_of_forHost (halone : u.Alone) (H : u.ForHost)
    (hpaused : u.fiber.activity.isPaused = false) : u.Outermost := by
  refine ⟨halone.not_waiting, fun base caller h => ?_, hpaused⟩
  obtain ⟨habove, rfl, hwithin⟩ : caller.Runs (· = .host) (.caller .host) 0 base _ := by
    have hactivity := H.activity
    rw [h] at hactivity
    exact hactivity
  cases hwithin with
  | root _ => exact ⟨rfl, rfl, List.ne_nil_of_length_pos habove⟩

theorem admits_host
    (hnative : ∀ base caller, u.fiber.activity = .running base caller → caller = .host)
    (hpaused : u.fiber.activity.isPaused = false) : u.Admits (· = .host) [] := by
  refine ⟨hnative, ?_⟩
  rintro _ failure _ hfailure rfl h
  rw [h] at hpaused
  exact nomatch hpaused.symm.trans hfailure

theorem ForHost.advance (H : u.ForHost)
    (hnative : ∀ base caller, u.advance.fiber.activity = .running base caller → caller = .host)
    (hpaused : u.advance.fiber.activity.isPaused = false) : u.advance.ForHost := by
  by_cases hreturns : u.fiber.activity.Returns (.caller .host)
  · cases hactivity : u.fiber.activity with
    | replied outcome caller =>
      rw [hactivity] at hreturns
      cases hreturns
      rw [advance_of_replied hactivity]
      exact H
    | answered =>
      rw [hactivity] at hreturns
      cases hreturns
    | _ =>
      rw [hactivity] at hreturns
      exact hreturns.elim
  · refine Nested.advance H hreturns (fun hresumes => ?_) (admits_host hnative hpaused)
    obtain ⟨hframes, limit, next, purpose, hlimit, hactivity⟩ := hresumes
    obtain ⟨deadline, hstart⟩ := start_resume hframes hlimit (.program next purpose)
    have hadvance : u.advance = u.start (.resume limit) (.program next purpose) := by
      rw [Context.advance, hactivity]
      rfl
    rw [hadvance, hstart] at hnative
    cases hnative _ _ rfl

/-! ## Runs with and without limits -/

/-- A run with limits has come as far as the run `u` without, or pauses there. -/
inductive Follows (u : Context) : Context → Prop where
  | live {s : Context} : s.unlimited = u → Follows u s
  | paused {s : Context} {failure : Failure} : failure.isPause →
      s.fiber.activity = .replied (.error failure) .host →
      (s.setActivity (.running 0 .host)).unlimited = u → Follows u s

/-- A transition either keeps up with the run without limits or pauses. -/
theorem Follows.advance (H : Follows u s) (hu : u.Outermost) :
    Follows u s.advance ∨ Follows u.advance.unlimited s.advance := by
  cases H with
  | paused hfailure hactivity hs =>
    rw [advance_of_replied hactivity]
    exact .inl (.paused hfailure hactivity hs)
  | live hs =>
    subst hs
    by_cases hheld : ∃ base caller, s.fiber.activity = .running base caller ∧ s.fiber.isHeldUp
    · obtain ⟨base, caller, hactivity, hheld⟩ := hheld
      obtain ⟨rfl, rfl, -⟩ := hu.running base caller hactivity
      obtain ⟨failure, hfailure, hrun⟩ := run_of_isHeldUp hheld .host
      have hadvance : s.advance = s.run 0 .host := by rw [Context.advance, hactivity]
      rw [hadvance]
      refine .inl (.paused hfailure (congrArg (·.fiber.activity) hrun) ?_)
      have hback := congrArg (·.setActivity (.running 0 .host)) hrun
      refine hback.trans ?_
      rw [← hactivity]
      rfl
    · refine .inr (.live (unlimited_advance hu.waiting fun base caller hactivity => ?_))
      cases h : s.fiber.isHeldUp with
      | false => rfl
      | true => exact absurd ⟨base, caller, hactivity, h⟩ hheld

/-- The execution goes on at the instruction before which it paused. -/
theorem Follows.resume (H : Follows u s) (hu : u.Outermost) (hpaused : s.fiber.activity.isPaused)
    (limit : Limit) : Follows u (s.start (.resume limit) .host) := by
  cases H with
  | live hs =>
    subst hs
    exact nomatch hu.paused.symm.trans hpaused
  | paused hfailure hactivity hs =>
    have hframes : s.fiber.frames ≠ [] := by
      subst hs
      exact (hu.running 0 .host rfl).2.2
    by_cases hlimit : limit = .unrepresentable
    · subst hlimit
      exact .paused (show Failure.timeout.isPause from rfl) rfl hs
    · obtain ⟨deadline, hstart⟩ := start_resume hframes hlimit .host
      rw [hstart]
      exact .live hs

theorem Follows.control (H : Follows u s) (hu : u.Outermost) (control : Control) :
    Follows u (s.control control) ∨ Follows u.advance.unlimited (s.control control) := by
  cases control with
  | advance => exact H.advance hu
  | budget amount | stepsPerCharge steps =>
    left
    cases H with
    | live hs => exact .live hs
    | paused hfailure hactivity hs => exact .paused hfailure hactivity hs
  | resume limit =>
    simp only [Context.control]
    split
    · exact .inl (H.resume hu ‹_› limit)
    · exact .inl H

/-- **A schedule neither skips, repeats nor alters a transition** of the run without limits. -/
theorem exists_follows_scheduled (hentry : entry.isRepresentable)
    (hu : ∀ n, (c.uninterrupted entry n).Outermost) (controls : List Control) :
    ∃ n, Follows (c.uninterrupted entry n) (c.scheduled entry controls) := by
  have hrun (s : Context) (controls : List Control) (n : Nat)
      (H : Follows (c.uninterrupted entry n) s) :
      ∃ n, Follows (c.uninterrupted entry n) (controls.foldl Context.control s) := by
    induction controls generalizing s n with
    | nil => exact ⟨n, H⟩
    | cons control controls ih =>
      rcases H.control (hu n) control with H | H
      · exact ih _ n H
      · exact ih _ (n + 1) H
  refine hrun _ controls 0 (.live ?_)
  rw [uninterrupted, start_unlimited _ hentry]
  exact c.unlimited_start entry .host

/-! ## The run without limits -/

/-- A run that has an outcome keeps it. -/
theorem uninterrupted_of_replied {outcome : Except Failure Value} {n n' : Nat}
    (h : (c.uninterrupted entry n).fiber.activity = .replied outcome .host) (hle : n ≤ n') :
    (c.uninterrupted entry n').fiber.activity = .replied outcome .host := by
  induction hle with
  | refl => exact h
  | step _ ih => rw [uninterrupted, advance_of_replied ih, unlimited_activity, ih]

theorem alone_uninterrupted
    (hsingle : ∀ id g, c.machine.state? id = some (.loading g) → g = c.id) (n : Nat) :
    (c.uninterrupted entry n).Alone := by
  induction n with
  | zero => exact ((Leads.start c.unlimited entry.unlimited .host).alone hsingle).unlimited
  | succ n ih => exact ih.advance.unlimited

theorem outermost_uninterrupted (hframes : c.fiber.frames = [])
    (hsingle : ∀ id g, c.machine.state? id = some (.loading g) → g = c.id)
    (hnative : ∀ n base caller,
      (c.uninterrupted entry n).fiber.activity = .running base caller → caller = .host)
    (hpaused : ∀ n, (c.uninterrupted entry n).fiber.activity.isPaused = false) (n : Nat) :
    (c.uninterrupted entry n).Outermost := by
  have hhost : (c.uninterrupted entry n).ForHost := by
    induction n with
    | zero =>
      have hlength : c.unlimited.fiber.frames.length = 0 := by
        rw [unlimited_frames, hframes]
        rfl
      have H : (c.unlimited.start entry.unlimited .host).ForHost :=
        .start c.unlimited List.nil_suffix (hlength ▸ .root rfl) (fun _ _ _ => hframes)
          (admits_host (hnative 0) (hpaused 0))
      exact H.unlimited
    | succ n ih => exact (ih.advance (hnative (n + 1)) (hpaused (n + 1))).unlimited
  exact outermost_of_forHost (alone_uninterrupted hsingle n) hhost (hpaused n)

/-- The run without limits is that of a fiber whose budget is off and that has no deadline. -/
theorem unlimited_drive (hsingle : ∀ id g, c.machine.state? id = some (.loading g) → g = c.id)
    {n : Nat} (hoff : ∀ k, k < n →
      (drive k (c.unlimited.start entry.unlimited .host)).fiber.meter.budget = none ∧
      (drive k (c.unlimited.start entry.unlimited .host)).fiber.deadline = none) :
    (drive n (c.unlimited.start entry.unlimited .host)).unlimited = c.uninterrupted entry n := by
  induction n with
  | zero => rfl
  | succ n ih =>
    have hsame := ih fun k hk => hoff k (Nat.lt_succ_of_lt hk)
    obtain ⟨hbudget, hdeadline⟩ := hoff n (Nat.lt_succ_self n)
    rw [drive_add_one]
    generalize drive n (c.unlimited.start entry.unlimited .host) = d at *
    have hwait : ∀ id object pending, d.fiber.activity ≠ .waiting id object pending := by
      have halone : (c.uninterrupted entry n).Alone := alone_uninterrupted hsingle n
      rw [← hsame] at halone
      exact halone.not_waiting
    have hheld : d.fiber.isHeldUp = false := Fiber.isHeldUp_of_off hbudget hdeadline
    rw [drive_one hwait, unlimited_advance hwait fun _ _ _ => hheld, hsame, uninterrupted]

theorem eq_replied_of_isPaused (h : c.fiber.activity.isPaused) :
    ∃ failure, failure.isPause ∧ c.fiber.activity = .replied (.error failure) .host := by
  unfold Activity.isPaused at h
  split at h
  · exact ⟨_, h, ‹_›⟩
  · exact nomatch h

/--
**An execution that pauses and is resumed comes to what it comes to without limits** if and only if
it does not pause without limits, as it does if a program of the host ends like that. The programs
of the host run no guest code, and no other fiber is loading modules. As long as no program of the
host sets a budget or a deadline, the run without limits is how the fiber is driven.
-/
theorem scheduled_iff_uninterrupted {controls : List Control} {outcome : Except Failure Value}
    (hframes : c.fiber.frames = [])
    (hsingle : ∀ id g, c.machine.state? id = some (.loading g) → g = c.id)
    (hentry : entry.isRepresentable)
    (hnative : ∀ n base caller,
      (c.uninterrupted entry n).fiber.activity = .running base caller → caller = .host)
    (houtcome : (c.scheduled entry controls).fiber.activity = .replied outcome .host)
    (hcompletes : (c.scheduled entry controls).fiber.activity.isPaused = false) :
    ((∃ n, (c.uninterrupted entry n).fiber.activity = .replied outcome .host ∧
      (c.uninterrupted entry n).machine = (c.scheduled entry controls).machine) ↔
    ∀ n, (c.uninterrupted entry n).fiber.activity.isPaused = false) ∧
    ∀ n, (∀ k, k < n →
        (drive k (c.unlimited.start entry.unlimited .host)).fiber.meter.budget = none ∧
        (drive k (c.unlimited.start entry.unlimited .host)).fiber.deadline = none) →
      (drive n (c.unlimited.start entry.unlimited .host)).unlimited = c.uninterrupted entry n := by
  refine ⟨?_, fun _ => unlimited_drive hsingle⟩
  constructor
  · rintro ⟨n, hn, -⟩ n'
    refine Bool.eq_false_iff.mpr fun hpaused => ?_
    obtain ⟨failure, hfailure, hn'⟩ := eq_replied_of_isPaused hpaused
    have hsame := (uninterrupted_of_replied hn (Nat.le_max_left n n')).symm.trans
      (uninterrupted_of_replied hn' (Nat.le_max_right n n'))
    rw [houtcome, hsame] at hcompletes
    exact nomatch hcompletes.symm.trans hfailure
  · intro hpaused
    obtain ⟨n, H⟩ := exists_follows_scheduled hentry
      (outermost_uninterrupted hframes hsingle hnative hpaused) controls
    cases H with
    | live hs => exact ⟨n, by rw [← hs, unlimited_activity, houtcome], by rw [← hs]; rfl⟩
    | paused hfailure hactivity _ =>
      rw [hactivity] at hcompletes
      exact nomatch hcompletes.symm.trans hfailure

/-- A guest function that calls its receiver. -/
def callingCode : Code where
  name := some "f"
  signature := {}
  captures := []
  instructions := #[{ opcode := .newArgs }, { opcode := .loadLocal, operand := 1 },
    { opcode := .pushNull }, { opcode := .call }, { opcode := .return }]

/-- Two native functions, and budget for one instruction. -/
def calling : Context where
  machine.heap.functions := #[
    { module := some ⟨0⟩, receiver := .null, body := .interpreted callingCode [] },
    { module := none, receiver := .null, body := .native "rest" fun _ _ => .ok .null },
    { module := none, receiver := .null, body := .native "spend" fun _ _ => .fail .noBudget }]
  machine.modules := #[{ name := "m", object := ⟨0⟩, body := none, constants := #[] }]
  id := ⟨0⟩
  fiber.meter := { budget := some 1, counter := 1, stepsPerCharge := 1 }

def callingEntry (native : Nat) : Entry := .call (.function ⟨0⟩) (.function ⟨native⟩) {}

/-- The frame of the guest function is at an instruction. -/
def callingAt (native instruction : Nat) (stack : List Value) (meter : Meter) : Context where
  machine := calling.machine
  id := calling.id
  fiber.frames := [{
    code := callingCode
    scope := { module := ⟨0⟩, constants := #[], globals := ⟨0⟩ }
    captures := [], slots := #[.function ⟨0⟩, .function ⟨native⟩], stack, instruction }]
  fiber.meter := meter
  fiber.activity := .running 0 .host

/-- Two pauses, one for the budget and one for the time. -/
def pausingTwice : List Control :=
  [.advance, .advance, .budget 10, .resume (.deadline .past), .advance, .resume .unlimited] ++
    List.replicate 5 .advance ++ [.advance]

/-- What the run without limits does in its seven transitions. -/
theorem uninterrupted_calling (n : Nat) :
    (calling.uninterrupted (callingEntry 1) n).fiber.activity.isPaused = false ∧
      ∀ base caller, (calling.uninterrupted (callingEntry 1) n).fiber.activity =
        .running base caller → caller = .host := by
  match n with
  | 0 | 1 | 2 | 3 | 6 =>
    refine ⟨rfl, fun base caller h => ?_⟩
    cases h
    rfl
  | 4 | 5 => exact ⟨rfl, fun base caller h => nomatch h⟩
  | n + 7 =>
    have hend : (calling.uninterrupted (callingEntry 1) 7).fiber.activity =
        .replied (.ok .null) .host := rfl
    rw [uninterrupted_of_replied hend (Nat.le_add_left 7 n)]
    exact ⟨rfl, nofun⟩

theorem scheduled_calling :
    ∃ n, (calling.uninterrupted (callingEntry 1) n).fiber.activity = .replied (.ok .null) .host ∧
      (calling.uninterrupted (callingEntry 1) n).machine =
        (calling.scheduled (callingEntry 1) pausingTwice).machine := by
  have hsingle : ∀ id g, calling.machine.state? id = some (.loading g) → g = calling.id := by
    rintro ⟨_ | index⟩ g h
    · exact nomatch h
    · exact nomatch h
  have houtcome : (calling.scheduled (callingEntry 1) pausingTwice).fiber.activity =
      .replied (.ok .null) .host := by
    have hreturn : calling.scheduled (callingEntry 1) ([.advance, .advance, .budget 10,
        .resume (.deadline .past), .advance, .resume .unlimited] ++ List.replicate 5 .advance) =
        callingAt 1 4 [.null] { budget := some 6, counter := 1, stepsPerCharge := 1 } := rfl
    rw [pausingTwice, scheduled_concat, hreturn]
    rfl
  have hcompletes : (calling.scheduled (callingEntry 1) pausingTwice).fiber.activity.isPaused =
      false := by
    rw [houtcome]
    rfl
  exact (scheduled_iff_uninterrupted rfl hsingle rfl (fun n => (uninterrupted_calling n).2)
    houtcome hcompletes).1.mpr fun n => (uninterrupted_calling n).1

/-- One pause, when the native function ends as if the budget were used up. -/
def pausingOnce : List Control :=
  List.replicate 6 .advance ++ [.resume .unlimited] ++ [.advance]

/-- Without limits the execution pauses, and to resume it ends with an error. -/
theorem resume_calling :
    (∀ n, 6 ≤ n → (calling.unlimited.uninterrupted (callingEntry 2) n).fiber.activity =
      .replied (.error .noBudget) .host) ∧
    ∃ e, (calling.unlimited.scheduled (callingEntry 2) pausingOnce).fiber.activity =
        .replied (.error (.exception (.error e))) .host ∧
      ((calling.unlimited.scheduled (callingEntry 2) pausingOnce).machine.heap.error? e).map
        Envelope.value = some Fault.invalidInstruction.raised := by
  have hend : (calling.unlimited.uninterrupted (callingEntry 2) 6).fiber.activity =
      .replied (.error .noBudget) .host := rfl
  have hcall : calling.unlimited.scheduled (callingEntry 2)
      (List.replicate 6 .advance ++ [.resume .unlimited]) =
      callingAt 2 3 [] { counter := 12 } := rfl
  rw [pausingOnce, scheduled_concat, hcall]
  exact ⟨fun n hn => uninterrupted_of_replied hend hn, ⟨0⟩, rfl, rfl⟩

end Context

end FiberMachine
