import FiberMachine.Execution
import FiberMachine.Proofs.Execution.Instruction

/-!
# Nested executions

While a program of the host runs guest code, what called the program waits for it, with its frames
at the bottom of the stack. `Fiber.Nested` says that a fiber is busy on behalf of such a root. It is
kept by every transition but those that go on with the root, resume its frames from within, or pause
a run that has no frames below it (`Context.Nested.advance`). So the frames of the root are what
they were when the root goes on (`Context.Nested.frames_eq`).
-/

namespace FiberMachine

/-- Whether an execution that ended like this can be resumed. -/
def Failure.isPause : Failure → Bool
  | .noBudget | .timeout => true
  | .exception _ | .link _ => false

/-- What waits for a nested execution. -/
inductive Root where
  | pending (pending : Pending)
  | caller (caller : Caller)

def Purpose.pending : Purpose → Pending
  | .call pending | .load _ pending => pending

mutual

/--
With `n` frames, what receives the result is nested in `root`, which waits with `k` frames, and
guest code runs for callers that `allowed` admits.
-/
inductive Pending.Within (allowed : Caller → Prop) (root : Root) (k : Nat) :
    Pending → Nat → Prop where
  | instruction {base n : Nat} {negate : Bool} {caller : Caller} :
      base < n → allowed caller → Caller.Within allowed root k caller base →
      Pending.Within allowed root k (.instruction base negate caller) n
  | entry {n : Nat} {caller : Caller} :
      Caller.Within allowed root k caller n → Pending.Within allowed root k (.entry caller) n

inductive Caller.Within (allowed : Caller → Prop) (root : Root) (k : Nat) :
    Caller → Nat → Prop where
  | root {caller : Caller} : root = .caller caller → Caller.Within allowed root k caller k
  | program {n : Nat} {next : Except Failure Value → Program} {purpose : Purpose} :
      Purpose.Within allowed root k purpose n →
      Caller.Within allowed root k (.program next purpose) n

inductive Purpose.Within (allowed : Caller → Prop) (root : Root) (k : Nat) :
    Purpose → Nat → Prop where
  | root {purpose : Purpose} : root = .pending purpose.pending →
      Purpose.Within allowed root k purpose k
  | nested {n : Nat} {purpose : Purpose} : Pending.Within allowed root k purpose.pending n →
      Purpose.Within allowed root k purpose n

end

/-- With `n` frames, those above the first `base` run for `caller`, nested in `root`. -/
structure Caller.Runs (allowed : Caller → Prop) (root : Root) (k base n : Nat) (caller : Caller) :
    Prop where
  above : base < n
  admitted : allowed caller
  within : caller.Within allowed root k base

/-- With `n` frames, the activity is nested in `root`, or is about to go on with it. -/
def Activity.Within (allowed : Caller → Prop) (root : Root) (k n : Nat) : Activity → Prop
  | .idle => False
  | .running base caller => caller.Runs allowed root k base n
  | .program _ purpose => purpose.Within allowed root k n
  | .finding _ pending | .found _ _ pending | .entering _ _ pending | .waiting _ _ pending =>
    pending.Within allowed root k n
  | .answered _ pending => pending.Within allowed root k n ∨ root = .pending pending ∧ n = k
  | .replied _ caller => caller.Within allowed root k n

/-- The next transition goes on with `root`. -/
def Activity.Returns (root : Root) : Activity → Prop
  | .answered _ pending => root = .pending pending
  | .replied _ caller => root = .caller caller
  | _ => False

/-- An entry has ended so that it can be resumed. -/
def Activity.Pauses : Activity → Prop
  | .replied (.error failure) _ => failure.isPause
  | _ => False

/-- A program is about to run the frames that are there. -/
def Fiber.Resumes (f : Fiber) : Prop :=
  f.frames ≠ [] ∧ ∃ limit next purpose, limit ≠ Limit.unrepresentable ∧
    f.activity = .program (.enter (.resume limit) next) purpose

/-- The fiber is busy on behalf of `root`, which waits with the frames `below`. -/
structure Fiber.Nested (allowed : Caller → Prop) (root : Root) (below : List Frame) (f : Fiber) :
    Prop where
  activity : f.activity.Within allowed root below.length f.frames.length
  frames : below <:+ f.frames

/-! ## Depths and sizes -/

variable {allowed : Caller → Prop} {root : Root} {k : Nat}

theorem Purpose.Within.pending {n : Nat} {purpose : Purpose} (H : purpose.Within allowed root k n) :
    purpose.pending.Within allowed root k n ∨ root = .pending purpose.pending ∧ n = k := by
  cases H with
  | root h => exact .inr ⟨h, rfl⟩
  | nested H => exact .inl H

theorem Caller.Within.purpose {n : Nat} {caller : Caller} (H : caller.Within allowed root k n)
    (h : root ≠ .caller caller) :
    ∃ next purpose, caller = .program next purpose ∧ purpose.Within allowed root k n := by
  cases H with
  | root hroot => exact absurd hroot h
  | program H => exact ⟨_, _, rfl, H⟩

mutual

theorem Pending.Within.le {n : Nat} {pending : Pending} : pending.Within allowed root k n → k ≤ n
  | .instruction hbase _ H => Nat.le_trans H.le (Nat.le_of_lt hbase)
  | .entry H => H.le

theorem Caller.Within.le {n : Nat} {caller : Caller} : caller.Within allowed root k n → k ≤ n
  | .root _ => Nat.le_refl k
  | .program H => H.le

theorem Purpose.Within.le {n : Nat} {purpose : Purpose} : purpose.Within allowed root k n → k ≤ n
  | .root _ => Nat.le_refl k
  | .nested H => H.le

end

noncomputable def Root.size : Root → Nat
  | .pending p => sizeOf p
  | .caller c => sizeOf c

theorem Purpose.size_pending (purpose : Purpose) : sizeOf purpose.pending < sizeOf purpose := by
  cases purpose <;> simp only [Purpose.pending, call.sizeOf_spec, load.sizeOf_spec] <;> omega

mutual

/-- What is nested in a root is larger than the root. -/
theorem Pending.Within.size_lt {n : Nat} {pending : Pending} :
    pending.Within allowed root k n → root.size < sizeOf pending
  | .instruction _ _ H => by
    have := H.size_le
    simp only [Pending.instruction.sizeOf_spec]
    omega
  | .entry H => by
    have := H.size_le
    simp only [Pending.entry.sizeOf_spec]
    omega

theorem Caller.Within.size_le {n : Nat} {caller : Caller} :
    caller.Within allowed root k n → root.size ≤ sizeOf caller
  | .root h => by
    subst h
    exact Nat.le_refl _
  | .program H => by
    have := H.size_lt
    simp only [Caller.program.sizeOf_spec]
    omega

theorem Purpose.Within.size_lt {n : Nat} {purpose : Purpose} :
    purpose.Within allowed root k n → root.size < sizeOf purpose
  | .root h => by
    subst h
    exact purpose.size_pending
  | .nested H => Nat.lt_trans H.size_lt purpose.size_pending

end

/-- The root goes on with as many frames as it waited with. -/
theorem Activity.Within.eq_of_returns {n : Nat} {activity : Activity}
    (H : activity.Within allowed root k n) (h : activity.Returns root) : n = k := by
  cases activity with
  | answered result pending =>
    subst h
    refine (H.resolve_left fun H => ?_).2
    exact Nat.lt_irrefl _ H.size_lt
  | replied outcome caller =>
    subst h
    cases H with
    | root => rfl
    | program H =>
      have := H.size_lt
      simp only [Root.size, Caller.program.sizeOf_spec] at this
      omega
  | _ => exact h.elim

/-! ## Frames -/

section Frames

variable {below frames : List Frame} {top : Frame} {base : Nat}

theorem suffix_of_suffix_cons (h : below <:+ top :: frames) (hl : below.length ≤ frames.length) :
    below <:+ frames := by
  rcases List.suffix_cons_iff.mp h with rfl | h
  · simp only [List.length_cons] at hl
    omega
  · exact h

/-- The top frame is not one of those below. -/
theorem suffix_cons_of_suffix_cons (h : below <:+ top :: frames)
    (hl : below.length ≤ frames.length) (top' : Frame) : below <:+ top' :: frames :=
  (suffix_of_suffix_cons h hl).trans (List.suffix_cons top' frames)

namespace Machine

/-- A run that has at most its top frame completes that one only. -/
theorem complete_of_le {m : Machine} {result : Except Value Value} {top : Frame}
    {rest : List Frame} (h : rest.length ≤ base) :
    complete base m result (top :: rest) = ⟨(m.conclude top.continuation result).2, rest,
      some (m.conclude top.continuation result).1⟩ := by
  have hempty : (rest.drop base).isEmpty = true :=
    List.isEmpty_iff.mpr (List.drop_eq_nil_iff.mpr h)
  unfold complete
  exact if_pos hempty

/-- Completing frames in a run leaves those below alone, and ends with all that are not its own. -/
theorem complete_frames (hl : below.length ≤ base) (m : Machine) (result : Except Value Value)
    (h : below <:+ frames) (hbase : base < frames.length) :
    below <:+ (complete base m result frames).frames ∧
      match (complete base m result frames).result with
      | none => base < (complete base m result frames).frames.length
      | some _ => (complete base m result frames).frames.length = base := by
  induction frames generalizing m result with
  | nil => exact absurd hbase (Nat.not_lt_zero base)
  | cons top rest ih =>
    have hrest : base ≤ rest.length := Nat.le_of_lt_succ hbase
    have hbelow : below <:+ rest := suffix_of_suffix_cons h (Nat.le_trans hl hrest)
    unfold complete
    generalize m.conclude top.continuation result = concluded
    obtain ⟨result, m'⟩ := concluded
    dsimp only
    split
    · rename_i hempty
      refine ⟨hbelow, ?_⟩
      have := List.drop_eq_nil_iff.mp (List.isEmpty_iff.mp hempty)
      exact Nat.le_antisymm this hrest
    · rename_i hmore
      have hlt : base < rest.length := by
        refine Nat.lt_of_not_le fun hle => hmore ?_
        exact List.isEmpty_iff.mpr (List.drop_eq_nil_iff.mpr hle)
      cases rest with
      | nil => exact absurd hlt (Nat.not_lt_zero base)
      | cons frame others =>
        have hl' : below.length ≤ others.length := Nat.le_trans hl (Nat.le_of_lt_succ hlt)
        cases result with
        | ok value => exact ⟨suffix_cons_of_suffix_cons hbelow hl' _, hlt⟩
        | error e =>
          dsimp only
          split
          · exact ⟨suffix_cons_of_suffix_cons hbelow hl' _, hlt⟩
          · exact ih m' (.error e) hbelow hlt

theorem discard_frames (hl : below.length ≤ base) (m : Machine) (h : below <:+ frames)
    (hbase : base ≤ frames.length) :
    below <:+ (discard base m frames).2 ∧ (discard base m frames).2.length = base := by
  induction frames generalizing m with
  | nil => exact ⟨h, (Nat.le_zero.mp hbase).symm⟩
  | cons top rest ih =>
    unfold discard
    split
    · rename_i hempty
      have := List.drop_eq_nil_iff.mp (List.isEmpty_iff.mp hempty)
      exact ⟨h, Nat.le_antisymm this hbase⟩
    · rename_i hmore
      have hrest : base ≤ rest.length := by
        refine Nat.le_of_lt_succ (Nat.lt_of_not_le fun hle => hmore ?_)
        exact List.isEmpty_iff.mpr (List.drop_eq_nil_iff.mpr hle)
      have hbelow : below <:+ rest := suffix_of_suffix_cons h (Nat.le_trans hl hrest)
      split
      · exact ih _ hbelow hrest
      · exact ih _ hbelow hrest

end Machine

end Frames

/-! ## Transitions -/

namespace Context

/-- The fiber is busy on behalf of `root`, which waits with the frames `below`. -/
abbrev Nested (allowed : Caller → Prop) (root : Root) (below : List Frame) (c : Context) : Prop :=
  c.fiber.Nested allowed root below

/--
What a transition may come to: guest code runs for callers that are allowed to, and a run with no
frames below it does not pause.
-/
structure Admits (allowed : Caller → Prop) (below : List Frame) (c : Context) : Prop where
  running : ∀ base caller, c.fiber.activity = .running base caller → allowed caller
  pausing : below = [] → ∀ failure caller, failure.isPause → allowed caller →
    c.fiber.activity ≠ .replied (.error failure) caller

variable {below : List Frame} {base : Nat} {caller : Caller} {pending : Pending}

theorem frames_finish (c : Context) (result : Except Fault Value) (caller : Caller) :
    (c.finish result caller).fiber.frames = c.fiber.frames := by
  unfold Context.finish
  split <;> rfl

namespace Nested

theorem answer (c : Context) (result : Except Fault Value) (h : below <:+ c.fiber.frames)
    (H : pending.Within allowed root below.length c.fiber.frames.length) :
    (c.answer result pending).Nested allowed root below := ⟨.inl H, h⟩

theorem finish (c : Context) (result : Except Fault Value) (h : below <:+ c.fiber.frames)
    (H : caller.Within allowed root below.length c.fiber.frames.length) :
    (c.finish result caller).Nested allowed root below := by
  unfold Context.finish
  split <;> exact ⟨H, h⟩

theorem complete (c : Context) (result : Except Value Value) (h : below <:+ c.fiber.frames)
    (H : caller.Runs allowed root below.length base c.fiber.frames.length) :
    (c.complete result base caller).Nested allowed root below := by
  obtain ⟨m, id, ⟨frames, meter, deadline, maxDepth, activity⟩⟩ := c
  obtain ⟨hbelow, hresult⟩ := m.complete_frames H.within.le result h H.above
  unfold Context.complete
  dsimp only
  generalize Machine.complete base m result frames = unwound at hbelow hresult
  obtain ⟨m', frames', finished⟩ := unwound
  match finished with
  | none => exact ⟨⟨hresult, H.admitted, H.within⟩, hbelow⟩
  | some (.ok value) =>
    cases hresult
    exact finish _ _ hbelow H.within
  | some (.error e) =>
    cases hresult
    exact finish _ _ hbelow H.within

/-- The top frame is one of the run's own. -/
theorem replace_top {c : Context} (h : below <:+ c.fiber.frames)
    (H : caller.Runs allowed root below.length base c.fiber.frames.length)
    {frame : Frame} {rest : List Frame} (hframes : c.fiber.frames = frame :: rest)
    (frame' : Frame) : below <:+ frame' :: rest := by
  have hbase := H.above
  rw [hframes] at h hbase
  exact suffix_cons_of_suffix_cons h (Nat.le_trans H.within.le (Nat.le_of_lt_succ hbase)) frame'

theorem raise (c : Context) (fault : Fault) (h : below <:+ c.fiber.frames)
    (H : caller.Runs allowed root below.length base c.fiber.frames.length) :
    (c.raise fault base caller).Nested allowed root below := by
  obtain ⟨m, id, ⟨frames, meter, deadline, maxDepth, activity⟩⟩ := c
  cases frames with
  | nil => exact absurd H.above (Nat.not_lt_zero base)
  | cons frame rest =>
    unfold Context.raise
    dsimp only [envelope]
    split
    · exact ⟨⟨H.above, H.admitted, H.within⟩, replace_top h H rfl _⟩
    · exact complete _ _ h H

/-- A run above other frames discards its own frames. -/
theorem abandon (c : Context) (fault : Fault) (h : below <:+ c.fiber.frames)
    (H : caller.Runs allowed root below.length base c.fiber.frames.length)
    (hadmits : (c.abandon fault base caller).Admits allowed below) :
    (c.abandon fault base caller).Nested allowed root below := by
  obtain ⟨m, id, f⟩ := c
  obtain ⟨hbelow, hlength⟩ := m.discard_frames H.within.le h (Nat.le_of_lt H.above)
  unfold Context.abandon at hadmits ⊢
  split at hadmits
  · rename_i hpause
    have hnil : below = [] := by
      refine List.eq_nil_of_length_eq_zero (Nat.le_zero.mp ?_)
      exact hpause.1 ▸ H.within.le
    rcases hpause.2 with rfl | rfl
    · exact absurd rfl (hadmits.pausing hnil .noBudget caller rfl H.admitted)
    · exact absurd rfl (hadmits.pausing hnil .timeout caller rfl H.admitted)
  · rename_i hpause
    rw [if_neg hpause]
    refine finish _ _ hbelow ?_
    rw [hlength]
    exact H.within

theorem fail (c : Context) (fault : Fault) (h : below <:+ c.fiber.frames)
    (H : caller.Runs allowed root below.length base c.fiber.frames.length)
    (hadmits : (c.fail fault base caller).Admits allowed below) :
    (c.fail fault base caller).Nested allowed root below := by
  unfold Context.fail at hadmits ⊢
  split at hadmits
  · rename_i hfatal
    rw [if_pos hfatal]
    exact abandon c fault h H hadmits
  · rename_i hfatal
    rw [if_neg hfatal]
    exact raise c fault h H

theorem deliver (c : Context) (value : Value) (h : below <:+ c.fiber.frames)
    (H : caller.Runs allowed root below.length base c.fiber.frames.length) :
    (c.deliver value base caller).Nested allowed root below := by
  obtain ⟨m, id, ⟨frames, meter, deadline, maxDepth, activity⟩⟩ := c
  cases frames with
  | nil => exact absurd H.above (Nat.not_lt_zero base)
  | cons frame rest => exact ⟨⟨H.above, H.admitted, H.within⟩, replace_top h H rfl _⟩

theorem enter (c : Context) (frame : Frame) (h : below <:+ c.fiber.frames)
    (H : pending.Within allowed root below.length c.fiber.frames.length)
    (hadmits : (c.enter frame pending).Admits allowed below) :
    (c.enter frame pending).Nested allowed root below := by
  cases H with
  | instruction hbase hallowed H =>
    unfold Context.enter
    dsimp only
    split
    · exact raise c .stackOverflow h ⟨hbase, hallowed, H⟩
    · exact ⟨⟨Nat.lt_succ_of_lt hbase, hallowed, H⟩, h.trans (List.suffix_cons _ _)⟩
  | entry H =>
    unfold Context.enter at hadmits ⊢
    dsimp only at hadmits ⊢
    split at hadmits
    · rename_i hfull
      rw [if_pos hfull]
      exact finish c _ h H
    · rename_i hfull
      rw [if_neg hfull]
      refine ⟨⟨Nat.lt_succ_self _, hadmits.running _ _ rfl, H⟩, h.trans (List.suffix_cons _ _)⟩

theorem proceed (c : Context) (invocation : Machine.Invocation) (h : below <:+ c.fiber.frames)
    (H : pending.Within allowed root below.length c.fiber.frames.length)
    (hadmits : (c.proceed invocation pending).Admits allowed below) :
    (c.proceed invocation pending).Nested allowed root below := by
  cases invocation with
  | complete value => exact answer c _ h H
  | enter frame => exact enter c frame h H hadmits
  | run program => exact ⟨.nested H, h⟩
  | fail fault => exact answer c _ h H

theorem call (c : Context) (callable receiver : Value) (args : Arguments)
    (h : below <:+ c.fiber.frames)
    (H : pending.Within allowed root below.length c.fiber.frames.length)
    (hadmits : (c.call callable receiver args pending).Admits allowed below) :
    (c.call callable receiver args pending).Nested allowed root below := proceed _ _ h H hadmits

theorem invoke (c : Context) (target : Value) (name : String) (args : Arguments)
    (h : below <:+ c.fiber.frames)
    (H : pending.Within allowed root below.length c.fiber.frames.length)
    (hadmits : (c.invoke target name args pending).Admits allowed below) :
    (c.invoke target name args pending).Nested allowed root below := proceed _ _ h H hadmits

theorem find (c : Context) (name : String) (h : below <:+ c.fiber.frames)
    (H : pending.Within allowed root below.length c.fiber.frames.length) :
    (c.find name pending).Nested allowed root below := by
  unfold Context.find
  split
  · exact ⟨H, h⟩
  · dsimp only
    split <;> exact ⟨H, h⟩

theorem adopt (c : Context) (name : String) (result : Except FinderError (Option LinkedModule))
    (h : below <:+ c.fiber.frames)
    (H : pending.Within allowed root below.length c.fiber.frames.length) :
    (c.adopt name result pending).Nested allowed root below := by
  unfold Context.adopt
  split
  · split <;> exact ⟨H, h⟩
  all_goals exact answer c _ h H

theorem load (c : Context) (id : ModuleId) (entry : ModuleEntry) (object : Bool)
    (h : below <:+ c.fiber.frames)
    (H : pending.Within allowed root below.length c.fiber.frames.length)
    (hadmits : (c.load id entry object pending).Admits allowed below) :
    (c.load id entry object pending).Nested allowed root below := by
  unfold Context.load at hadmits ⊢
  dsimp only at hadmits ⊢
  revert hadmits
  split
  · exact fun _ => ⟨.nested H, h⟩
  · split
    · exact fun hadmits => enter _ _ h H hadmits
    · exact fun _ => ⟨.inl H, h⟩

theorem enterModule (c : Context) (id : ModuleId) (object : Bool) (h : below <:+ c.fiber.frames)
    (H : pending.Within allowed root below.length c.fiber.frames.length)
    (hadmits : (c.enterModule id object pending).Admits allowed below) :
    (c.enterModule id object pending).Nested allowed root below := by
  unfold Context.enterModule at hadmits ⊢
  revert hadmits
  split
  · exact fun _ => answer c _ h H
  · split
    · exact fun _ => answer c _ h H
    · exact fun _ => answer c _ h H
    · split
      · exact fun _ => answer c _ h H
      · split
        · exact fun _ => answer c _ h H
        · exact fun _ => ⟨H, h⟩
    · exact load c id _ object h H

theorem wake (c : Context) (id : ModuleId) (object : Bool) (h : below <:+ c.fiber.frames)
    (H : pending.Within allowed root below.length c.fiber.frames.length) :
    (c.wake id object pending).Nested allowed root below := by
  unfold Context.wake
  dsimp only
  split
  · exact ⟨.inl H, h⟩
  · exact ⟨H, h⟩

theorem instruct (c : Context) (h : below <:+ c.fiber.frames)
    (hactivity : c.fiber.activity = .running base caller)
    (H : caller.Runs allowed root below.length base c.fiber.frames.length)
    (hadmits : (c.instruct base caller).Admits allowed below) :
    (c.instruct base caller).Nested allowed root below := by
  obtain ⟨m, id, ⟨frames, meter, deadline, maxDepth, activity⟩⟩ := c
  cases hactivity
  cases frames with
  | nil => exact absurd H.above (Nat.not_lt_zero base)
  | cons frame rest =>
    have hbelow := replace_top h H rfl
    obtain ⟨hbase, hallowed, Hcaller⟩ := H
    simp only [Context.instruct, Machine.onHeap] at hadmits ⊢
    generalize Exec.step.run ⟨m.heap, frame⟩ = stepped at hadmits
    obtain ⟨action, ⟨heap, frame'⟩⟩ := stepped
    match action with
    | .ok .next => exact ⟨⟨hbase, hallowed, Hcaller⟩, hbelow frame'⟩
    | .ok (.call callable receiver args negate) =>
      exact call _ _ _ _ (hbelow frame') (.instruction hbase hallowed Hcaller) hadmits
    | .ok (.invoke target name args) =>
      exact invoke _ _ _ _ (hbelow frame') (.instruction hbase hallowed Hcaller) hadmits
    | .ok (.load name) => exact ⟨.instruction hbase hallowed Hcaller, hbelow frame'⟩
    | .ok (.return value) => exact complete _ _ (hbelow frame') ⟨hbase, hallowed, Hcaller⟩
    | .error fault => exact fail _ _ (hbelow frame') ⟨hbase, hallowed, Hcaller⟩ hadmits

theorem run (c : Context) (h : below <:+ c.fiber.frames)
    (hactivity : c.fiber.activity = .running base caller)
    (H : caller.Runs allowed root below.length base c.fiber.frames.length)
    (hadmits : (c.run base caller).Admits allowed below) :
    (c.run base caller).Nested allowed root below := by
  unfold Context.run at hadmits ⊢
  revert hadmits
  split
  · exact abandon c .noBudget h H
  · rename_i meter charged _
    dsimp only
    split
    · exact abandon _ .timeout h H
    · exact instruct ⟨c.machine, c.id, { c.fiber with meter }⟩ h hactivity H

theorem start (c : Context) {entry : Entry} (h : below <:+ c.fiber.frames)
    (H : caller.Within allowed root below.length c.fiber.frames.length)
    (hresume : ∀ limit, entry = .resume limit → limit ≠ .unrepresentable → c.fiber.frames = [])
    (hadmits : (c.start entry caller).Admits allowed below) :
    (c.start entry caller).Nested allowed root below := by
  cases entry with
  | execute linked limit => cases limit <;> first | exact ⟨.entry H, h⟩ | exact ⟨H, h⟩
  | load name => exact ⟨.entry H, h⟩
  | call callable receiver args => exact call c callable receiver args h (.entry H) hadmits
  | invoke target name args => exact invoke c target name args h (.entry H) hadmits
  | resume limit =>
    cases limit with
    | unrepresentable => exact ⟨H, h⟩
    | unlimited | deadline d =>
      obtain ⟨m, id, ⟨frames, meter, deadline, maxDepth, activity⟩⟩ := c
      cases hresume _ rfl nofun
      exact ⟨H, h⟩

theorem step (c : Context) (program : Program) (purpose : Purpose) (h : below <:+ c.fiber.frames)
    (hactivity : c.fiber.activity = .program program purpose) (hresumes : ¬ c.fiber.Resumes)
    (H : purpose.Within allowed root below.length c.fiber.frames.length)
    (hadmits : (c.step program purpose).Admits allowed below) :
    (c.step program purpose).Nested allowed root below := by
  cases program with
  | finish result =>
    cases purpose with
    | call pending => exact ⟨H.pending, h⟩
    | load id pending => cases result <;> exact ⟨H.pending, h⟩
  | enter entry next =>
    refine start c h (.program H) (fun limit hentry hlimit => ?_) hadmits
    subst hentry
    refine Classical.byContradiction fun hframes => ?_
    exact hresumes ⟨hframes, limit, next, purpose, hlimit, hactivity⟩
  | newArray values next | newObject next | newFunction name module routine next
  | read target next | backtrace next => exact ⟨H, h⟩
  | configure setting next => cases setting <;> exact ⟨H, h⟩
  | update target update next =>
    simp only [Context.step]
    split <;> exact ⟨H, h⟩

/--
**A transition stays nested**, unless it goes on with the root, resumes the frames that are there or
comes to something that is not admitted.
-/
theorem advance {c : Context} (H : c.Nested allowed root below)
    (hreturns : ¬ c.fiber.activity.Returns root) (hresumes : ¬ c.fiber.Resumes)
    (hadmits : c.advance.Admits allowed below) : c.advance.Nested allowed root below := by
  obtain ⟨m, id, ⟨frames, meter, deadline, maxDepth, activity⟩⟩ := c
  obtain ⟨H, h⟩ := H
  cases activity with
  | idle => exact H.elim
  | running base caller => exact run _ h rfl H hadmits
  | program program purpose => exact step _ program purpose h rfl hresumes H hadmits
  | finding name pending => exact find _ name h H
  | found name result pending => exact adopt _ name result h H
  | entering module object pending => exact enterModule _ module object h H hadmits
  | waiting module object pending => exact wake _ module object h H
  | answered result pending =>
    cases H.resolve_right fun H => hreturns H.1 with
    | instruction hbase hallowed H' =>
      cases result with
      | ok value => exact deliver _ _ h ⟨hbase, hallowed, H'⟩
      | error fault => exact fail _ fault h ⟨hbase, hallowed, H'⟩ hadmits
    | entry H' =>
      cases result with
      | ok value => exact finish _ (.ok value) h H'
      | error fault => exact finish _ (.error fault) h H'
  | replied outcome caller =>
    obtain ⟨next, purpose, rfl, H'⟩ := Caller.Within.purpose H hreturns
    exact ⟨H', h⟩

/-- When the root goes on, its frames are those it waited with. -/
theorem frames_eq {c : Context} (H : c.Nested allowed root below)
    (h : c.fiber.activity.Returns root) : c.fiber.frames = below :=
  (H.frames.eq_of_length (H.activity.eq_of_returns h).symm).symm

end Nested

/--
Transitions of a fiber none of which goes on with `root` or resumes its frames. In between, other
fibers may do anything to the machine.
-/
inductive Passes (root : Root) (c : Context) : Context → Prop where
  | refl : Passes root c c
  | advance {c' : Context} (m : Machine) : Passes root c c' →
      ¬ c'.fiber.activity.Returns root → ¬ c'.fiber.Resumes →
      Passes root c { c'.advance with machine := m }

/-- Every transition is admitted if frames wait below, or if no entry pauses. -/
theorem admits_or_pauses (c : Context) (below : List Frame) :
    c.Admits (fun _ => True) below ∨ below = [] ∧ c.fiber.activity.Pauses := by
  by_cases h : below = [] ∧ c.fiber.activity.Pauses
  · exact .inr h
  · refine .inl ⟨fun _ _ _ => trivial, fun hbelow failure caller hpause _ heq => h ⟨hbelow, ?_⟩⟩
    rw [heq]
    exact hpause

/-- A fiber stays nested, unless there are no frames below and an entry has paused. -/
theorem Passes.nested_or_pauses {c c' : Context} (H : Passes root c c')
    (h : c.Nested (fun _ => True) root below) :
    c'.Nested (fun _ => True) root below ∨
      below = [] ∧ ∃ paused, Passes root c paused ∧ paused.fiber.activity.Pauses := by
  induction H with
  | refl => exact .inl h
  | @advance c' m H hreturns hresumes ih =>
    rcases ih with hnested | hpauses
    · rcases c'.advance.admits_or_pauses below with hadmits | ⟨hbelow, hpauses⟩
      · exact .inl (hnested.advance hreturns hresumes hadmits :)
      · exact .inr ⟨hbelow, _, .advance m H hreturns hresumes, hpauses⟩
    · exact .inr hpauses

theorem Passes.nested {c c' : Context} (H : Passes root c c') (hpos : below ≠ [])
    (h : c.Nested (fun _ => True) root below) : c'.Nested (fun _ => True) root below :=
  (H.nested_or_pauses h).resolve_right fun hpauses => hpos hpauses.1

end Context

end FiberMachine
