import FiberMachine.Proofs.World.Passage

/-!
# How long deadlines last

A deadline is given to an execution. When the execution has ended, the fiber has no deadline any
more, unless the execution ended with an error or there was nothing to execute
(`World.deadline_of_isAtRest`). A fiber without a deadline times out only if it is given another one
or if a program of the host says so.
-/

namespace FiberMachine

/-! ## Deadlines at rest -/

/--
The fiber has no deadline where it is at rest and has no frames, unless the last entry has ended
with an error, or was to resume a fiber that had no frames. The entries that the host has started
on the fiber are `starts`, the last one first.
-/
def Fiber.Unbound (f : Fiber) (starts : List (Fiber × Entry)) : Prop :=
  f.activity.isAtRest → f.frames = [] →
    f.deadline = none ∨ (∃ failure, f.activity = .replied (.error failure) .host) ∨
      ∃ before limit earlier, starts = (before, .resume limit) :: earlier ∧ before.frames = []

/-- The fiber has no deadline, and nothing has timed out. -/
structure Fiber.Unhurried (f : Fiber) : Prop where
  deadline : f.deadline = none
  timesOut : ¬ f.activity.TimesOut

namespace Context

variable {c c' : Context} {cause : Prop} {starts : List (Fiber × Entry)}

theorem Turns.unbound (H : c.Turns cause c') : c'.fiber.Unbound starts :=
  fun hrest hframes => (H.rest hrest hframes).imp_right .inl

theorem Turns.unhurried (H : c.Turns cause c') (hdeadline : c.fiber.deadline = none)
    (hcause : ¬ cause) : c'.fiber.Unhurried :=
  ⟨(H.deadline hdeadline).resolve_right hcause, fun hout => hcause (H.timesOut hout)⟩

theorem start_unbound (c : Context) (entry : Entry) (caller : Caller) :
    (c.start entry caller).fiber.Unbound ((c.fiber, entry) :: starts) := by
  rcases c.start_cases entry caller with H | ⟨limit, rfl, hframes, -⟩
  · exact H.unbound
  · exact fun _ _ => .inr (.inr ⟨c.fiber, limit, starts, rfl, hframes⟩)

theorem start_unhurried (hdeadline : c.fiber.deadline = none) {entry : Entry}
    (hentry : ¬ entry.Timed) (caller : Caller) : (c.start entry caller).fiber.Unhurried := by
  rcases c.start_cases entry caller with H | ⟨limit, rfl, -, deadline, outcome, hlimit, heq⟩
  · exact H.unhurried hdeadline hentry
  · obtain ⟨rfl, rfl⟩ := hlimit (Decidable.not_not.mp hentry)
    rw [heq]
    exact ⟨hdeadline, nofun⟩

theorem advance_unbound (h : ¬ c.fiber.activity.isAtRest) : c.advance.fiber.Unbound starts := by
  rcases c.advance_cases h with H | ⟨-, H⟩ | ⟨_, _, _, _, -, -, -, -, heq⟩
  · exact H.unbound
  · exact H.unbound
  · rw [heq]
    exact nofun

theorem advance_unhurried (h : ¬ c.fiber.activity.isAtRest) (hfiber : c.fiber.Unhurried)
    (htimed : ¬ c.fiber.activity.Timed) : c.advance.fiber.Unhurried := by
  have hcause : ¬ c.fiber.Timed := by
    rintro (hdeadline | hout | hprogram)
    · exact hdeadline hfiber.deadline
    · exact hfiber.timesOut hout
    · exact htimed hprogram
  rcases c.advance_cases h with H | ⟨-, H⟩ | ⟨_, _, _, _, -, -, -, -, heq⟩
  · exact H.unhurried hfiber.deadline hcause
  · exact H.unhurried hfiber.deadline hcause
  · rw [heq]
    exact ⟨hfiber.deadline, not_false⟩

end Context

namespace World

variable {w w' : World} {f : FiberId} {starts : List (Fiber × Entry)}

theorem Leaves.unbound (H : w.Leaves w')
    (h : ∀ fiber, w.fiber? f = some fiber → fiber.Unbound starts) (fiber' : Fiber)
    (hf : w'.fiber? f = some fiber') : fiber'.Unbound starts := by
  intro hrest hframes
  rcases H.fiber f fiber' hf with rfl | ⟨fiber, hfiber, hsame, hactivity, hdeadline⟩
  · exact .inl rfl
  · rw [hactivity] at hrest ⊢
    exact (h fiber hfiber hrest (hsame ▸ hframes)).imp_left hdeadline

theorem Leaves.unhurried (H : w.Leaves w')
    (h : ∀ fiber, w.fiber? f = some fiber → fiber.Unhurried) (fiber' : Fiber)
    (hf : w'.fiber? f = some fiber') : fiber'.Unhurried := by
  rcases H.fiber f fiber' hf with rfl | ⟨fiber, hfiber, -, hactivity, hdeadline⟩
  · exact ⟨rfl, not_false⟩
  · exact ⟨hdeadline (h fiber hfiber).deadline, hactivity ▸ (h fiber hfiber).timesOut⟩

/-- An event keeps the fiber from having a deadline without a reason. -/
theorem unbound_perform (e : Event) (h : ∀ fiber, w.fiber? f = some fiber → fiber.Unbound starts)
    (fiber' : Fiber) (hf : (w.perform e).fiber? f = some fiber') :
    fiber'.Unbound (w.starts f e ++ starts) := by
  have H := w.passage e
  generalize w.perform e = w' at H hf
  cases H with
  | leave hleaves hstarts =>
    rw [hstarts f]
    exact hleaves.unbound h fiber' hf
  | start hfiber _ hstarts =>
    rw [hstarts f]
    rcases fiber?_of_update hfiber hf with ⟨rfl, rfl⟩ | ⟨hne, hf⟩
    · rw [if_pos rfl]
      exact Context.start_unbound _ _ _
    · rw [if_neg hne.symm]
      exact h fiber' hf
  | advance hfiber hrest hstarts =>
    rw [hstarts f]
    rcases fiber?_of_update hfiber hf with ⟨rfl, rfl⟩ | ⟨_, hf⟩
    · exact Context.advance_unbound hrest
    · exact h fiber' hf

theorem unbound_run (events : List Event)
    (h : ∀ fiber, w.fiber? f = some fiber → fiber.Unbound starts) (fiber' : Fiber)
    (hf : (w.run events).fiber? f = some fiber') :
    fiber'.Unbound (allStarts f w events ++ starts) := by
  induction events generalizing w starts with
  | nil => exact h fiber' hf
  | cons e events ih =>
    rw [allStarts, List.append_assoc]
    exact ih (unbound_perform e h) hf

/-! ## Reasons to time out -/

/-- A program on `f` is about to time out or to set a deadline, or the host starts a timed entry. -/
def Times (w : World) (f : FiberId) (e : Event) : Prop :=
  (∃ fiber ∈ w.fiber? f, fiber.activity.Timed) ∨ ∃ start ∈ w.starts f e, start.2.Timed

instance decidableTimes (w : World) (f : FiberId) (e : Event) : Decidable (w.Times f e) :=
  inferInstanceAs (Decidable (_ ∨ _))

/-- In no event is there a reason for `f` to time out. -/
def Untimed (f : FiberId) (w : World) (events : List Event) : Prop :=
  w.Throughout (fun w e => ¬ w.Times f e) events

instance decidableUntimed (f : FiberId) (w : World) (events : List Event) :
    Decidable (Untimed f w events) := inferInstanceAs (Decidable (w.Throughout _ events))

theorem not_timed_of_mem_starts {e : Event} (he : ¬ w.Times f e) {fiber : Fiber} {entry : Entry}
    (h : (fiber, entry) ∈ w.starts f e) : ¬ entry.Timed := by
  intro hentry
  exact he (.inr ⟨(fiber, entry), h, hentry⟩)

/-- An untimed entry on a fiber at rest that has no deadline. -/
theorem unhurried_start {fiber : Fiber} {entry : Entry} (hf : w.fiber? f = some fiber)
    (hrest : fiber.activity.isAtRest) (hdeadline : fiber.deadline = none)
    (he : ¬ w.Times f (.start f entry)) (fiber' : Fiber)
    (hf' : (w.perform (.start f entry)).fiber? f = some fiber') : fiber'.Unhurried := by
  have hstarts : (fiber, entry) ∈ w.starts f (.start f entry) := by
    simp only [starts, hf, hrest, and_self, if_true, List.mem_singleton]
  have heq : w.perform (.start f entry) =
      w.update f (Context.start ⟨w.machine, f, fiber⟩ entry .host) := by
    simp only [perform, hf, hrest, if_true, start_eq_update hf]
  rw [heq, fiber?_update_self hf] at hf'
  cases hf'
  exact Context.start_unhurried hdeadline (not_timed_of_mem_starts he hstarts) .host

theorem unhurried_perform {e : Event} (h : ∀ fiber, w.fiber? f = some fiber → fiber.Unhurried)
    (he : ¬ w.Times f e) (fiber' : Fiber) (hf : (w.perform e).fiber? f = some fiber') :
    fiber'.Unhurried := by
  have H := w.passage e
  generalize w.perform e = w' at H hf
  cases H with
  | leave hleaves _ => exact hleaves.unhurried h fiber' hf
  | @start id fiber entry hfiber _ hstarts =>
    rcases fiber?_of_update hfiber hf with ⟨rfl, rfl⟩ | ⟨_, hf⟩
    · refine Context.start_unhurried (h fiber hfiber).deadline ?_ .host
      apply not_timed_of_mem_starts he
      rw [hstarts, if_pos rfl]
      exact List.mem_singleton_self _
    · exact h fiber' hf
  | @advance id fiber hfiber hrest _ =>
    rcases fiber?_of_update hfiber hf with ⟨rfl, rfl⟩ | ⟨_, hf⟩
    · have hprogram : ¬ fiber.activity.Timed := fun htimed => he (.inl ⟨fiber, hfiber, htimed⟩)
      exact Context.advance_unhurried hrest (h fiber hfiber) hprogram
    · exact h fiber' hf

theorem unhurried_run {events : List Event}
    (h : ∀ fiber, w.fiber? f = some fiber → fiber.Unhurried) (hevents : Untimed f w events)
    (fiber' : Fiber) (hf : (w.run events).fiber? f = some fiber') : fiber'.Unhurried := by
  induction events generalizing w with
  | nil => exact h fiber' hf
  | cons e events ih => exact ih (unhurried_perform h hevents.1) hevents.2 hf

/-! ## Reachable worlds -/

/--
**A deadline ends with the entry that it was given to, unless the entry fails.** A fiber that is at
rest and has no frames has no deadline, except where the host was told of an error, and where the
host resumed the fiber when it had no frames. A fiber at rest that has no deadline does not get one,
and no later entry times out, as long as no program on the fiber and no entry asks for it.
-/
theorem deadline_of_isAtRest (events : List Event) (f : FiberId) (fiber : Fiber)
    (hf : (run {} events).fiber? f = some fiber) (hrest : fiber.activity.isAtRest) :
    (fiber.frames = [] →
      fiber.deadline = none ∨ (∃ failure, fiber.activity = .replied (.error failure) .host) ∨
        ∃ before limit earlier, allStarts f {} events = (before, .resume limit) :: earlier ∧
          before.frames = []) ∧
    (fiber.deadline = none → ∀ entry later fiber',
      Untimed f (run {} events) (.start f entry :: later) →
      ((run {} events).run (.start f entry :: later)).fiber? f = some fiber' →
      fiber'.deadline = none ∧ ¬ fiber'.activity.TimesOut) := by
  constructor
  · have hempty (fiber : Fiber) (hfiber : fiber? {} f = some fiber) : fiber.Unbound [] := by
      simp [fiber?] at hfiber
    have h := unbound_run events hempty fiber hf hrest
    rwa [List.append_nil] at h
  · intro hdeadline entry later fiber' huntimed hf'
    obtain ⟨hfirst, hlater⟩ := huntimed
    have h := unhurried_run (unhurried_start hf hrest hdeadline hfirst) hlater fiber' hf'
    exact ⟨h.deadline, h.timesOut⟩

/-- A module whose code does nothing sixteen times, so that the deadline is checked meanwhile. -/
def idling : LinkedModule where
  name := "idling"
  pool := #[.code {
    name := none, signature := {}, captures := []
    instructions := Array.replicate 16 { opcode := .nop } ++
      #[{ opcode := .pushNull }, { opcode := .return }] }]

/-- A module whose code executes an instruction on null. -/
def onNull (opcode : Opcode) : LinkedModule where
  name := "brief"
  pool := #[.code {
    name := none, signature := {}, captures := []
    instructions := #[{ opcode := .pushNull }, { opcode }] }]

/-- An entry of the host with enough transitions for it to end. -/
def ending (entry : Entry) : List Event :=
  .start ⟨0⟩ entry :: List.replicate 20 (.advance ⟨0⟩)

/-- An entry on a new fiber of a machine that knows a module. -/
def first (entry : Entry) : List Event :=
  [.register idling, .spawn] ++ ending entry

/-- An execution ends with a value, and a module is loaded after its deadline. -/
theorem deadline_after_value :
    let w := run {} (first (.execute (onNull .return) (.deadline .past)))
    ∃ fiber, w.fiber? ⟨0⟩ = some fiber ∧ fiber.activity.isAtRest ∧ fiber.frames = [] ∧
      fiber.deadline = none ∧ Untimed ⟨0⟩ w (ending (.load "idling")) ∧
      ∀ fiber', (w.run (ending (.load "idling"))).fiber? ⟨0⟩ = some fiber' →
        fiber'.deadline = none ∧ ¬ fiber'.activity.TimesOut := by
  intro w
  have hends : ∃ fiber ∈ w.fiber? ⟨0⟩, fiber.activity.isAtRest ∧ fiber.frames = [] := by
    decide +kernel
  have hvalue : (w.outcome? ⟨0⟩).map Except.toOption = some (some .null) := by decide +kernel
  have hentry : ∃ before, allStarts ⟨0⟩ {} (first (.execute (onNull .return) (.deadline .past))) =
      [(before, .execute (onNull .return) (.deadline .past))] := ⟨_, rfl⟩
  have huntimed : Untimed ⟨0⟩ w (ending (.load "idling")) := by decide +kernel
  obtain ⟨fiber, hf, hrest, hframes⟩ := hends
  obtain ⟨hcleared, hlater⟩ := deadline_of_isAtRest _ ⟨0⟩ fiber hf hrest
  have hdeadline : fiber.deadline = none := by
    rcases hcleared hframes with hnone | ⟨failure, hfailure⟩ | ⟨before, limit, earlier, hstarts, _⟩
    · exact hnone
    · rw [outcome?, Option.mem_def.mp hf, Option.bind_some, Fiber.outcome?, hfailure] at hvalue
      cases hvalue
    · obtain ⟨_, hentry⟩ := hentry
      cases hentry.symm.trans hstarts
  exact ⟨fiber, hf, hrest, hframes, hdeadline, huntimed,
    fun fiber' => hlater hdeadline _ _ fiber' huntimed⟩

/--
After the entry the fiber is at rest without frames and has a deadline that is over, and the module
that is loaded next times out, with no other reason to.
-/
def Lingers (entry : Entry) : Prop :=
  let w := run {} (first entry)
  (∃ fiber ∈ w.fiber? ⟨0⟩, fiber.activity.isAtRest ∧ fiber.frames = [] ∧
    fiber.deadline = some .past) ∧
  Untimed ⟨0⟩ w (ending (.load "idling")) ∧
  ∃ fiber ∈ (w.run (ending (.load "idling"))).fiber? ⟨0⟩, fiber.activity.TimesOut

instance decidableLingers (entry : Entry) : Decidable (Lingers entry) :=
  inferInstanceAs (Decidable (_ ∧ _))

/-- The deadline stays when an execution throws, and when there is nothing to resume. -/
theorem deadline_after_failure :
    Lingers (.execute (onNull .throw) (.deadline .past)) ∧ Lingers (.resume (.deadline .past)) := by
  decide +kernel

end World

end FiberMachine
