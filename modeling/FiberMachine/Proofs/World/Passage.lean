import FiberMachine.Proofs.Execution.Turn
import FiberMachine.Proofs.Loading.Stranded

/-!
# What happens in an event

As far as waits and deadlines are concerned, an event is one of three things: a fiber makes a
transition, the host starts an entry on a fiber, or fibers are left as they are (`World.passage`).
-/

namespace FiberMachine

theorem Activity.not_isAtRest_of_isWaiting {activity : Activity} (h : activity.isWaiting) :
    ¬ activity.isAtRest := by
  cases activity with
  | waiting id object pending => exact Bool.false_ne_true
  | _ => exact nomatch h

namespace World

/-- The entry that the host starts on `f`, with the fiber as it finds it. -/
def starts (w : World) (f : FiberId) : Event → List (Fiber × Entry)
  | .start id entry =>
    match w.fiber? id with
    | some fiber => if id = f ∧ fiber.activity.isAtRest then [(fiber, entry)] else []
    | none => []
  | _ => []

/-- The entries that the host has started on `f`, the last one first. -/
def allStarts (f : FiberId) : World → List Event → List (Fiber × Entry)
  | _, [] => []
  | w, e :: events => allStarts f (w.perform e) events ++ w.starts f e

/-! ## Fibers that are left alone -/

/--
Fibers are new or have the frames and the activity that they had, and have not got a deadline. They
wait for what they waited for, and modules that were past being registered stay or have ended.
-/
structure Leaves (w w' : World) : Prop where
  fiber : ∀ g fiber', w'.fiber? g = some fiber' → fiber' = {} ∨
    ∃ fiber, w.fiber? g = some fiber ∧ fiber'.frames = fiber.frames ∧
      fiber'.activity = fiber.activity ∧ (fiber.deadline = none → fiber'.deadline = none)
  waits : ∀ g, w'.machine.waitOf g = w.machine.waitOf g ∨
    w'.machine.waitOf g = none ∧ w'.fiber? g = none
  size : w.machine.waits.size = w.fibers.size → w'.machine.waits.size = w'.fibers.size
  begun : ∀ id s, w.machine.state? id = some s → s ≠ .registered →
    ∃ s', w'.machine.state? id = some s' ∧ (s' = s ∨ s'.Ended)

variable {w w' : World} {id : FiberId} {fiber : Fiber}

theorem Leaves.refl (w : World) : w.Leaves w :=
  ⟨fun _ fiber hg => .inr ⟨fiber, hg, rfl, rfl, fun h => h⟩, fun _ => .inl rfl, fun h => h,
    fun _ s hs _ => ⟨s, hs, .inl rfl⟩⟩

theorem leaves_machine {m : Machine} (hwaits : m.waits = w.machine.waits)
    (hstates : ∀ id s, w.machine.state? id = some s → m.state? id = some s) :
    w.Leaves { w with machine := m } := by
  refine ⟨fun _ fiber hg => .inr ⟨fiber, hg, rfl, rfl, fun h => h⟩, fun g => .inl ?_, fun h => ?_,
    fun id s hs _ => ⟨s, hstates id s hs, .inl rfl⟩⟩
  · simp only [Machine.waitOf, hwaits]
  · exact (congrArg Array.size hwaits).trans h

theorem leaves_register (w : World) (linked : LinkedModule) :
    w.Leaves { w with machine := (w.machine.register linked).2 } := by
  obtain ⟨new, hnew, heq⟩ := w.machine.state?_register linked
  refine leaves_machine rfl fun id s hs => ?_
  have hne : id ≠ new := by
    rintro rfl
    exact nomatch hnew.symm.trans hs
  rw [heq, Ledger.add, if_neg hne]
  exact hs

theorem leaves_spawn (w : World) : w.Leaves w.spawn.2 := by
  refine ⟨fun g fiber' hg => ?_, fun g => .inl ?_, fun h => ?_, fun _ s hs _ => ⟨s, hs, .inl rfl⟩⟩
  · rw [fiber?_spawn] at hg
    split at hg
    · exact .inl (Option.some.inj hg).symm
    · exact .inr ⟨fiber', hg, rfl, rfl, fun h => h⟩
  · simp only [World.spawn, Machine.waitOf, Array.getD_eq_getD_getElem?, Array.getElem?_push]
    split
    · rename_i heq
      rw [heq, Array.getElem?_eq_none (Nat.le_refl _)]
      rfl
    · rfl
  · simp only [World.spawn, Array.size_push, h]

theorem waits_failAll (m : Machine) (ids : List ModuleId) : (failAll m ids).waits = m.waits := by
  induction ids generalizing m with
  | nil => rfl
  | cons id rest ih => exact (ih _).trans (Machine.isApart_waits.finishModule _ id _)

theorem waitOf_setWait_of_ne (m : Machine) {f g : FiberId} (h : g ≠ f) (wait : Option ModuleId) :
    (m.setWait f wait).waitOf g = m.waitOf g := by
  have hne : f.index ≠ g.index := fun h' => h (by cases f; cases g; simp_all)
  simp [Machine.setWait, Machine.waitOf, Array.getElem?_setIfInBounds_ne hne]

theorem waitOf_setWait_none (m : Machine) (f : FiberId) : (m.setWait f none).waitOf f = none := by
  simp only [Machine.setWait, Machine.waitOf, Array.getD_eq_getD_getElem?,
    Array.getElem?_setIfInBounds_self]
  split <;> rfl

theorem leaves_drop (w : World) (f : FiberId) : w.Leaves (w.drop f) := by
  have hwaits (g : FiberId) :
      (w.drop f).machine.waitOf g = (w.machine.setWait f none).waitOf g := by
    simp only [Machine.waitOf, World.drop, waits_failAll]
    rfl
  refine ⟨fun g fiber' hg => ?fiber, fun g => ?waits, fun h => ?size, fun id s hs _ => ?begun⟩
  case fiber =>
    have hne : g ≠ f := by
      rintro rfl
      cases fiber?_drop_self.symm.trans hg
    exact .inr ⟨fiber', (fiber?_drop_of_ne hne).symm.trans hg, rfl, rfl, fun h => h⟩
  case waits =>
    rw [hwaits]
    by_cases hne : g = f
    · subst hne
      exact .inr ⟨waitOf_setWait_none w.machine g, fiber?_drop_self⟩
    · exact .inl (waitOf_setWait_of_ne w.machine hne none)
  case size => simpa [World.drop, waits_failAll, Machine.setWait, setFiber] using h
  case begun =>
    by_cases hloading : w.machine.state? id = some (.loading f)
    · obtain ⟨s', hs', hend⟩ := ended_drop hloading
      exact ⟨s', hs', .inr hend⟩
    · refine ⟨s, Eq.trans ?_ hs, .inl rfl⟩
      exact state?_failAll_of_notMem (w.machine.setWait f none) (mt mem_loadedBy.mp hloading)

/-- A change of a fiber that touches neither its frames nor what it is doing. -/
theorem leaves_modifyFiber (w : World) (f : FiberId) {change : Fiber → Fiber}
    (h : ∀ fiber, (change fiber).frames = fiber.frames ∧
      (change fiber).activity = fiber.activity ∧
      (fiber.deadline = none → (change fiber).deadline = none)) :
    w.Leaves (w.modifyFiber f change) := by
  refine ⟨fun g fiber' hg => ?_, fun g => .inl rfl, fun h => ?_, fun _ s hs _ => ⟨s, hs, .inl rfl⟩⟩
  · by_cases hne : g = f
    · subst hne
      rw [fiber?_modifyFiber_self] at hg
      obtain ⟨fiber, hf, rfl⟩ := Option.map_eq_some_iff.mp hg
      exact .inr ⟨fiber, hf, h fiber⟩
    · rw [fiber?_modifyFiber_of_ne hne] at hg
      exact .inr ⟨fiber', hg, rfl, rfl, fun h => h⟩
  · simpa [modifyFiber] using h

/-! ## Events -/

theorem not_isAtRest_of_not_isSettled {c : Context} (h : ¬ c.isSettled) :
    ¬ c.fiber.activity.isAtRest := by
  intro hrest
  apply h
  unfold Context.isSettled
  unfold Activity.isAtRest at hrest
  split at hrest
  · rename_i heq
    rw [heq]
  · rename_i heq
    rw [heq]
  · exact nomatch hrest

/-- What happens in an event. -/
inductive Passage (w : World) (e : Event) : World → Prop where
  | leave {w' : World} : w.Leaves w' → (∀ f, w.starts f e = []) → Passage w e w'
  | start {id : FiberId} {fiber : Fiber} {entry : Entry} : w.fiber? id = some fiber →
      fiber.activity.isAtRest →
      (∀ f, w.starts f e = if id = f then [(fiber, entry)] else []) →
      Passage w e (w.update id (Context.start ⟨w.machine, id, fiber⟩ entry .host))
  | advance {id : FiberId} {fiber : Fiber} : w.fiber? id = some fiber →
      ¬ fiber.activity.isAtRest → (∀ f, w.starts f e = []) →
      Passage w e (w.update id (Context.advance ⟨w.machine, id, fiber⟩))

theorem passage_start (w : World) (id : FiberId) (entry : Entry) :
    w.Passage (.start id entry) (w.perform (.start id entry)) := by
  simp only [perform]
  cases hf : w.fiber? id with
  | none => exact .leave (.refl w) fun f => by simp only [starts, hf]
  | some fiber =>
    dsimp only
    by_cases hrest : fiber.activity.isAtRest
    · rw [if_pos hrest, start_eq_update hf]
      exact .start hf hrest fun f => by simp only [starts, hf, hrest, and_true]
    · rw [if_neg hrest]
      refine .leave (.refl w) fun f => ?_
      simp only [starts, hf]
      exact if_neg fun h => hrest h.2

theorem passage_advance (w : World) (id : FiberId) :
    w.Passage (.advance id) (w.perform (.advance id)) := by
  rcases perform_advance_cases w id with heq | ⟨fiber, hf, hsettled, -, heq⟩
  · rw [heq]
    exact .leave (.refl w) fun _ => rfl
  · rw [heq]
    exact .advance hf (not_isAtRest_of_not_isSettled hsettled) fun _ => rfl

theorem passage_rouse (w : World) (id : FiberId) :
    w.Passage (.rouse id) (w.perform (.rouse id)) := by
  rcases w.perform_rouse_cases id with heq | ⟨fiber, hf, hwaiting, heq⟩
  · rw [heq]
    exact .leave (.refl w) fun _ => rfl
  · rw [heq]
    exact .advance hf (Activity.not_isAtRest_of_isWaiting hwaiting) fun _ => rfl

/-- **What can happen in an event.** -/
theorem passage (w : World) (e : Event) : w.Passage e (w.perform e) := by
  cases e with
  | register linked => exact .leave (leaves_register w linked) fun _ => rfl
  | registerNative name initializer =>
    exact .leave (leaves_machine rfl fun _ _ h => h) fun _ => rfl
  | edit change => exact .leave (leaves_machine rfl fun _ _ h => h) fun _ => rfl
  | relocate finder workspace => exact .leave (leaves_machine rfl fun _ _ h => h) fun _ => rfl
  | spawn => exact .leave (leaves_spawn w) fun _ => rfl
  | drop id => exact .leave (leaves_drop w id) fun _ => rfl
  | configure id setting =>
    refine .leave (leaves_modifyFiber w id fun fiber => ?_) fun _ => rfl
    cases setting <;> exact ⟨rfl, rfl, fun h => h⟩
  | start id entry => exact passage_start w id entry
  | advance id => exact passage_advance w id
  | rouse id => exact passage_rouse w id
  | expire id =>
    refine .leave (leaves_modifyFiber w id fun fiber => ⟨rfl, rfl, fun hnone => ?_⟩) fun _ => rfl
    rw [Fiber.expire, hnone]
    rfl

end World

end FiberMachine
