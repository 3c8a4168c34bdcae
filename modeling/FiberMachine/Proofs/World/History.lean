import FiberMachine.World

/-!
# Histories of worlds

What can happen to a world, as events: requests of the host, transitions of its fibers in any order,
deadlines that pass, and fibers that wait and wake up without a reason. The reachable worlds are
those that a list of events makes of the empty one (`World.run`).
-/

namespace FiberMachine

/-- Whether the host may start an entry: the last one, if any, has an outcome. -/
def Activity.isAtRest : Activity → Bool
  | .idle | .replied _ .host => true
  | _ => false

def Activity.isWaiting : Activity → Bool
  | .waiting .. => true
  | _ => false

theorem Activity.exists_of_isWaiting {activity : Activity} (h : activity.isWaiting) :
    ∃ id object pending, activity = .waiting id object pending := by
  cases activity with
  | waiting id object pending => exact ⟨id, object, pending, rfl⟩
  | _ => cases h

/-- The fiber when its deadline, if it has one, has passed. -/
def Fiber.expire (f : Fiber) : Fiber := { f with deadline := f.deadline.map fun _ => .past }

/-- The module that the host hands over with an entry. -/
def Entry.supplied? : Entry → Option LinkedModule
  | .execute _ .unrepresentable => none
  | .execute linked _ => some linked
  | _ => none

/-- The module that a program hands over with its next step. -/
def Program.supplied? : Program → Option LinkedModule
  | .enter entry _ => entry.supplied?
  | _ => none

namespace Context

/-- The module that a program hands over in the next transition. -/
def supplied? (c : Context) : Option LinkedModule :=
  match c.fiber.activity with
  | .program program _ => program.supplied?
  | _ => none

theorem drive_of_isSettled {c : Context} (h : c.isSettled) (fuel : Nat) : drive fuel c = c := by
  cases fuel with
  | zero => rfl
  | succ fuel => exact if_pos h

theorem drive_succ (fuel : Nat) (c : Context) : drive (fuel + 1) c = drive fuel (drive 1 c) := by
  by_cases h : c.isSettled
  · rw [drive_of_isSettled h, drive_of_isSettled h, drive_of_isSettled h]
  · simp only [drive, if_neg h]

theorem drive_add_one (fuel : Nat) (c : Context) : drive (fuel + 1) c = drive 1 (drive fuel c) := by
  induction fuel generalizing c with
  | zero => rfl
  | succ fuel ih => rw [drive_succ, ih, ← drive_succ fuel c]

end Context

namespace World

inductive Event where
  | register (linked : LinkedModule)
  | registerNative (name : String) (initializer : Initializer)
  /-- The host changes values that it refers to. -/
  | edit (change : Heap → Heap)
  /-- Modules are looked for elsewhere, or files have changed. -/
  | relocate (finder : Finder) (workspace : Workspace)
  | spawn
  | drop (id : FiberId)
  | configure (id : FiberId) (setting : Setting)
  /-- The host starts an entry on a fiber that is at rest. -/
  | start (id : FiberId) (entry : Entry)
  /-- A fiber makes a transition, unless it is settled. -/
  | advance (id : FiberId)
  /-- A fiber that waits wakes up, be there a reason or not. -/
  | rouse (id : FiberId)
  /-- The deadline of a fiber passes. -/
  | expire (id : FiberId)

/-- The world in which a fiber has got as far as `c`. -/
def update (w : World) (id : FiberId) (c : Context) : World :=
  setFiber { w with machine := c.machine } id (some c.fiber)

def perform (w : World) : Event → World
  | .register linked => { w with machine := (w.machine.register linked).2 }
  | .registerNative name initializer =>
    { w with machine.natives := w.machine.natives.insert name initializer }
  | .edit change => { w with machine.heap := change w.machine.heap }
  | .relocate finder workspace => { w with machine := { w.machine with finder, workspace } }
  | .spawn => w.spawn.2
  | .drop id => w.drop id
  | .configure id setting => w.modifyFiber id (·.configure setting)
  | .start id entry =>
    match w.fiber? id with
    | some fiber => if fiber.activity.isAtRest then w.start id entry else w
    | none => w
  | .advance id => w.drive 1 id
  | .rouse id =>
    match w.fiber? id with
    | some fiber =>
      if fiber.activity.isWaiting then w.update id (Context.advance ⟨w.machine, id, fiber⟩) else w
    | none => w
  | .expire id => w.modifyFiber id Fiber.expire

/-- The world after events, from the first to the last. -/
def run (w : World) (events : List Event) : World := events.foldl perform w

/-- Whether the host changes values. -/
def Event.isEdit : Event → Bool
  | .edit _ => true
  | _ => false

/-- Every event of a history is as `P` says, in the world in which it happens. -/
def Throughout (P : World → Event → Prop) : World → List Event → Prop
  | _, [] => True
  | w, e :: events => P w e ∧ (w.perform e).Throughout P events

instance decidableThroughout (P : World → Event → Prop) [∀ w e, Decidable (P w e)] :
    (w : World) → (events : List Event) → Decidable (w.Throughout P events)
  | _, [] => inferInstanceAs (Decidable True)
  | w, e :: events =>
    have := decidableThroughout P (w.perform e) events
    inferInstanceAs (Decidable (P w e ∧ (w.perform e).Throughout P events))

/-- The module that is handed to the machine in an event. -/
def supplied? (w : World) : Event → Option LinkedModule
  | .register linked => some linked
  | .start f entry =>
    (w.fiber? f).bind fun fiber => if fiber.activity.isAtRest then entry.supplied? else none
  | .advance f => (w.fiber? f).bind fun fiber => Context.supplied? ⟨w.machine, f, fiber⟩
  | _ => none

/-- The modules that are handed over in all events, in order. -/
def allSupplied : World → List Event → List LinkedModule
  | _, [] => []
  | w, e :: events => (w.supplied? e).toList ++ allSupplied (w.perform e) events

variable {w : World} {id other : FiberId} {fiber : Fiber} {c : Context}

@[simp] theorem run_nil : w.run [] = w := rfl

@[simp] theorem run_cons (e : Event) (events : List Event) :
    w.run (e :: events) = (w.perform e).run events := rfl

@[simp] theorem run_append (events events' : List Event) :
    w.run (events ++ events') = (w.run events).run events' := List.foldl_append

theorem throughout_append {P : World → Event → Prop} {events events' : List Event} :
    w.Throughout P (events ++ events') ↔
      w.Throughout P events ∧ (w.run events).Throughout P events' := by
  induction events generalizing w with
  | nil => simp [Throughout]
  | cons e rest ih => simp [Throughout, ih, and_assoc]

theorem Throughout.mono {P Q : World → Event → Prop} (hPQ : ∀ w e, P w e → Q w e)
    {events : List Event} (h : w.Throughout P events) : w.Throughout Q events := by
  induction events generalizing w with
  | nil => trivial
  | cons e rest ih => exact ⟨hPQ w e h.1, ih h.2⟩

theorem Throughout.head {P : World → Event → Prop} {events : List Event} {e : Event}
    (h : w.Throughout P (events ++ [e])) : ∃ e', P w e' := by
  cases events with
  | nil => exact ⟨e, h.1⟩
  | cons e' rest => exact ⟨e', h.1⟩

theorem Throughout.last {P : World → Event → Prop} {events : List Event} {e : Event}
    (h : w.Throughout P (events ++ [e])) : P (w.run events) e :=
  (throughout_append.mp h).2.1

/-! ## One fiber among others -/

theorem lt_of_fiber? (h : w.fiber? id = some fiber) : id.index < w.fibers.size := by
  refine Nat.lt_of_not_le fun hle => ?_
  rw [fiber?, Array.getD_eq_getD_getElem?, Array.getElem?_eq_none hle] at h
  exact nomatch h

theorem fiber?_setFiber_of_ne (h : other ≠ id) (f : Option Fiber) :
    (w.setFiber id f).fiber? other = w.fiber? other := by
  have hne : id.index ≠ other.index := fun h' => h (by cases other; cases id; simp_all)
  simp [fiber?, setFiber, Array.getElem?_setIfInBounds_ne hne]

theorem fiber?_setFiber_self (h : id.index < w.fibers.size) (f : Option Fiber) :
    (w.setFiber id f).fiber? id = f := by
  simp [fiber?, setFiber, h]

theorem fiber?_update_self (h : w.fiber? id = some fiber) :
    (w.update id c).fiber? id = some c.fiber :=
  fiber?_setFiber_self (lt_of_fiber? h) _

theorem fiber?_update_of_ne (h : other ≠ id) : (w.update id c).fiber? other = w.fiber? other :=
  fiber?_setFiber_of_ne h _

theorem start_eq_update (h : w.fiber? id = some fiber) (entry : Entry) :
    w.start id entry = w.update id (Context.start ⟨w.machine, id, fiber⟩ entry .host) := by
  rw [start, h]
  rfl

theorem drive_eq_update (h : w.fiber? id = some fiber) (fuel : Nat) :
    w.drive fuel id = w.update id (Context.drive fuel ⟨w.machine, id, fiber⟩) := by
  rw [drive, h]
  simp only [update, setFiber, Array.setIfInBounds_setIfInBounds]

theorem update_self (h : w.fiber? id = some fiber) : w.update id ⟨w.machine, id, fiber⟩ = w := by
  have hlt := lt_of_fiber? h
  simp only [fiber?, Array.getD_eq_getD_getElem?, Array.getElem?_eq_getElem hlt,
    Option.getD_some] at h
  simp only [update, setFiber, ← h, Array.setIfInBounds_def, hlt, dif_pos, Array.set_getElem_self]

theorem update_update (c' : Context) : (w.update id c).update id c' = w.update id c' := by
  simp only [update, setFiber, Array.setIfInBounds_setIfInBounds]

theorem fiber?_spawn : w.spawn.2.fiber? other =
    if other.index = w.fibers.size then some {} else w.fiber? other := by
  simp only [fiber?, spawn, Array.getD_eq_getD_getElem?, Array.getElem?_push]
  split <;> rfl

theorem fiber?_modifyFiber_of_ne (h : other ≠ id) (f : Fiber → Fiber) :
    (w.modifyFiber id f).fiber? other = w.fiber? other := by
  have hne : id.index ≠ other.index := fun h' => h (by cases other; cases id; simp_all)
  simp [fiber?, modifyFiber, Array.getElem?_modify, hne]

theorem fiber?_modifyFiber_self (f : Fiber → Fiber) :
    (w.modifyFiber id f).fiber? id = (w.fiber? id).map f := by
  simp only [fiber?, modifyFiber, Array.getD_eq_getD_getElem?, Array.getElem?_modify]
  cases w.fibers[id.index]? <;> rfl

theorem fiber?_drop_self : (w.drop id).fiber? id = none := by
  by_cases h : id.index < w.fibers.size
  · exact fiber?_setFiber_self h none
  · cases hf : (w.drop id).fiber? id with
    | none => rfl
    | some fiber =>
      have := lt_of_fiber? hf
      simp only [World.drop, setFiber, Array.size_setIfInBounds] at this
      exact absurd this h

theorem fiber?_drop_of_ne (h : other ≠ id) : (w.drop id).fiber? other = w.fiber? other :=
  fiber?_setFiber_of_ne h none

/-- The frame of a fiber that has `d` frames below it. -/
def activation? (w : World) (id : FiberId) (d : Nat) : Option Frame :=
  (w.fiber? id).bind fun fiber => fiber.frames.reverse[d]?

theorem activation?_of_fiber? {d : Nat} (h : w.fiber? id = some fiber) :
    w.activation? id d = fiber.frames.reverse[d]? := by
  rw [activation?, h]
  rfl

theorem getElem?_reverse_cons (top : Frame) (rest : List Frame) (d : Nat) :
    (top :: rest).reverse[d]? = if d = rest.length then some top else rest.reverse[d]? := by
  rw [List.reverse_cons, List.getElem?_append, List.length_reverse]
  grind

/-! ## What events do to fibers -/

/-- Fibers are new, or have the frames and the activity that they had. -/
def Spares (w w' : World) : Prop :=
  ∀ g fiber', w'.fiber? g = some fiber' → fiber' = {} ∨
    ∃ fiber, w.fiber? g = some fiber ∧ fiber'.frames = fiber.frames ∧
      fiber'.activity = fiber.activity

theorem spares_machine (w : World) (m : Machine) : w.Spares { w with machine := m } :=
  fun _ fiber' hg => .inr ⟨fiber', hg, rfl, rfl⟩

theorem spares_spawn (w : World) : w.Spares w.spawn.2 := by
  intro g fiber' hg
  rw [fiber?_spawn] at hg
  split at hg
  · exact .inl (Option.some.inj hg).symm
  · exact .inr ⟨fiber', hg, rfl, rfl⟩

theorem spares_drop (w : World) (id : FiberId) : w.Spares (w.drop id) := by
  intro g fiber' hg
  by_cases hne : g = id
  · subst hne
    exact nomatch fiber?_drop_self.symm.trans hg
  · exact .inr ⟨fiber', (fiber?_drop_of_ne hne).symm.trans hg, rfl, rfl⟩

/-- A change of a fiber that touches neither its frames nor what it is doing. -/
theorem spares_modifyFiber (w : World) (id : FiberId) {change : Fiber → Fiber}
    (h : ∀ fiber, (change fiber).frames = fiber.frames ∧
      (change fiber).activity = fiber.activity) : w.Spares (w.modifyFiber id change) := by
  intro g fiber' hg
  by_cases hne : g = id
  · subst hne
    rw [fiber?_modifyFiber_self] at hg
    obtain ⟨fiber, hf, rfl⟩ := Option.map_eq_some_iff.mp hg
    exact .inr ⟨fiber, hf, h fiber⟩
  · exact .inr ⟨fiber', (fiber?_modifyFiber_of_ne hne _).symm.trans hg, rfl, rfl⟩

theorem spares_configure (w : World) (id : FiberId) (setting : Setting) :
    w.Spares (w.modifyFiber id (·.configure setting)) := by
  apply spares_modifyFiber
  intro fiber
  cases setting <;> exact ⟨rfl, rfl⟩

theorem spares_expire (w : World) (id : FiberId) : w.Spares (w.modifyFiber id Fiber.expire) :=
  w.spares_modifyFiber id fun _ => ⟨rfl, rfl⟩

/-- The fibers after a transition are the one that made it, and the others as they were. -/
theorem fiber?_of_update {fiber' : Fiber} (hf : w.fiber? id = some fiber)
    (h : (w.update id c).fiber? other = some fiber') :
    other = id ∧ fiber' = c.fiber ∨ other ≠ id ∧ w.fiber? other = some fiber' := by
  by_cases hne : other = id
  · subst hne
    exact .inl ⟨rfl, (Option.some.inj ((fiber?_update_self hf).symm.trans h)).symm⟩
  · exact .inr ⟨hne, (fiber?_update_of_ne hne).symm.trans h⟩

/-- An entry is started on a fiber that is at rest, or nothing happens. -/
theorem perform_start_cases (w : World) (id : FiberId) (entry : Entry) :
    w.perform (.start id entry) = w ∨
      ∃ fiber, w.fiber? id = some fiber ∧ fiber.activity.isAtRest ∧
        w.supplied? (.start id entry) = entry.supplied? ∧ w.perform (.start id entry) =
          w.update id (Context.start ⟨w.machine, id, fiber⟩ entry .host) := by
  simp only [perform, supplied?]
  cases hf : w.fiber? id with
  | none => exact .inl rfl
  | some fiber =>
    by_cases hrest : fiber.activity.isAtRest
    · refine .inr ⟨fiber, rfl, hrest, if_pos hrest, ?_⟩
      exact (if_pos hrest).trans (start_eq_update hf entry)
    · exact .inl (if_neg hrest)

/-- A fiber that is not settled makes a transition, or nothing happens. -/
theorem perform_advance_cases (w : World) (id : FiberId) :
    w.perform (.advance id) = w ∨
      ∃ fiber, w.fiber? id = some fiber ∧ ¬ Context.isSettled ⟨w.machine, id, fiber⟩ ∧
        w.supplied? (.advance id) = Context.supplied? ⟨w.machine, id, fiber⟩ ∧
        w.perform (.advance id) = w.update id (Context.advance ⟨w.machine, id, fiber⟩) := by
  simp only [perform, supplied?]
  cases hf : w.fiber? id with
  | none => exact .inl (by rw [drive, hf])
  | some fiber =>
    rw [drive_eq_update hf, Context.drive]
    by_cases hsettled : Context.isSettled ⟨w.machine, id, fiber⟩
    · exact .inl (by rw [if_pos hsettled, update_self hf])
    · exact .inr ⟨fiber, rfl, hsettled, rfl, by rw [if_neg hsettled, Context.drive]⟩

/-- A fiber that waits makes a transition, or nothing happens. -/
theorem perform_rouse_cases (w : World) (id : FiberId) :
    w.perform (.rouse id) = w ∨
      ∃ fiber, w.fiber? id = some fiber ∧ fiber.activity.isWaiting ∧
        w.perform (.rouse id) = w.update id (Context.advance ⟨w.machine, id, fiber⟩) := by
  simp only [perform]
  cases hf : w.fiber? id with
  | none => exact .inl rfl
  | some fiber =>
    by_cases hwaiting : fiber.activity.isWaiting
    · exact .inr ⟨fiber, rfl, hwaiting, if_pos hwaiting⟩
    · exact .inl (if_neg hwaiting)

end World

end FiberMachine
