import FiberMachine.Proofs.Loading.Transition
import FiberMachine.Proofs.World.History

/-!
# Stranded modules

In every reachable world, a module is loading on behalf of a fiber exactly if the fiber is there
and either carries the load or was refused the module's frame by its depth limit
(`World.loading_iff_carried_or_refused`). The refused modules are stranded: they are loading, nobody
ends their load, and they stay so until the fiber is dropped.
-/

namespace FiberMachine

open Ledger (Moves Balanced)

/-- The fiber has a frame that finishes the module, or is inside the module's native initializer. -/
def Fiber.Carries (f : Fiber) (id : ModuleId) : Prop :=
  (∃ frame ∈ f.frames, ∃ object, frame.continuation = .module id object) ∨ id ∈ f.activity.loads

theorem Fiber.mem_loads_iff {f : Fiber} {id : ModuleId} : id ∈ f.loads ↔ f.Carries id := by
  rw [Fiber.loads, List.mem_append, Or.comm, Fiber.Carries, frameLoads, List.mem_filterMap]
  refine or_congr_left (exists_congr fun frame => and_congr_right fun _ => ?_)
  unfold Frame.load?
  cases frame.continuation <;> simp

theorem Activity.loads_of_isAtRest {activity : Activity} (h : activity.isAtRest) :
    activity.loads = [] := by
  cases activity with
  | idle => rfl
  | replied outcome caller =>
    cases caller with
    | host => rfl
    | program next purpose => exact nomatch h
  | _ => exact nomatch h

namespace World

/-- The modules whose frame is refused in an event, with the fiber that is refused. -/
def refusals (w : World) : Event → List (ModuleId × FiberId)
  | .advance id =>
    match w.fiber? id with
    | some fiber => (Context.refused? ⟨w.machine, id, fiber⟩).toList.map (·, id)
    | none => []
  | _ => []

/-- The refusals in all events, the last event first. -/
def allRefusals : World → List Event → List (ModuleId × FiberId)
  | _, [] => []
  | w, e :: events => allRefusals (w.perform e) events ++ w.refusals e

def refusedTo (f : FiberId) (refused : List (ModuleId × FiberId)) : List ModuleId :=
  refused.filterMap fun (id, g) => if g = f then some id else none

theorem mem_refusedTo {f : FiberId} {refused : List (ModuleId × FiberId)} {id : ModuleId} :
    id ∈ refusedTo f refused ↔ (id, f) ∈ refused := by
  simp only [refusedTo, List.mem_filterMap, Prod.exists, Option.ite_none_right_eq_some,
    Option.some.injEq]
  constructor
  · rintro ⟨_, _, h, rfl, rfl⟩
    exact h
  · exact fun h => ⟨id, f, h, rfl, rfl⟩

theorem refusedTo_append_self (f : FiberId) (ids : List ModuleId)
    (refused : List (ModuleId × FiberId)) :
    refusedTo f (ids.map (·, f) ++ refused) = ids ++ refusedTo f refused := by
  simp [refusedTo, List.filterMap_append, List.filterMap_map]

theorem refusedTo_append_of_ne {f g : FiberId} (h : g ≠ f) (ids : List ModuleId)
    (refused : List (ModuleId × FiberId)) :
    refusedTo g (ids.map (·, f) ++ refused) = refusedTo g refused := by
  simp [refusedTo, List.filterMap_append, List.filterMap_map, h.symm]

/-- Each fiber's ledger is balanced, and modules are loading on behalf of fibers that are there. -/
structure Balanced (w : World) (refused : List (ModuleId × FiberId)) : Prop where
  fiber : ∀ f fiber, w.fiber? f = some fiber → fiber.activity.Plain (fun _ => True) ∧
    Ledger.Balanced f (refusedTo f refused) ⟨w.machine.state?, fiber.loads⟩
  alive : ∀ id f, w.machine.state? id = some (.loading f) → ∃ fiber, w.fiber? f = some fiber
  bound : ∀ p ∈ refused, p.2.index < w.fibers.size

namespace Balanced

variable {w : World} {refused : List (ModuleId × FiberId)} {f : FiberId} {fiber : Fiber}

theorem empty : Balanced {} [] := by
  refine ⟨fun f fiber hf => ?_, fun id f hid => ?_, nofun⟩
  · simp [fiber?] at hf
  · simp [Machine.state?, Machine.module?] at hid

/-- A change of the machine that touches no load. -/
theorem of_machine (h : w.Balanced refused) {m : Machine}
    (hs : ∀ id g, m.state? id = some (.loading g) ↔ w.machine.state? id = some (.loading g)) :
    Balanced { w with machine := m } refused := by
  refine ⟨fun g fiber hg => ?_, fun id g hid => h.alive id g ((hs id g).mp hid), h.bound⟩
  obtain ⟨hplain, hbalanced⟩ := h.fiber g fiber hg
  exact ⟨hplain, hbalanced.of_loading_iff (hs · g)⟩

/-- What a fiber does on its own. -/
theorem update (h : w.Balanced refused) (hf : w.fiber? f = some fiber) {ids : List ModuleId}
    {c : Context} (H : Context.Leads ⟨w.machine, f, fiber⟩ fiber.activity.loads ids c) :
    (w.update f c).Balanced (ids.map (·, f) ++ refused) := by
  have hbalanced := (h.fiber f fiber hf).2
  have others (id : ModuleId) {g : FiberId} (hg : g ≠ f) :
      c.machine.state? id = some (.loading g) ↔ w.machine.state? id = some (.loading g) :=
    H.moves.loading_other_iff hbalanced hg
  refine ⟨fun g fiber' hg => ?fiber, fun id g hid => ?alive, fun p hp => ?bound⟩
  case fiber =>
    by_cases hgf : g = f
    · subst hgf
      rw [fiber?_update_self hf] at hg
      cases hg
      refine ⟨H.plain.mono fun _ _ => trivial, ?_⟩
      rw [refusedTo_append_self]
      exact H.moves.balanced hbalanced
    · rw [fiber?_update_of_ne hgf] at hg
      obtain ⟨hplain, hother⟩ := h.fiber g fiber' hg
      refine ⟨hplain, ?_⟩
      rw [refusedTo_append_of_ne hgf]
      exact hother.of_loading_iff fun id => others id hgf
  case alive =>
    by_cases hgf : g = f
    · subst hgf
      exact ⟨c.fiber, fiber?_update_self hf⟩
    · rw [fiber?_update_of_ne hgf]
      exact h.alive id g ((others id hgf).mp hid)
  case bound =>
    have hsize : (w.update f c).fibers.size = w.fibers.size := Array.size_setIfInBounds
    rw [hsize]
    rcases List.mem_append.mp hp with hp | hp
    · obtain ⟨_, _, rfl⟩ := List.mem_map.mp hp
      exact lt_of_fiber? hf
    · exact h.bound p hp

theorem spawn (h : w.Balanced refused) : w.spawn.2.Balanced refused := by
  have hnew {g : FiberId} (hg : g.index = w.fibers.size) : w.fiber? g = none := by
    cases hfiber : w.fiber? g with
    | none => rfl
    | some fiber => exact absurd (lt_of_fiber? hfiber) (by omega)
  refine ⟨fun g fiber hg => ?fiber, fun id g hid => ?alive, fun p hp => ?bound⟩
  case fiber =>
    rw [fiber?_spawn] at hg
    split at hg
    · rename_i hsize
      cases hg
      refine ⟨trivial, List.nodup_nil, nofun, fun id hid => ?_, fun id hid => ?_⟩
      · obtain ⟨fiber, hfiber⟩ := h.alive id g hid
        exact nomatch (hnew hsize).symm.trans hfiber
      · exact absurd (h.bound _ (mem_refusedTo.mp hid)) (by simp [hsize])
    · exact h.fiber g fiber hg
  case alive =>
    obtain ⟨fiber, hfiber⟩ := h.alive id g hid
    refine ⟨fiber, ?_⟩
    rw [fiber?_spawn, if_neg fun hsize => ?_]
    · exact hfiber
    · exact nomatch (hnew hsize).symm.trans hfiber
  case bound =>
    have := h.bound p hp
    simp only [World.spawn, Array.size_push]
    omega

/-- A change of a fiber that touches neither its frames nor what it is doing. -/
theorem modifyFiber (h : w.Balanced refused) (f : FiberId) {change : Fiber → Fiber}
    (frames : ∀ fiber, (change fiber).frames = fiber.frames)
    (activity : ∀ fiber, (change fiber).activity = fiber.activity) :
    (w.modifyFiber f change).Balanced refused := by
  refine ⟨fun g fiber hg => ?fiber, fun id g hid => ?alive, fun p hp => ?bound⟩
  case fiber =>
    by_cases hgf : g = f
    · subst hgf
      rw [fiber?_modifyFiber_self] at hg
      obtain ⟨fiber', hfiber, rfl⟩ := Option.map_eq_some_iff.mp hg
      rw [Fiber.loads, frames, activity]
      exact h.fiber g fiber' hfiber
    · rw [fiber?_modifyFiber_of_ne hgf] at hg
      exact h.fiber g fiber hg
  case alive =>
    obtain ⟨fiber, hfiber⟩ := h.alive id g hid
    by_cases hgf : g = f
    · subst hgf
      rw [fiber?_modifyFiber_self, hfiber]
      exact ⟨_, rfl⟩
    · rw [fiber?_modifyFiber_of_ne hgf]
      exact ⟨fiber, hfiber⟩
  case bound =>
    have := h.bound p hp
    simpa [World.modifyFiber] using this

end Balanced

/-! ## Dropping fibers -/

theorem mem_loadedBy {w : World} {f : FiberId} {id : ModuleId} :
    id ∈ w.loadedBy f ↔ w.machine.state? id = some (.loading f) := by
  simp only [loadedBy, List.mem_filter, List.mem_map, List.mem_range, decide_eq_true_eq]
  refine and_iff_right_of_imp fun h => ⟨id.index, ?_, rfl⟩
  obtain ⟨entry, hentry, _⟩ := Option.map_eq_some_iff.mp h
  exact (Array.getElem?_eq_some_iff.mp hentry).1

theorem state?_failAll_of_notMem (m : Machine) {ids : List ModuleId} {id : ModuleId}
    (h : id ∉ ids) : (failAll m ids).state? id = m.state? id := by
  induction ids generalizing m with
  | nil => rfl
  | cons first rest ih =>
    obtain ⟨hne, hrest⟩ := not_or.mp (mt List.mem_cons.mpr h)
    let envelope := m.onHeap (·.envelope [] .moduleFailed)
    obtain ⟨s, _, heq⟩ := envelope.2.state?_finishModule first (some envelope.1)
    calc (failAll (envelope.2.finishModule first (some envelope.1)) rest).state? id
      _ = (envelope.2.finishModule first (some envelope.1)).state? id := ih _ hrest
      _ = m.state? id := by
        rw [heq]
        exact Ledger.update_of_ne hne

theorem ended_failAll (m : Machine) {ids : List ModuleId} {id : ModuleId} (h : id ∈ ids)
    (hid : (m.state? id).isSome) : ∃ s, (failAll m ids).state? id = some s ∧ s.Ended := by
  induction ids generalizing m with
  | nil => exact nomatch h
  | cons first rest ih =>
    let envelope := m.onHeap (·.envelope [] .moduleFailed)
    let next := envelope.2.finishModule first (some envelope.1)
    obtain ⟨s, hs, heq⟩ := envelope.2.state?_finishModule first (some envelope.1)
    by_cases hne : id = first
    · subst hne
      obtain ⟨t, ht⟩ := Option.isSome_iff_exists.mp hid
      have hnext : next.state? id = some s := (congrFun heq id).trans (Ledger.update_self ht)
      by_cases hrest : id ∈ rest
      · exact ih next hrest (by rw [hnext]; rfl)
      · exact ⟨s, (state?_failAll_of_notMem next hrest).trans hnext, hs⟩
    · have hnext : next.state? id = m.state? id :=
        (congrFun heq id).trans (Ledger.update_of_ne hne)
      exact ih next ((List.mem_cons.mp h).resolve_left hne) (hnext ▸ hid)

theorem ended_drop {w : World} {f : FiberId} {id : ModuleId}
    (h : w.machine.state? id = some (.loading f)) :
    ∃ s, (w.drop f).machine.state? id = some s ∧ s.Ended :=
  ended_failAll (w.machine.setWait f none) (mem_loadedBy.mpr h) (Option.isSome_of_eq_some h)

/-- What other fibers load is not affected, and nothing is left loading. -/
theorem loading_drop_iff {w : World} {f g : FiberId} {id : ModuleId} :
    (w.drop f).machine.state? id = some (.loading g) ↔
      g ≠ f ∧ w.machine.state? id = some (.loading g) := by
  by_cases hid : w.machine.state? id = some (.loading f)
  · obtain ⟨s, hs, hend⟩ := ended_drop hid
    rw [hs, hid]
    constructor
    · rintro ⟨⟩
      exact hend.elim
    · rintro ⟨hne, ⟨⟩⟩
      exact absurd rfl hne
  · have hstate : (w.drop f).machine.state? id = w.machine.state? id :=
      state?_failAll_of_notMem (w.machine.setWait f none) (mt mem_loadedBy.mp hid)
    rw [hstate]
    refine (and_iff_right_of_imp ?_).symm
    rintro h rfl
    exact hid h

namespace Balanced

variable {w : World} {refused : List (ModuleId × FiberId)}

theorem drop (h : w.Balanced refused) (f : FiberId) : (w.drop f).Balanced refused := by
  refine ⟨fun g fiber hg => ?fiber, fun id g hid => ?alive, fun p hp => ?bound⟩
  case fiber =>
    have hgf : g ≠ f := by
      rintro rfl
      exact nomatch fiber?_drop_self.symm.trans hg
    obtain ⟨hplain, hbalanced⟩ := h.fiber g fiber ((fiber?_drop_of_ne hgf).symm.trans hg)
    exact ⟨hplain, hbalanced.of_loading_iff fun id => loading_drop_iff.trans (and_iff_right hgf)⟩
  case alive =>
    obtain ⟨hgf, hid⟩ := loading_drop_iff.mp hid
    rw [fiber?_drop_of_ne hgf]
    exact h.alive id g hid
  case bound =>
    have := h.bound p hp
    simpa [World.drop, setFiber] using this

end Balanced

/-! ## Events -/

/-- What an event comes to, as far as loads are concerned, with the refusals in it. -/
inductive Change (w : World) : List (ModuleId × FiberId) → World → Prop where
  | machine {m : Machine}
      (hs : ∀ id g, m.state? id = some (.loading g) ↔ w.machine.state? id = some (.loading g)) :
      Change w [] { w with machine := m }
  | spawn : Change w [] w.spawn.2
  | drop (f : FiberId) : Change w [] (w.drop f)
  | modify (f : FiberId) {change : Fiber → Fiber}
      (frames : ∀ fiber, (change fiber).frames = fiber.frames)
      (activity : ∀ fiber, (change fiber).activity = fiber.activity) :
      Change w [] (w.modifyFiber f change)
  | update {f : FiberId} {fiber : Fiber} {ids : List ModuleId} {c : Context}
      (hf : w.fiber? f = some fiber)
      (H : Context.Leads ⟨w.machine, f, fiber⟩ fiber.activity.loads ids c) :
      Change w (ids.map (·, f)) (w.update f c)

namespace Change

variable {w w' : World} {refused new : List (ModuleId × FiberId)}

theorem refl (w : World) : Change w [] w := .machine fun _ _ => .rfl

theorem perform_start (w : World) (f : FiberId) (entry : Entry) :
    Change w [] (w.perform (.start f entry)) := by
  simp only [World.perform]
  split
  · rename_i fiber hf
    split
    · rename_i hrest
      have hloads := Activity.loads_of_isAtRest hrest
      have H : Context.Leads ⟨w.machine, f, fiber⟩ fiber.activity.loads []
          (Context.start ⟨w.machine, f, fiber⟩ entry .host) := by
        rw [hloads]
        exact Context.Leads.start ⟨w.machine, f, fiber⟩ entry .host
      have := Change.update hf H
      rwa [← start_eq_update hf] at this
    · exact .refl w
  · exact .refl w

theorem perform_advance (h : w.Balanced refused) (f : FiberId) :
    Change w (w.refusals (.advance f)) (w.perform (.advance f)) := by
  simp only [World.perform, refusals]
  cases hf : w.fiber? f with
  | none =>
    rw [World.drive, hf]
    exact .refl w
  | some fiber =>
    have hplain := (h.fiber f fiber hf).1
    rw [drive_eq_update hf]
    simp only [Context.drive]
    split
    · rename_i hsettled
      rw [Context.refused?_of_isSettled _ hsettled, update_self hf]
      exact .refl w
    · exact .update hf (Context.advance_leads ⟨w.machine, f, fiber⟩ hplain)

theorem perform_rouse (h : w.Balanced refused) (f : FiberId) :
    Change w [] (w.perform (.rouse f)) := by
  rcases w.perform_rouse_cases f with heq | ⟨fiber, hf, hwaiting, heq⟩
  · rw [heq]
    exact .refl w
  · have H := Context.advance_leads ⟨w.machine, f, fiber⟩ (h.fiber f fiber hf).1
    have hrefused : Context.refused? ⟨w.machine, f, fiber⟩ = none := by
      obtain ⟨id, object, pending, hactivity⟩ := Activity.exists_of_isWaiting hwaiting
      simp only [Context.refused?, hactivity]
    rw [hrefused] at H
    rw [heq]
    exact .update hf H

/-- The change that an event makes. -/
theorem perform (h : w.Balanced refused) (e : Event) :
    Change w (w.refusals e) (w.perform e) := by
  cases e with
  | register linked =>
    obtain ⟨new, hnew, heq⟩ := w.machine.state?_register linked
    exact .machine fun id g => by rw [heq]; exact Ledger.add_eq_loading_iff hnew
  | registerNative name initializer => exact .machine fun _ _ => .rfl
  | edit change => exact .machine fun _ _ => .rfl
  | relocate finder workspace => exact .machine fun _ _ => .rfl
  | spawn => exact .spawn
  | drop f => exact .drop f
  | configure f setting =>
    exact .modify f (fun fiber => by cases setting <;> rfl) fun fiber => by cases setting <;> rfl
  | start f entry => exact .perform_start w f entry
  | advance f => exact .perform_advance h f
  | rouse f => exact .perform_rouse h f
  | expire f => exact .modify f (fun _ => rfl) fun _ => rfl

/-- A change keeps a world balanced. -/
theorem balanced (H : Change w new w') (h : w.Balanced refused) :
    w'.Balanced (new ++ refused) := by
  cases H with
  | machine hs => exact h.of_machine hs
  | spawn => exact h.spawn
  | drop f => exact h.drop f
  | modify f frames activity => exact h.modifyFiber f frames activity
  | update hf H => exact h.update hf H

/-- A load that a fiber carries is carried on, or has ended. -/
theorem carried_or_ended (H : Change w new w') (h : w.Balanced refused) {f : FiberId}
    {fiber : Fiber} {id : ModuleId} (hf : w.fiber? f = some fiber) (hid : id ∈ fiber.loads) :
    (∃ fiber', w'.fiber? f = some fiber' ∧ id ∈ fiber'.loads) ∨
      ∃ s, w'.machine.state? id = some s ∧ s.Ended := by
  have hbalanced := (h.fiber f fiber hf).2
  cases H with
  | machine hs => exact .inl ⟨fiber, hf, hid⟩
  | spawn =>
    refine .inl ⟨fiber, ?_, hid⟩
    rw [fiber?_spawn, if_neg (Nat.ne_of_lt (lt_of_fiber? hf))]
    exact hf
  | drop g =>
    by_cases hgf : f = g
    · subst hgf
      exact .inr (ended_drop (hbalanced.carried id hid))
    · exact .inl ⟨fiber, (fiber?_drop_of_ne hgf).trans hf, hid⟩
  | @modify g change frames activity =>
    by_cases hgf : f = g
    · subst hgf
      refine .inl ⟨change fiber, by rw [fiber?_modifyFiber_self, hf]; rfl, ?_⟩
      rwa [Fiber.loads, frames, activity]
    · exact .inl ⟨fiber, (fiber?_modifyFiber_of_ne hgf _).trans hf, hid⟩
  | @update g fiber' ids c hg H =>
    by_cases hgf : f = g
    · subst hgf
      cases Option.some.inj (hg.symm.trans hf)
      refine (H.moves.carried_or_ended hbalanced hid).imp_left fun hid => ?_
      exact ⟨c.fiber, fiber?_update_self hf, hid⟩
    · exact .inl ⟨fiber, (fiber?_update_of_ne hgf).trans hf, hid⟩

end Change

/-- Every reachable world is balanced. -/
theorem Balanced.run {w : World} {refused : List (ModuleId × FiberId)} (h : w.Balanced refused)
    (events : List Event) : (w.run events).Balanced (w.allRefusals events ++ refused) := by
  induction events generalizing w refused with
  | nil => exact h
  | cons e events ih =>
    have := ih ((Change.perform h e).balanced h)
    rwa [← List.append_assoc] at this

theorem balanced_run (events : List Event) :
    (run {} events).Balanced (allRefusals {} events) :=
  List.append_nil (allRefusals {} events) ▸ Balanced.empty.run events

theorem Balanced.drive_succ {w : World} {refused : List (ModuleId × FiberId)}
    (h : w.Balanced refused) (f : FiberId) (fuel : Nat) :
    w.drive (fuel + 1) f = (w.drive 1 f).drive fuel f := by
  cases hf : w.fiber? f with
  | none =>
    have same (n : Nat) : w.drive n f = w := by rw [World.drive, hf]
    rw [same, same, same]
  | some fiber =>
    have hid : (Context.drive 1 ⟨w.machine, f, fiber⟩).id = f := by
      simp only [Context.drive]
      split
      · rfl
      · exact (Context.advance_leads ⟨w.machine, f, fiber⟩ (h.fiber f fiber hf).1).id
    rw [drive_eq_update hf, drive_eq_update hf 1, drive_eq_update (fiber?_update_self hf),
      update_update, Context.drive_succ]
    generalize Context.drive 1 ⟨w.machine, f, fiber⟩ = c at hid
    cases hid
    rfl

/-- A fiber that runs makes nothing but transitions. -/
theorem drive_eq_run (events : List Event) (fuel : Nat) (f : FiberId) :
    (run {} events).drive fuel f = run {} (events ++ List.replicate fuel (.advance f)) := by
  induction fuel generalizing events with
  | zero =>
    rw [List.replicate_zero, List.append_nil]
    cases hf : (run {} events).fiber? f with
    | none => rw [drive, hf]
    | some fiber => rw [drive_eq_update hf, Context.drive, update_self hf]
  | succ fuel ih =>
    have hstep : (run {} events).drive 1 f = run {} (events ++ [.advance f]) := by
      rw [run_append]
      rfl
    rw [(balanced_run events).drive_succ, hstep, ih, List.append_assoc, List.replicate_succ]
    rfl

/--
**Which modules are loading.** In every reachable world, a module is loading on behalf of a fiber
exactly if the fiber is there and carries the load, or the fiber was refused the module's frame.
Whatever happens next, a load that a fiber carries is carried on or has ended.
-/
theorem loading_iff_carried_or_refused (events : List Event) (id : ModuleId) (f : FiberId) :
    ((run {} events).machine.state? id = some (.loading f) ↔
      ∃ fiber, (run {} events).fiber? f = some fiber ∧
        (fiber.Carries id ∨ (id, f) ∈ allRefusals {} events)) ∧
    ∀ e fiber, (run {} events).fiber? f = some fiber → fiber.Carries id →
      (∃ fiber', (run {} (events ++ [e])).fiber? f = some fiber' ∧ fiber'.Carries id) ∨
        ∃ s, (run {} (events ++ [e])).machine.state? id = some s ∧ s.Ended := by
  have h := balanced_run events
  refine ⟨⟨fun hid => ?_, ?_⟩, fun e fiber hf hid => ?_⟩
  · obtain ⟨fiber, hf⟩ := h.alive id f hid
    refine ⟨fiber, hf, ?_⟩
    rw [← Fiber.mem_loads_iff, ← mem_refusedTo]
    exact (h.fiber f fiber hf).2.loading id hid
  · rintro ⟨fiber, hf, hid⟩
    rw [← Fiber.mem_loads_iff, ← mem_refusedTo] at hid
    exact ((h.fiber f fiber hf).2.loading_iff id).mpr hid
  · simp only [run_append, run_cons, run_nil, ← Fiber.mem_loads_iff] at hid ⊢
    exact (Change.perform h e).carried_or_ended h hf hid

/-- A fiber with the given depth limit starts to load a module that does nothing. -/
def loadingEvents (depth : Nat) : List Event :=
  [.register { name := "m", pool := #[.code {
      name := none, signature := {}, captures := []
      instructions := #[{ opcode := .pushNull }, { opcode := .return }] }] },
    .spawn, .configure ⟨0⟩ (.maxDepth depth), .start ⟨0⟩ (.load "m"), .advance ⟨0⟩, .advance ⟨0⟩]

/-- Within the limit the load is carried by a frame, until it ends with the fiber. -/
theorem carried_until_dropped :
    ∃ fiber, (run {} (loadingEvents 1)).fiber? ⟨0⟩ = some fiber ∧ fiber.Carries ⟨0⟩ ∧
      (run {} (loadingEvents 1)).machine.state? ⟨0⟩ = some (.loading ⟨0⟩) ∧
      ∃ s, (run {} (loadingEvents 1 ++ [.drop ⟨0⟩])).machine.state? ⟨0⟩ = some s ∧ s.Ended := by
  obtain ⟨hloading, hended⟩ := loading_iff_carried_or_refused (loadingEvents 1) ⟨0⟩ ⟨0⟩
  obtain ⟨fiber, hf, hid⟩ := hloading.mp rfl
  have hcarries : fiber.Carries ⟨0⟩ := hid.resolve_right (nomatch ·)
  refine ⟨fiber, hf, hcarries, rfl, (hended (.drop ⟨0⟩) fiber hf hcarries).resolve_left ?_⟩
  rintro ⟨_, hf, _⟩
  exact nomatch hf

/-- Without room for a frame, the entry ends and the module is left loading. -/
theorem stranded_without_frame :
    (run {} (loadingEvents 0)).machine.state? ⟨0⟩ = some (.loading ⟨0⟩) ∧
      ∃ fiber, (run {} (loadingEvents 0)).fiber? ⟨0⟩ = some fiber ∧
        fiber.activity.isAtRest ∧ ¬ fiber.Carries ⟨0⟩ := by
  refine ⟨rfl, _, rfl, rfl, fun h => ?_⟩
  rw [← Fiber.mem_loads_iff] at h
  exact nomatch h

end World

end FiberMachine
