import FiberMachine.World

/-!
# The ledger of loads

What loading comes to for one fiber: the states of all modules, and the modules whose load the fiber
carries, in a frame that finishes the module when it completes or in a native initializer that has
not ended. `Ledger.Moves` says what can happen to a ledger. The invariant `Ledger.Balanced` follows
from that alone: a module is loading on behalf of the fiber exactly if the fiber carries its load or
the depth limit refused the module's frame.
-/

namespace FiberMachine

def Machine.state? (m : Machine) (id : ModuleId) : Option ModuleState :=
  (m.module? id).map ModuleEntry.state

/-- The module is loaded or has failed. -/
def ModuleState.Ended : ModuleState → Prop
  | .loaded | .failed _ => True
  | .registered | .loading _ => False

/-! ## The loads that a fiber carries -/

/-- The module that is finished when the frame completes. -/
def Frame.load? (f : Frame) : Option ModuleId :=
  match f.continuation with
  | .module id _ => some id
  | _ => none

/-- The modules that frames load, the innermost first. -/
def frameLoads (frames : List Frame) : List ModuleId := frames.filterMap Frame.load?

mutual

/-- The native modules whose initializers are suspended until the result is there. -/
def Pending.loads : Pending → List ModuleId
  | .instruction _ _ caller => caller.loads
  | .entry caller => caller.loads

def Caller.loads : Caller → List ModuleId
  | .host => []
  | .program _ purpose => purpose.loads

def Purpose.loads : Purpose → List ModuleId
  | .call pending => pending.loads
  | .load id pending => id :: pending.loads

end

/-- The native modules whose initializers the fiber is inside of. -/
def Activity.loads : Activity → List ModuleId
  | .idle => []
  | .running _ caller | .replied _ caller => caller.loads
  | .program _ purpose => purpose.loads
  | .finding _ pending | .found _ _ pending | .entering _ _ pending | .waiting _ _ pending
  | .answered _ pending => pending.loads

def Fiber.loads (f : Fiber) : List ModuleId := f.activity.loads ++ frameLoads f.frames

/-! ## Ledgers -/

structure Ledger where
  states : ModuleId → Option ModuleState
  loads : List ModuleId

namespace Ledger

/-- The states with another state of a module that is there. -/
def update (states : ModuleId → Option ModuleState) (id : ModuleId) (s : ModuleState) :
    ModuleId → Option ModuleState :=
  fun other => if other = id then (states other).map fun _ => s else states other

/-- The states with a new module. -/
def add (states : ModuleId → Option ModuleState) (id : ModuleId) :
    ModuleId → Option ModuleState :=
  fun other => if other = id then some .registered else states other

/--
What the transitions of the fiber `f` do to its ledger. The list in the middle has the modules
that were marked as loading although the depth limit refused their frame.
-/
inductive Moves (f : FiberId) (ℓ : Ledger) : List ModuleId → Ledger → Prop where
  | refl : Moves f ℓ [] ℓ
  /-- A module is registered. -/
  | register {refused states loads id} : Moves f ℓ refused ⟨states, loads⟩ → states id = none →
      Moves f ℓ refused ⟨add states id, loads⟩
  /-- The fiber starts to load a module. -/
  | start {refused states loads loads' id} : Moves f ℓ refused ⟨states, loads⟩ →
      states id = some .registered → loads'.Perm (id :: loads) →
      Moves f ℓ refused ⟨update states id (.loading f), loads'⟩
  /-- The fiber marks a module as loading and does not carry its load. -/
  | refuse {refused states loads id} : Moves f ℓ refused ⟨states, loads⟩ →
      states id = some .registered →
      Moves f ℓ (id :: refused) ⟨update states id (.loading f), loads⟩
  /-- A load ends. -/
  | finish {refused states loads loads' id s} : Moves f ℓ refused ⟨states, loads⟩ →
      loads.Perm (id :: loads') → s.Ended → Moves f ℓ refused ⟨update states id s, loads'⟩

section States

variable {states : ModuleId → Option ModuleState} {id other : ModuleId} {s t : ModuleState}

theorem update_self (h : states id = some t) : update states id s id = some s := by
  rw [update, if_pos rfl, h, Option.map_some]

theorem update_of_ne (h : other ≠ id) : update states id s other = states other := if_neg h

/-- A state that a module has after an update is the new one or was there before. -/
theorem of_update_eq_some (h : update states id s other = some t) :
    (other = id ∧ t = s) ∨ (other ≠ id ∧ states other = some t) := by
  by_cases hother : other = id
  · obtain ⟨_, _, rfl⟩ := Option.map_eq_some_iff.mp ((if_pos hother).symm.trans h)
    exact .inl ⟨hother, rfl⟩
  · exact .inr ⟨hother, (update_of_ne hother).symm.trans h⟩

/-- A new module is not loading. -/
theorem add_eq_loading_iff {f : FiberId} (h : states id = none) :
    add states id other = some (.loading f) ↔ states other = some (.loading f) := by
  by_cases hother : other = id
  · rw [add, if_pos hother, hother, h]
    exact ⟨nofun, nofun⟩
  · rw [add, if_neg hother]

end States

/-- A module is loading on behalf of `f` exactly if `f` carries its load or it was refused. -/
structure Balanced (f : FiberId) (refused : List ModuleId) (ℓ : Ledger) : Prop where
  nodup : ℓ.loads.Nodup
  carried : ∀ id ∈ ℓ.loads, ℓ.states id = some (.loading f)
  loading : ∀ id, ℓ.states id = some (.loading f) → id ∈ ℓ.loads ∨ id ∈ refused
  stuck : ∀ id ∈ refused, ℓ.states id = some (.loading f) ∧ id ∉ ℓ.loads

namespace Balanced

variable {f : FiberId} {refused : List ModuleId} {ℓ : Ledger}
  {states : ModuleId → Option ModuleState} {loads loads' : List ModuleId} {id : ModuleId}
  {s : ModuleState}

theorem loading_iff (h : Balanced f refused ℓ) (id : ModuleId) :
    ℓ.states id = some (.loading f) ↔ id ∈ ℓ.loads ∨ id ∈ refused :=
  ⟨h.loading id, fun h' => h'.elim (h.carried id) fun hr => (h.stuck id hr).1⟩

/-- Only what is loading on behalf of `f` matters. -/
theorem of_loading_iff {states' : ModuleId → Option ModuleState}
    (h : Balanced f refused ⟨states, loads⟩)
    (hs : ∀ id, states' id = some (.loading f) ↔ states id = some (.loading f)) :
    Balanced f refused ⟨states', loads⟩ :=
  ⟨h.nodup, fun id hid => (hs id).mpr (h.carried id hid),
    fun id hid => h.loading id ((hs id).mp hid),
    fun id hid => ⟨(hs id).mpr (h.stuck id hid).1, (h.stuck id hid).2⟩⟩

theorem register (h : Balanced f refused ⟨states, loads⟩) (hid : states id = none) :
    Balanced f refused ⟨add states id, loads⟩ :=
  h.of_loading_iff fun _ => add_eq_loading_iff hid

/-- A module that is loading already is not the one that is registered. -/
theorem keep_of_registered (hid : states id = some .registered) {other : ModuleId}
    (hother : states other = some (.loading f)) :
    other ≠ id ∧ update states id s other = some (.loading f) := by
  have hne : other ≠ id := by
    rintro rfl
    exact nomatch hid.symm.trans hother
  exact ⟨hne, (update_of_ne hne).trans hother⟩

theorem start (h : Balanced f refused ⟨states, loads⟩) (hid : states id = some .registered)
    (hp : loads'.Perm (id :: loads)) :
    Balanced f refused ⟨update states id (.loading f), loads'⟩ := by
  have hmem : ∀ other, other ∈ loads' ↔ other = id ∨ other ∈ loads := fun other => by
    rw [hp.mem_iff, List.mem_cons]
  refine ⟨?nodup, fun other hother => ?carried, fun other hother => ?loading,
    fun other hother => ?stuck⟩
  case nodup =>
    refine hp.nodup_iff.mpr (List.nodup_cons.mpr ⟨fun hid' => ?_, h.nodup⟩)
    exact nomatch hid.symm.trans (h.carried id hid')
  case carried =>
    rcases (hmem other).mp hother with rfl | hother
    · exact update_self hid
    · exact (keep_of_registered hid (h.carried other hother)).2
  case loading =>
    rcases of_update_eq_some hother with ⟨rfl, _⟩ | ⟨_, h'⟩
    · exact .inl ((hmem _).mpr (.inl rfl))
    · exact (h.loading other h').imp_left fun hl => (hmem other).mpr (.inr hl)
  case stuck =>
    obtain ⟨hs, hl⟩ := h.stuck other hother
    obtain ⟨hne, hkeep⟩ := keep_of_registered hid hs
    exact ⟨hkeep, fun hother => ((hmem other).mp hother).elim hne hl⟩

theorem refuse (h : Balanced f refused ⟨states, loads⟩) (hid : states id = some .registered) :
    Balanced f (id :: refused) ⟨update states id (.loading f), loads⟩ := by
  refine ⟨h.nodup, fun other hother => (keep_of_registered hid (h.carried other hother)).2,
    fun other hother => ?loading, fun other hother => ?stuck⟩
  case loading =>
    rcases of_update_eq_some hother with ⟨rfl, _⟩ | ⟨_, h'⟩
    · exact .inr (List.mem_cons_self ..)
    · exact (h.loading other h').imp_right (List.mem_cons_of_mem _)
  case stuck =>
    rcases List.mem_cons.mp hother with rfl | hother
    · exact ⟨update_self hid, fun hid' => nomatch hid.symm.trans (h.carried other hid')⟩
    · obtain ⟨hs, hl⟩ := h.stuck other hother
      exact ⟨(keep_of_registered hid hs).2, hl⟩

theorem finish (h : Balanced f refused ⟨states, loads⟩) (hp : loads.Perm (id :: loads'))
    (hs : s.Ended) : Balanced f refused ⟨update states id s, loads'⟩ := by
  obtain ⟨hid, hnodup⟩ := List.nodup_cons.mp (hp.nodup_iff.mp h.nodup)
  have hmem : ∀ other, other ∈ loads ↔ other = id ∨ other ∈ loads' := fun other => by
    rw [hp.mem_iff, List.mem_cons]
  refine ⟨hnodup, fun other hother => ?carried, fun other hother => ?loading,
    fun other hother => ?stuck⟩
  case carried =>
    have hne : other ≠ id := fun h => hid (h ▸ hother)
    exact (update_of_ne hne).trans (h.carried other ((hmem other).mpr (.inr hother)))
  case loading =>
    rcases of_update_eq_some hother with ⟨_, rfl⟩ | ⟨hne, h'⟩
    · exact hs.elim
    · exact (h.loading other h').imp_left fun hl => ((hmem other).mp hl).resolve_left hne
  case stuck =>
    obtain ⟨hst, hl⟩ := h.stuck other hother
    have hne : other ≠ id := fun h => hl ((hmem other).mpr (.inl h))
    exact ⟨(update_of_ne hne).trans hst, fun hother => hl ((hmem other).mpr (.inr hother))⟩

end Balanced

namespace Moves

variable {f g : FiberId} {ℓ ℓ' ℓ'' : Ledger} {refused refused' : List ModuleId} {id : ModuleId}

theorem trans (H : Moves f ℓ refused ℓ') (H' : Moves f ℓ' refused' ℓ'') :
    Moves f ℓ (refused' ++ refused) ℓ'' := by
  induction H' with
  | refl => exact H
  | register _ h ih => exact .register ih h
  | start _ h hp ih => exact .start ih h hp
  | refuse _ h ih => exact .refuse ih h
  | finish _ hp hs ih => exact .finish ih hp hs

/-- Moves of a fiber keep its ledger balanced. -/
theorem balanced (H : Moves f ℓ refused' ℓ') (h : Balanced f refused ℓ) :
    Balanced f (refused' ++ refused) ℓ' := by
  induction H with
  | refl => exact h
  | register _ hid ih => exact ih.register hid
  | start _ hid hp ih => exact ih.start hid hp
  | refuse _ hid ih => exact ih.refuse hid
  | finish _ hp hs ih => exact ih.finish hp hs

/-- Moves of a fiber do not change what is loading on behalf of others. -/
theorem loading_other_iff (H : Moves f ℓ refused' ℓ') (h : Balanced f refused ℓ) (hg : g ≠ f) :
    ℓ'.states id = some (.loading g) ↔ ℓ.states id = some (.loading g) := by
  induction H with
  | refl => exact .rfl
  | register _ hnew ih => exact (add_eq_loading_iff hnew).trans ih
  | @start _ states _ _ new _ hnew _ ih | @refuse _ states _ new _ hnew ih =>
    refine Iff.trans ⟨fun h' => ?_, fun h' => (Balanced.keep_of_registered hnew h').2⟩ ih
    rcases of_update_eq_some h' with ⟨_, h'⟩ | ⟨_, h'⟩
    · exact absurd (ModuleState.loading.inj h') hg
    · exact h'
  | @finish _ states loads _ old s H hp hs ih =>
    refine Iff.trans ⟨fun h' => ?_, fun h' => ?_⟩ ih
    · rcases of_update_eq_some h' with ⟨_, rfl⟩ | ⟨_, h'⟩
      · exact hs.elim
      · exact h'
    · refine (update_of_ne ?_).trans h'
      rintro rfl
      have hold := (H.balanced h).carried id (hp.mem_iff.mpr (List.mem_cons_self ..))
      exact hg (ModuleState.loading.inj (Option.some.inj (h'.symm.trans hold)))

/-- Moves of a fiber let nothing load on behalf of others. -/
theorem eq_of_loading (H : Moves f ℓ refused ℓ')
    (h : ∀ id g, ℓ.states id = some (.loading g) → g = f) :
    ∀ id g, ℓ'.states id = some (.loading g) → g = f := by
  induction H with
  | refl => exact h
  | register _ hnew ih => exact fun id g hg => ih id g ((add_eq_loading_iff hnew).mp hg)
  | start _ _ _ ih | refuse _ _ ih =>
    intro id g hg
    rcases of_update_eq_some hg with ⟨_, hg⟩ | ⟨_, hg⟩
    · exact ModuleState.loading.inj hg
    · exact ih id g hg
  | finish _ _ hs ih =>
    intro id g hg
    rcases of_update_eq_some hg with ⟨_, rfl⟩ | ⟨_, hg⟩
    · exact hs.elim
    · exact ih id g hg

/-- A load that a fiber carries is carried on until it has ended. -/
theorem carried_or_ended (H : Moves f ℓ refused' ℓ') (h : Balanced f refused ℓ)
    (hid : id ∈ ℓ.loads) : id ∈ ℓ'.loads ∨ ∃ s, ℓ'.states id = some s ∧ s.Ended := by
  induction H with
  | refl => exact .inl hid
  | @register _ states _ new _ hnew ih =>
    refine ih.imp_right fun ⟨s, hs, hend⟩ => ⟨s, (if_neg ?_).trans hs, hend⟩
    rintro rfl
    exact nomatch hnew.symm.trans hs
  | @start _ states _ _ new _ hnew hp ih =>
    refine ih.imp (fun hl => hp.mem_iff.mpr (List.mem_cons_of_mem _ hl)) ?_
    rintro ⟨s, hs, hend⟩
    refine ⟨s, (update_of_ne ?_).trans hs, hend⟩
    rintro rfl
    cases Option.some.inj (hnew.symm.trans hs)
    exact hend
  | @refuse _ states _ new _ hnew ih =>
    refine ih.imp_right fun ⟨s, hs, hend⟩ => ⟨s, (update_of_ne ?_).trans hs, hend⟩
    rintro rfl
    cases Option.some.inj (hnew.symm.trans hs)
    exact hend
  | @finish _ states loads loads' old s H hp hs ih =>
    have hold := (H.balanced h).carried old (hp.mem_iff.mpr (List.mem_cons_self ..))
    by_cases hne : id = old
    · subst hne
      exact .inr ⟨s, update_self hold, hs⟩
    · refine ih.imp (fun hl => (List.mem_cons.mp (hp.mem_iff.mp hl)).resolve_left hne) ?_
      exact fun ⟨s, hs, hend⟩ => ⟨s, (update_of_ne hne).trans hs, hend⟩

end Moves

end Ledger

end FiberMachine
