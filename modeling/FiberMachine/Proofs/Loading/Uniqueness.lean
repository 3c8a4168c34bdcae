import FiberMachine.Proofs.Loading.Registry
import FiberMachine.Proofs.Loading.Stranded
import Mathlib.Logic.Relation

/-!
# One load for each module, one module for each name

However the transitions of fibers interleave, the state of a module goes one way, its top-level code
or native initializer starts at most once, and a name is resolved to one module and one object as
long as the host does not hand over another module of this name (`World.modules_load_once`).
-/

namespace FiberMachine

open Relation (ReflTransGen)

/-! ## States -/

namespace ModuleState

/-- What happens to the state of a module. -/
inductive Step : ModuleState → ModuleState → Prop where
  | load {f : FiberId} : Step .registered (.loading f)
  | finish {f : FiberId} {s : ModuleState} : s.Ended → Step (.loading f) s

variable {s t : ModuleState}

theorem eq_of_reaches_registered (h : ReflTransGen Step s .registered) : s = .registered := by
  cases h with
  | refl => rfl
  | tail _ hstep =>
    cases hstep with
    | finish hend => exact hend.elim

/-- A module that is loaded or has failed stays so. -/
theorem Ended.eq_of_reaches (h : s.Ended) (H : ReflTransGen Step s t) : t = s := by
  rcases H.cases_head with rfl | ⟨_, hstep, _⟩
  · rfl
  · cases hstep with
    | load => exact h.elim
    | finish _ => exact h.elim

end ModuleState

open ModuleState (Step)

namespace Ledger.Moves

variable {f : FiberId} {ℓ ℓ' : Ledger} {refused refused' : List ModuleId} {id : ModuleId}
  {s : ModuleState}

/-- Moves of a fiber take states forward. -/
theorem progress (H : Moves f ℓ refused' ℓ') (h : Balanced f refused ℓ)
    (hs : ℓ.states id = some s) : ∃ t, ℓ'.states id = some t ∧ ReflTransGen Step s t := by
  induction H with
  | refl => exact ⟨s, hs, .refl⟩
  | @register _ states _ new _ hnew ih =>
    obtain ⟨t, ht, hreaches⟩ := ih
    refine ⟨t, (if_neg ?_).trans ht, hreaches⟩
    rintro rfl
    exact nomatch hnew.symm.trans ht
  | @start _ states _ _ new _ hnew _ ih | @refuse _ states _ new _ hnew ih =>
    obtain ⟨t, ht, hreaches⟩ := ih
    by_cases hid : id = new
    · subst hid
      cases Option.some.inj (hnew.symm.trans ht)
      exact ⟨.loading f, update_self ht, hreaches.tail .load⟩
    · exact ⟨t, (update_of_ne hid).trans ht, hreaches⟩
  | @finish _ states loads _ old e H hp hend ih =>
    obtain ⟨t, ht, hreaches⟩ := ih
    by_cases hid : id = old
    · subst hid
      have hold := (H.balanced h).carried id (hp.mem_iff.mpr List.mem_cons_self)
      cases Option.some.inj (hold.symm.trans ht)
      exact ⟨e, update_self ht, hreaches.tail (.finish hend)⟩
    · exact ⟨t, (update_of_ne hid).trans ht, hreaches⟩

/-- The fiber takes up only loads of modules that nobody has loaded. -/
theorem started (H : Moves f ℓ refused' ℓ') (h : Balanced f refused ℓ) (hbefore : id ∉ ℓ.loads)
    (hafter : id ∈ ℓ'.loads) : ∀ s, ℓ.states id = some s → s = .registered := by
  intro s hs
  induction H with
  | refl => exact absurd hafter hbefore
  | register _ _ ih => exact ih hafter
  | refuse _ _ ih => exact ih hafter
  | @start _ states _ _ new H hnew hp ih =>
    rcases List.mem_cons.mp (hp.mem_iff.mp hafter) with rfl | hmem
    · obtain ⟨t, ht, hreaches⟩ := H.progress h hs
      cases Option.some.inj (hnew.symm.trans ht)
      exact ModuleState.eq_of_reaches_registered hreaches
    · exact ih hmem
  | finish _ hp _ ih => exact ih (hp.mem_iff.mpr (List.mem_cons_of_mem _ hafter))

end Ledger.Moves

namespace World

variable {w w' : World} {e : Event} {refused : List (ModuleId × FiberId)} {f : FiberId}
  {fiber : Fiber} {id : ModuleId} {s : ModuleState}

theorem Balanced.progress_update (h : w.Balanced refused) (hf : w.fiber? f = some fiber)
    {ids : List ModuleId} {c : Context}
    (H : Context.Leads ⟨w.machine, f, fiber⟩ fiber.activity.loads ids c)
    (hs : w.machine.state? id = some s) :
    ∃ t, (w.update f c).machine.state? id = some t ∧ ReflTransGen Step s t :=
  H.moves.progress (h.fiber f fiber hf).2 hs

theorem Balanced.progress_drop (hs : w.machine.state? id = some s) (f : FiberId) :
    ∃ t, (w.drop f).machine.state? id = some t ∧ ReflTransGen Step s t := by
  by_cases hloading : s = .loading f
  · subst hloading
    obtain ⟨t, ht, hend⟩ := ended_drop hs
    exact ⟨t, ht, .single (.finish hend)⟩
  · refine ⟨s, (state?_failAll_of_notMem (w.machine.setWait f none) ?_).trans hs, .refl⟩
    exact fun hmem => hloading (Option.some.inj (hs.symm.trans (mem_loadedBy.mp hmem)))

/-- An event takes states forward. -/
theorem Balanced.progress (h : w.Balanced refused) (e : Event)
    (hs : w.machine.state? id = some s) :
    ∃ t, (w.perform e).machine.state? id = some t ∧ ReflTransGen Step s t := by
  cases e with
  | register linked =>
    obtain ⟨new, hnew, heq⟩ := w.machine.state?_register linked
    refine ⟨s, (congrFun heq id).trans ((if_neg ?_).trans hs), .refl⟩
    rintro rfl
    exact nomatch hnew.symm.trans hs
  | registerNative name initializer | edit change | relocate finder workspace | spawn
  | configure f setting | expire f => exact ⟨s, hs, .refl⟩
  | drop f => exact progress_drop hs f
  | start f entry =>
    rcases w.perform_start_cases f entry with heq | ⟨fiber, hf, hrest, _, heq⟩
    · rw [heq]
      exact ⟨s, hs, .refl⟩
    · have H := Context.Leads.start ⟨w.machine, f, fiber⟩ entry .host
      rw [Caller.loads, ← Activity.loads_of_isAtRest hrest] at H
      rw [heq]
      exact h.progress_update hf H hs
  | advance f =>
    rcases w.perform_advance_cases f with heq | ⟨fiber, hf, _, _, heq⟩
    · rw [heq]
      exact ⟨s, hs, .refl⟩
    · have hplain := (h.fiber f fiber hf).1
      rw [heq]
      exact h.progress_update hf (Context.advance_leads ⟨w.machine, f, fiber⟩ hplain) hs
  | rouse f =>
    rcases w.perform_rouse_cases f with heq | ⟨fiber, hf, _, heq⟩
    · rw [heq]
      exact ⟨s, hs, .refl⟩
    · have hplain := (h.fiber f fiber hf).1
      rw [heq]
      exact h.progress_update hf (Context.advance_leads ⟨w.machine, f, fiber⟩ hplain) hs

theorem Balanced.progress_run (h : w.Balanced refused) (events : List Event)
    (hs : w.machine.state? id = some s) :
    ∃ t, (w.run events).machine.state? id = some t ∧ ReflTransGen Step s t := by
  induction events generalizing w refused s with
  | nil => exact ⟨s, hs, .refl⟩
  | cons e events ih =>
    obtain ⟨t, ht, hreaches⟩ := h.progress e hs
    obtain ⟨u, hu, hreaches'⟩ := ih ((Change.perform h e).balanced h) ht
    exact ⟨u, hu, hreaches.trans hreaches'⟩

/-! ## Starting to load -/

/-- In the event a fiber starts the top-level code or the native initializer of the module. -/
def Starts (w : World) (e : Event) (id : ModuleId) : Prop :=
  ∃ f fiber', (w.perform e).fiber? f = some fiber' ∧ fiber'.Carries id ∧
    ∀ fiber, w.fiber? f = some fiber → ¬ fiber.Carries id

/-- A fiber takes up only loads of modules that nobody has loaded. -/
theorem Change.started {new : List (ModuleId × FiberId)} (H : Change w new w')
    (h : w.Balanced refused) {fiber' : Fiber} (hf' : w'.fiber? f = some fiber')
    (hcarries : fiber'.Carries id) (hbefore : ∀ fiber, w.fiber? f = some fiber → ¬ fiber.Carries id)
    (hs : w.machine.state? id = some s) : s = .registered := by
  have spared (H : w.Spares w') : False := by
    rcases H f fiber' hf' with rfl | ⟨fiber, hf, hframes, hactivity⟩
    · exact nomatch Fiber.mem_loads_iff.mpr hcarries
    · rw [Fiber.Carries, hframes, hactivity] at hcarries
      exact hbefore fiber hf hcarries
  cases H with
  | machine _ => exact (spared (w.spares_machine _)).elim
  | spawn => exact (spared w.spares_spawn).elim
  | drop g => exact (spared (w.spares_drop g)).elim
  | modify g frames activity =>
    exact (spared (w.spares_modifyFiber g fun fiber => ⟨frames fiber, activity fiber⟩)).elim
  | @update g fiber ids c hg H =>
    rcases fiber?_of_update hg hf' with ⟨rfl, rfl⟩ | ⟨_, hf⟩
    · have hnotin : id ∉ fiber.loads := fun hmem => hbefore fiber hg (Fiber.mem_loads_iff.mp hmem)
      exact H.moves.started (h.fiber f fiber hg).2 hnotin (Fiber.mem_loads_iff.mpr hcarries) s hs
    · exact absurd hcarries (hbefore fiber' hf)

/-- A module that starts to load is registered before, and loading then. -/
theorem Starts.states (H : w.Starts e id) (h : w.Balanced refused) :
    (∀ s, w.machine.state? id = some s → s = .registered) ∧
      ∃ f, (w.perform e).machine.state? id = some (.loading f) := by
  obtain ⟨f, fiber', hf', hcarries, hbefore⟩ := H
  have hchange := Change.perform h e
  refine ⟨fun s hs => hchange.started h hf' hcarries hbefore hs, f, ?_⟩
  exact ((hchange.balanced h).fiber f fiber' hf').2.carried id (Fiber.mem_loads_iff.mpr hcarries)

/-! ## Names and objects -/

/-- Whatever was found has the name that it was looked for by. -/
def Named (w : World) : Prop := ∀ f fiber, w.fiber? f = some fiber → fiber.activity.Named

theorem Named.spared (h : w.Named) (H : w.Spares w') : w'.Named := by
  intro g fiber' hg
  rcases H g fiber' hg with rfl | ⟨fiber, hf, _, hactivity⟩
  · trivial
  · rw [hactivity]
    exact h g fiber hf

/-- The registry is kept apart from the names that are given again. -/
structure Preserves (w : World) (supplied : Option LinkedModule) (w' : World) : Prop where
  registry : w.machine.registry.Keeps supplied w'.machine.registry
  fresh : w.machine.Freshens w'.machine
  named : w'.Named

namespace Preserves

variable {supplied : Option LinkedModule}

theorem of_registry (h : w'.machine.registry = w.machine.registry) (hnamed : w'.Named) :
    w.Preserves supplied w' := ⟨.of_eq h, Machine.freshens_of_registry h, hnamed⟩

theorem update (h : w.Named) (hf : w.fiber? f = some fiber) {c : Context}
    (H : Context.Preserves ⟨w.machine, f, fiber⟩ supplied c) :
    w.Preserves supplied (w.update f c) := by
  refine ⟨H.registry, H.fresh, fun g fiber' hg => ?_⟩
  rcases fiber?_of_update hf hg with ⟨_, rfl⟩ | ⟨_, hg⟩
  · exact H.named
  · exact h g fiber' hg

theorem registry_failAll (m : Machine) (ids : List ModuleId) :
    (failAll m ids).registry = m.registry := by
  induction ids generalizing m with
  | nil => rfl
  | cons id rest ih =>
    let envelope := m.onHeap (·.envelope [] .moduleFailed)
    exact (ih _).trans (Machine.isApart_registry.finishModule envelope.2 id (some envelope.1))

/-- What an event does to the registry. -/
theorem perform (h : w.Named) (e : Event) : w.Preserves (w.supplied? e) (w.perform e) := by
  cases e with
  | register linked =>
    exact ⟨(w.machine.enrolls_register linked).keeps (.inr ⟨linked, rfl, rfl⟩),
      Machine.freshens_of_add (w.machine.state?_register linked), h⟩
  | registerNative name initializer | edit change | relocate finder workspace =>
    exact .of_registry rfl h
  | spawn => exact .of_registry rfl (h.spared w.spares_spawn)
  | drop f =>
    have hregistry := registry_failAll (w.machine.setWait f none) (w.loadedBy f)
    exact .of_registry hregistry (h.spared (w.spares_drop f))
  | configure f setting => exact .of_registry rfl (h.spared (w.spares_configure f setting))
  | start f entry =>
    rcases w.perform_start_cases f entry with heq | ⟨fiber, hf, _, hentry, heq⟩
    · rw [heq]
      exact .of_registry rfl h
    · rw [heq, hentry]
      exact .update h hf (Context.preserves_start _ entry .host)
  | advance f =>
    rcases w.perform_advance_cases f with heq | ⟨fiber, hf, _, hprogram, heq⟩
    · rw [heq]
      exact .of_registry rfl h
    · rw [heq, hprogram]
      exact .update h hf (Context.preserves_advance _ (h f fiber hf))
  | rouse f =>
    rcases w.perform_rouse_cases f with heq | ⟨fiber, hf, hwaiting, heq⟩
    · rw [heq]
      exact .of_registry rfl h
    · have H := Context.preserves_advance ⟨w.machine, f, fiber⟩ (h f fiber hf)
      have hsupplied : Context.supplied? ⟨w.machine, f, fiber⟩ = none := by
        obtain ⟨id, object, pending, hactivity⟩ := Activity.exists_of_isWaiting hwaiting
        simp only [Context.supplied?, hactivity]
      rw [hsupplied] at H
      rw [heq]
      exact .update h hf H
  | expire f => exact .of_registry rfl (h.spared (w.spares_expire f))

end Preserves

theorem named_empty : Named {} := fun _ _ h => by simp [fiber?] at h

theorem Named.run (h : w.Named) (events : List Event) : (w.run events).Named := by
  induction events generalizing w with
  | nil => exact h
  | cons e events ih => exact ih (Preserves.perform h e).named

theorem Named.objects_run (h : w.Named) (events : List Event) {o : Ref .object}
    (ho : w.machine.registry.objects id = some o) :
    (w.run events).machine.registry.objects id = some o := by
  induction events generalizing w with
  | nil => exact ho
  | cons e events ih =>
    have H := Preserves.perform h e
    exact ih H.named (H.registry.objects id o ho)

/-- A name stands for the same module until the host hands over another one of this name. -/
theorem Named.names_run (h : w.Named) {events : List Event} {name : String}
    (hid : w.machine.names.get? name = some id)
    (hsupplied : ∀ linked ∈ w.allSupplied events, linked.name ≠ name) :
    (w.run events).machine.names.get? name = some id := by
  induction events generalizing w with
  | nil => exact hid
  | cons e events ih =>
    have H := Preserves.perform h e
    obtain ⟨hfirst, hrest⟩ := List.forall_mem_append.mp hsupplied
    refine ih H.named (H.registry.names name id hid fun linked hlinked => ?_) hrest
    exact hfirst linked (Option.mem_toList.mpr hlinked)

/-- The module that a name is resolved to in an event. -/
def resolved? (w : World) : Event → Option (String × ModuleId)
  | .advance f => (w.fiber? f).bind fun fiber => Context.resolved? ⟨w.machine, f, fiber⟩
  | _ => none

theorem Named.resolved_names (h : w.Named) {name : String}
    (hresolved : w.resolved? e = some (name, id)) :
    (∀ known, w.machine.names.get? name = some known → known = id) ∧
      (w.perform e).machine.names.get? name = some id := by
  cases e with
  | advance f =>
    obtain ⟨fiber, hf, hresolved⟩ := Option.bind_eq_some_iff.mp hresolved
    rw [World.perform, drive_eq_update hf, Context.drive,
      if_neg (Context.not_isSettled_of_resolved? hresolved)]
    exact Context.resolved_names (h f fiber hf) hresolved
  | _ => cases hresolved

/-- A load by name ends successfully in the event, and yields the value. -/
def Yields (w : World) (e : Event) (id : ModuleId) (value : Value) : Prop :=
  ∃ f fiber, e = .advance f ∧ w.fiber? f = some fiber ∧
    Context.Yields ⟨w.machine, f, fiber⟩ id value

/-- The module that a fiber enters next, and the value that it gets at once. -/
def entered? (w : World) (f : FiberId) : Option (ModuleId × Value) :=
  (w.fiber? f).bind fun fiber => Context.entered? ⟨w.machine, f, fiber⟩

theorem yields_of_entered? {value : Value} (h : w.entered? f = some (id, value)) :
    w.Yields (.advance f) id value := by
  obtain ⟨fiber, hf, hentered⟩ := Option.bind_eq_some_iff.mp h
  exact ⟨f, fiber, rfl, hf, Context.yields_of_entered? hentered⟩

theorem objects_of_state? {m : Machine} (h : m.state? id = some s) :
    ∃ o, m.registry.objects id = some o := by
  obtain ⟨entry, hentry, _⟩ := Option.map_eq_some_iff.mp h
  exact ⟨entry.object, Option.map_eq_some_iff.mpr ⟨entry, hentry, rfl⟩⟩

/-- What a load yields is the object of the module. -/
theorem Yields.object {value : Value} (H : w.Yields e id value) (h : w.Balanced refused) :
    ∃ o, w.machine.registry.objects id = some o ∧ value = .object o := by
  obtain ⟨f, fiber, _, hf, H⟩ := H
  have carried (hmem : id ∈ fiber.loads) : ∃ o, w.machine.registry.objects id = some o :=
    objects_of_state? ((h.fiber f fiber hf).2.carried id hmem)
  have hknown : ∃ o, w.machine.registry.objects id = some o := by
    cases H with
    | entered hactivity hanswered => exact Context.objects_of_answered hactivity hanswered
    | initialized hactivity _ =>
      refine carried (List.mem_append_left _ ?_)
      rw [show fiber.activity = _ from hactivity]
      exact List.mem_cons_self
    | returned _ hframes htop _ _ | delivered _ hframes htop _ _ _ =>
      refine carried (Fiber.mem_loads_iff.mpr (.inl ⟨_, ?_, true, htop⟩))
      rw [show fiber.frames = _ from hframes]
      exact List.mem_cons_self
  obtain ⟨o, ho⟩ := hknown
  exact ⟨o, ho, H.object ho⟩

/--
**A module is loaded once, and a name stands for one module.** In every history, a module appears as
registered, and its state goes from there to loading to loaded or failed and nowhere else; its
top-level code or native initializer is started at most once; and what a name is resolved to, as
long as no other module of this name is handed over, is one module, all of whose loads yield one
object.
-/
theorem modules_load_once :
    (∀ before e id s, (run {} before).machine.state? id = none →
      (run {} (before ++ [e])).machine.state? id = some s → s = .registered) ∧
    (∀ before after id s, (run {} before).machine.state? id = some s →
      ∃ t, (run {} (before ++ after)).machine.state? id = some t ∧ ReflTransGen Step s t ∧
        (s.Ended → t = s)) ∧
    (∀ before e between e' id, (run {} before).Starts e id →
      ¬ (run {} (before ++ e :: between)).Starts e' id) ∧
    (∀ before e between e' name id id', (run {} before).resolved? e = some (name, id) →
      (run {} (before ++ e :: between)).resolved? e' = some (name, id') →
      (∀ linked ∈ (run {} (before ++ [e])).allSupplied between, linked.name ≠ name) → id' = id) ∧
    ∀ before e between e' id value value', (run {} before).Yields e id value →
      (run {} (before ++ e :: between)).Yields e' id value' →
      value' = value ∧ ∃ o, value = .object o := by
  simp only [run_append, run_cons, run_nil]
  refine ⟨fun before e id s hnone hs => ?fresh, fun before after id s hs => ?states,
    fun before e between e' id hstarts hstarts' => ?once,
    fun before e between e' name id id' hresolved hresolved' hsupplied => ?names,
    fun before e between e' id value value' hyields hyields' => ?objects⟩
  case fresh => exact (Preserves.perform (named_empty.run before) e).fresh id s hnone hs
  case states =>
    obtain ⟨t, ht, hreaches⟩ := (balanced_run before).progress_run after hs
    exact ⟨t, ht, hreaches, fun hend => hend.eq_of_reaches hreaches⟩
  case once =>
    have h := balanced_run before
    have h' := (Change.perform h e).balanced h
    obtain ⟨_, f, hloading⟩ := hstarts.states h
    obtain ⟨t, ht, hreaches⟩ := h'.progress_run between hloading
    -- To be started again the module would have to be registered, but it has left that state.
    obtain rfl := (hstarts'.states (h'.run between)).1 t ht
    cases ModuleState.eq_of_reaches_registered hreaches
  case names =>
    have hnamed := named_empty.run before
    have hnamed' := (Preserves.perform hnamed e).named
    have hid := hnamed'.names_run (hnamed.resolved_names hresolved).2 hsupplied
    exact (((hnamed'.run between).resolved_names hresolved').1 id hid).symm
  case objects =>
    have h := balanced_run before
    have hnamed := named_empty.run before
    obtain ⟨o, ho, rfl⟩ := hyields.object h
    obtain ⟨o', ho', rfl⟩ := hyields'.object (((Change.perform h e).balanced h).run between)
    cases Option.some.inj ((hnamed.objects_run (e :: between) ho).symm.trans ho')
    exact ⟨rfl, o, rfl⟩

/-- The source of one module is there, whose code does nothing. -/
def sourced : Event :=
  .relocate {
    compiler := some fun name _ =>
      .ok ⟨name, ⟨none, {}, [], [.plain .pushNull (.refl OperandKind.none),
        .plain .return (.refl OperandKind.none)], [], []⟩⟩ }
    { nodes := Dict.empty.insert "m.rf" (.file [] (.at 0)) }

/-- Two fibers have found the module in files, and neither has registered it. -/
def racing : List Event :=
  [sourced, .spawn, .spawn, .start ⟨0⟩ (.load "m"), .start ⟨1⟩ (.load "m"),
    .advance ⟨0⟩, .advance ⟨1⟩]

/-- Both fibers are about to enter the module, which the first one has registered. -/
def entering : List Event := racing ++ [.advance ⟨0⟩, .advance ⟨1⟩]

/-- The first fiber has loaded the module while the other one waited. -/
def waited : List Event :=
  entering ++ [.advance ⟨0⟩, .advance ⟨1⟩, .advance ⟨0⟩, .advance ⟨0⟩, .advance ⟨1⟩]

/-- The first fiber loads the module again, after the other one has got its object. -/
def again : List Event := [.start ⟨0⟩ (.load "m"), .advance ⟨0⟩]

/-- Both fibers get one module, which is started once, and one object. -/
theorem racing_loads_once :
    ((run {} racing).resolved? (.advance ⟨0⟩) = some ("m", ⟨0⟩) ∧
      (run {} (racing ++ [.advance ⟨0⟩])).resolved? (.advance ⟨1⟩) = some ("m", ⟨0⟩)) ∧
    ((run {} racing).machine.state? ⟨0⟩ = none ∧
      (run {} (racing ++ [.advance ⟨0⟩])).machine.state? ⟨0⟩ = some .registered) ∧
    ((run {} entering).Starts (.advance ⟨0⟩) ⟨0⟩ ∧
      ∀ between e, ¬ (run {} (entering ++ .advance ⟨0⟩ :: between)).Starts e ⟨0⟩) ∧
    ((run {} waited).machine.state? ⟨0⟩ = some .loaded ∧
      ∀ after, (run {} (waited ++ after)).machine.state? ⟨0⟩ = some .loaded) ∧
    ∃ value, (run {} waited).Yields (.advance ⟨1⟩) ⟨0⟩ value ∧
      (run {} (waited ++ .advance ⟨1⟩ :: again)).Yields (.advance ⟨0⟩) ⟨0⟩ value := by
  obtain ⟨hfresh, hstates, honce, hnames, hobjects⟩ := modules_load_once
  refine ⟨?names, ?fresh, ?once, ?states, ?objects⟩
  case names =>
    have hfirst : (run {} racing).resolved? (.advance ⟨0⟩) = some ("m", ⟨0⟩) := by decide +kernel
    have hsecond : ((run {} (racing ++ [.advance ⟨0⟩])).resolved? (.advance ⟨1⟩)).map Prod.fst =
        some "m" := by decide +kernel
    obtain ⟨⟨_, id⟩, hid, rfl⟩ := Option.map_eq_some_iff.mp hsecond
    cases hnames racing (.advance ⟨0⟩) [] (.advance ⟨1⟩) _ ⟨0⟩ id hfirst hid nofun
    exact ⟨hfirst, hid⟩
  case fresh =>
    have hnone : (run {} racing).machine.state? ⟨0⟩ = none := by decide +kernel
    have hsome : ((run {} (racing ++ [.advance ⟨0⟩])).machine.state? ⟨0⟩).isSome := by
      decide +kernel
    obtain ⟨s, hs⟩ := Option.isSome_iff_exists.mp hsome
    cases hfresh racing (.advance ⟨0⟩) ⟨0⟩ s hnone hs
    exact ⟨hnone, hs⟩
  case once =>
    have hbefore : ((run {} entering).fiber? ⟨0⟩).map Fiber.loads = some [] := by decide +kernel
    have hafter : (((run {} entering).perform (.advance ⟨0⟩)).fiber? ⟨0⟩).map Fiber.loads =
        some [⟨0⟩] := by decide +kernel
    have hstarts : (run {} entering).Starts (.advance ⟨0⟩) ⟨0⟩ := by
      obtain ⟨fiber', hf', hloads'⟩ := Option.map_eq_some_iff.mp hafter
      refine ⟨⟨0⟩, fiber', hf', Fiber.mem_loads_iff.mp (hloads' ▸ List.mem_cons_self), ?_⟩
      intro fiber hf hcarries
      rw [hf] at hbefore
      have hmem := Fiber.mem_loads_iff.mpr hcarries
      rw [Option.some.inj hbefore] at hmem
      exact nomatch hmem
    exact ⟨hstarts, fun between e => honce entering _ between e ⟨0⟩ hstarts⟩
  case states =>
    have hloaded : (run {} waited).machine.state? ⟨0⟩ = some .loaded := by decide +kernel
    refine ⟨hloaded, fun after => ?_⟩
    obtain ⟨t, ht, _, hstays⟩ := hstates waited after ⟨0⟩ .loaded hloaded
    cases hstays trivial
    exact ht
  case objects =>
    have hfirst : ((run {} waited).entered? ⟨1⟩).map Prod.fst = some ⟨0⟩ := by decide +kernel
    have hsecond : ((run {} (waited ++ .advance ⟨1⟩ :: again)).entered? ⟨0⟩).map Prod.fst =
        some ⟨0⟩ := by decide +kernel
    obtain ⟨⟨_, value⟩, hvalue, rfl⟩ := Option.map_eq_some_iff.mp hfirst
    obtain ⟨⟨_, value'⟩, hvalue', heq⟩ := Option.map_eq_some_iff.mp hsecond
    cases heq
    have hyields := yields_of_entered? hvalue
    have hyields' := yields_of_entered? hvalue'
    cases (hobjects waited _ again _ _ value value' hyields hyields').1
    exact ⟨value, hyields, hyields'⟩

end World

end FiberMachine
