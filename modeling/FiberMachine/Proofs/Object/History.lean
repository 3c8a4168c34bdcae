import FiberMachine.Execution
import FiberMachine.Proofs.Execution.Parts

/-!
# Histories of objects

An object only ever becomes stricter. Along any sequence of updates, whoever makes them and whatever
comes of each, attributes stay, flags stay set, the value of an attribute that is locked or is an
assigned const stays, and a sealed object keeps its names. An update that faults changes nothing
(`Exec.updates_evolve`).
-/

namespace FiberMachine

/-! ## What stays -/

/-- Whether no write reaches the attribute any more. -/
def Attribute.isFixed (a : Attribute) : Bool := a.constant && a.assigned || a.locked

/-- What may become of an attribute: flags stay set, and a fixed value stays. -/
structure Attribute.Evolves (a a' : Attribute) : Prop where
  assigned : a.assigned → a'.assigned
  constant : a.constant → a'.constant
  exported : a.exported → a'.exported
  locked : a.locked → a'.locked
  value : a.isFixed → a'.value = a.value

namespace Attribute.Evolves

variable {a a' a'' : Attribute}

theorem refl (a : Attribute) : a.Evolves a := ⟨id, id, id, id, fun _ => rfl⟩

theorem isFixed (H : a.Evolves a') (h : a.isFixed) : a'.isFixed := by
  simp only [Attribute.isFixed, Bool.or_eq_true, Bool.and_eq_true] at h ⊢
  exact h.imp (fun ⟨hconstant, hassigned⟩ => ⟨H.constant hconstant, H.assigned hassigned⟩) H.locked

theorem trans (H : a.Evolves a') (H' : a'.Evolves a'') : a.Evolves a'' where
  assigned h := H'.assigned (H.assigned h)
  constant h := H'.constant (H.constant h)
  exported h := H'.exported (H.exported h)
  locked h := H'.locked (H.locked h)
  -- a value that is fixed is still fixed after the first part
  value h := (H'.value (H.isFixed h)).trans (H.value h)

end Attribute.Evolves

namespace Object

/-- What may become of an object: its attributes stay, and if it is sealed there are no others. -/
structure Evolves (o o' : Object) : Prop where
  kept : ∀ name a, o.attributes.get? name = some a →
    ∃ a', o'.attributes.get? name = some a' ∧ a.Evolves a'
  sealed : o.sealed → o'.sealed
  names : o.sealed → o'.attributes.keys = o.attributes.keys

variable {o o' o'' : Object} {name : String}

theorem Evolves.refl (o : Object) : o.Evolves o := ⟨fun _ a h => ⟨a, h, .refl a⟩, id, fun _ => rfl⟩

theorem Evolves.trans (H : o.Evolves o') (H' : o'.Evolves o'') : o.Evolves o'' where
  kept name a h := by
    obtain ⟨a', h', Ha⟩ := H.kept name a h
    obtain ⟨a'', h'', Ha'⟩ := H'.kept name a' h'
    exact ⟨a'', h'', Ha.trans Ha'⟩
  sealed h := H'.sealed (H.sealed h)
  names h := (H'.names (H.sealed h)).trans (H.names h)

end Object

theorem Dict.keys_insert_of_get? {α : Type} {d : Dict α} {name : String} {v : α}
    (h : d.get? name = some v) (value : α) : (d.insert name value).keys = d.keys := by
  rw [Dict.keys_insert, if_pos]
  exact List.mem_map.mpr ⟨_, Dict.get?_eq_some_iff.mp h, rfl⟩

/-! ## One update -/

namespace Object

variable {o o' : Object} {name : String}

/-- Storing what an attribute may become, or a new one in an object that is not sealed. -/
theorem evolves_put {a' : Attribute}
    (hold : ∀ a, o.attributes.get? name = some a → a.Evolves a')
    (hnew : o.attributes.get? name = none → ¬ o.sealed) : o.Evolves (o.put name a') := by
  refine ⟨fun other a ha => ?_, id, fun hsealed => ?_⟩
  · simp only [put, Dict.get?_insert]
    split
    · rename_i heq
      subst heq
      exact ⟨a', rfl, hold a ha⟩
    · exact ⟨a, ha, .refl a⟩
  · cases ha : o.attributes.get? name with
    | none => exact absurd hsealed (hnew ha)
    | some a => exact Dict.keys_insert_of_get? ha a'

/-- A write that is admitted finds the attribute free to change, or finds none and no seal. -/
theorem writable_of_writeFault? {caller : Option ModuleId} (h : o.writeFault? name caller = none) :
    (∀ a, o.attributes.get? name = some a → a.isFixed = false) ∧
      (o.attributes.get? name = none → ¬ o.sealed) := by
  simp only [writeFault?] at h
  split at h
  · rename_i a ha
    refine ⟨fun a' ha' => ?_, fun hnone => nomatch hnone.symm.trans ha⟩
    cases Option.some.inj (ha.symm.trans ha')
    simp only [Attribute.isFixed]
    grind
  · rename_i hnone
    exact ⟨fun a ha => (nomatch hnone.symm.trans ha), by grind⟩

/-- A write that is admitted may set the value and further flags. -/
theorem evolves_write {caller : Option ModuleId} (h : o.writeFault? name caller = none)
    {a' : Attribute} (hold : ∀ a, o.attributes.get? name = some a → a'.assigned ∧
      (a.constant → a'.constant) ∧ (a.exported → a'.exported) ∧ (a.locked → a'.locked)) :
    o.Evolves (o.put name a') := by
  obtain ⟨hfree, hnew⟩ := writable_of_writeFault? h
  refine evolves_put (fun a ha => ?_) hnew
  obtain ⟨hassigned, hconstant, hexported, hlocked⟩ := hold a ha
  refine ⟨fun _ => hassigned, hconstant, hexported, hlocked, fun hfixed => ?_⟩
  exact nomatch (hfree a ha).symm.trans hfixed

theorem evolves_set {value : Value} {caller : Option ModuleId}
    (h : o.set name value caller = .ok o') : o.Evolves o' := by
  simp only [Object.set] at h
  split at h
  · exact nomatch h
  · rename_i hwrite
    split at h
    all_goals
      cases h
      apply evolves_write hwrite
      intro a ha
    · rename_i a' ha'
      cases Option.some.inj (ha'.symm.trans ha)
      exact ⟨rfl, id, id, id⟩
    · rename_i hnone
      exact nomatch hnone.symm.trans ha

theorem evolves_declareConst {value : Value} {caller : Option ModuleId}
    (h : o.declareConst name value caller = .ok o') : o.Evolves o' := by
  simp only [Object.declareConst] at h
  split at h
  · exact nomatch h
  · rename_i hwrite
    split at h
    all_goals
      cases h
      apply evolves_write hwrite
      intro a ha
    · rename_i a' ha'
      cases Option.some.inj (ha'.symm.trans ha)
      exact ⟨rfl, fun _ => rfl, id, id⟩
    · rename_i hnone
      exact nomatch hnone.symm.trans ha

theorem evolves_reserveConst (h : o.reserveConst name = .ok o') : o.Evolves o' := by
  unfold reserveConst at h
  split at h
  · exact nomatch h
  · rename_i habsent
    split at h
    · exact nomatch h
    · rename_i hsealed
      cases h
      apply evolves_put
      · intro a ha
        exact absurd (Option.isSome_of_eq_some ha) habsent
      · exact fun _ => hsealed

/-- A change of flags that sets some of them. -/
theorem evolves_adjust {caller : Option ModuleId} {change : Attribute → Attribute}
    (h : o.adjust name caller change = .ok o') (hchange : ∀ a : Attribute, a.Evolves (change a)) :
    o.Evolves o' := by
  simp only [adjust] at h
  split at h
  · exact nomatch h
  · rename_i a ha
    split at h
    · exact nomatch h
    · cases h
      apply evolves_put
      · intro b hb
        cases Option.some.inj (ha.symm.trans hb)
        exact hchange a
      · exact fun hnone => nomatch hnone.symm.trans ha

/-- **An update makes an object stricter, if anything.** -/
theorem evolves_update {u : Update} (h : o.update u = .ok o') : o.Evolves o' := by
  cases u with
  | set name value caller => exact evolves_set h
  | declareConst name value caller => exact evolves_declareConst h
  | reserveConst name => exact evolves_reserveConst h
  | «export» name caller =>
    apply evolves_adjust (show o.exportName name caller = .ok o' from h)
    exact fun a => ⟨id, id, fun _ => rfl, id, fun _ => rfl⟩
  | lock name caller =>
    apply evolves_adjust (show o.lock name caller = .ok o' from h)
    exact fun a => ⟨id, id, id, fun _ => rfl, fun _ => rfl⟩
  | «seal» =>
    cases h
    exact ⟨fun _ a ha => ⟨a, ha, .refl a⟩, fun _ => rfl, fun _ => rfl⟩

end Object

/-! ## Sequences of updates -/

/-- After updates of the object that `r` refers to, each made whatever came of those before. -/
def Local.updatedBy (l : Local) (r : Ref .object) (updates : List Object.Update) : Local :=
  updates.foldl (fun l u => ((Exec.update r u).run l).2) l

namespace Exec

variable {l : Local} {r : Ref .object} {o : Object}

theorem evolves_of_run_update (h : l.heap.object? r = some o) (u : Object.Update) :
    ∃ o', ((update r u).run l).2.heap.object? r = some o' ∧ o.Evolves o' := by
  have hupdated : l.heap.updated r u = o.update u := by rw [Heap.updated, h]
  rw [run_update, hupdated]
  cases hu : o.update u with
  | error fault => exact ⟨o, h, .refl o⟩
  | ok o' =>
    have hlt : r.index < l.heap.objects.size := (Array.getElem?_eq_some_iff.mp h).1
    refine ⟨o', ?_, Object.evolves_update hu⟩
    simp [Heap.object?, Heap.setObject, hlt]

theorem evolves_updatedBy (h : l.heap.object? r = some o) (updates : List Object.Update) :
    ∃ o', (l.updatedBy r updates).heap.object? r = some o' ∧ o.Evolves o' := by
  induction updates generalizing l o with
  | nil => exact ⟨o, h, .refl o⟩
  | cons u rest ih =>
    obtain ⟨o₁, h₁, H₁⟩ := evolves_of_run_update h u
    obtain ⟨o₂, h₂, H₂⟩ := ih h₁
    exact ⟨o₂, h₂, H₁.trans H₂⟩

/-- A program of the host that asks for an update makes the same change and hears the same. -/
theorem step_update {c : Context} (hheap : c.machine.heap = l.heap) (u : Object.Update)
    (next : Except Fault Unit → Program) (purpose : Purpose) :
    (c.step (.update r u next) purpose).machine.heap = ((update r u).run l).2.heap ∧
      (c.step (.update r u next) purpose).fiber.activity =
        .program (next ((update r u).run l).1) purpose := by
  rw [run_update, Context.step, hheap]
  cases l.heap.updated r u with
  | error fault => exact ⟨hheap, rfl⟩
  | ok o => exact ⟨congrArg (Heap.setObject · r o) hheap, rfl⟩

/--
**Objects only become stricter.** However an object is updated, what has become of it at one time
can only have evolved at a later time: attributes stay, flags stay set, fixed values stay, and so do
the names of a sealed object. An update that faults leaves everything as it was. What a program of
the host asks for is such an update too.
-/
theorem updates_evolve (h : l.heap.object? r = some o) (before after : List Object.Update) :
    (∃ o₁ o₂, (l.updatedBy r before).heap.object? r = some o₁ ∧
      (l.updatedBy r (before ++ after)).heap.object? r = some o₂ ∧ o₁.Evolves o₂) ∧
    (∀ u fault l', (update r u).run (l.updatedBy r before) = (.error fault, l') →
      l' = l.updatedBy r before) ∧
    ∀ (c : Context) (u : Object.Update) (next : Except Fault Unit → Program) (purpose : Purpose),
      c.machine.heap = (l.updatedBy r before).heap →
      (c.step (.update r u next) purpose).machine.heap = (l.updatedBy r (before ++ [u])).heap ∧
      (c.step (.update r u next) purpose).fiber.activity =
        .program (next ((update r u).run (l.updatedBy r before)).1) purpose := by
  have happend : ∀ us, l.updatedBy r (before ++ us) = (l.updatedBy r before).updatedBy r us :=
    fun us => List.foldl_append
  obtain ⟨o₁, h₁, _⟩ := evolves_updatedBy h before
  obtain ⟨o₂, h₂, H₂⟩ := evolves_updatedBy h₁ after
  refine ⟨⟨o₁, o₂, h₁, by rw [happend, h₂], H₂⟩, fun u fault l' hrun => ?_,
    fun c u next purpose hheap => ?_⟩
  · rw [run_update] at hrun
    split at hrun
    · exact nomatch hrun
    · exact (Prod.mk.inj hrun).2.symm
  · rw [happend]
    exact step_update hheap u next purpose

/-- A reserved const that a sealed object still takes, and two writes that it then refuses. -/
theorem updates_evolve_reserved :
    let l : Local := ⟨{ objects := #[{}] }, default⟩
    let before : List Object.Update := [.reserveConst "pi", .seal, .set "pi" (.int 3) none]
    let after : List Object.Update := [.set "pi" (.int 4) none, .set "tau" (.int 6) none]
    l.heap.object? ⟨0⟩ = some {} ∧
    ∃ o₁ o₂, (l.updatedBy ⟨0⟩ before).heap.object? ⟨0⟩ = some o₁ ∧
      (l.updatedBy ⟨0⟩ (before ++ after)).heap.object? ⟨0⟩ = some o₂ ∧ o₁.Evolves o₂ :=
  ⟨rfl, (updates_evolve rfl _ _).1⟩

end Exec

end FiberMachine
