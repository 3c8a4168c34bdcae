import FiberMachine.Proofs.Execution.Effect
import FiberMachine.Proofs.Object.History

/-!
# What foreign code does to a module object

Code of other modules can assign exported attributes of a module object, as long as they are not
fixed, and can seal the object. Nothing else about its attributes changes: there are no new ones,
those that are not exported stay as they are, and no attribute becomes exported or locked
(`Object.confined_update`). An instruction of a frame of another module keeps to this, whatever it
does (`Exec.confined_step`).
-/

namespace FiberMachine

/-! ## Attributes and objects -/

/-- What foreign code may make of an attribute: it may assign one that is exported and not fixed. -/
structure Attribute.Confined (a a' : Attribute) : Prop where
  exported : a'.exported = a.exported
  locked : a'.locked = a.locked
  changed : a' ≠ a → a.exported ∧ a.isFixed = false ∧ a'.assigned ∧ (a.constant → a'.constant)

namespace Attribute.Confined

variable {a a' a'' : Attribute}

theorem refl (a : Attribute) : a.Confined a := ⟨rfl, rfl, fun h => absurd rfl h⟩

theorem trans (H : a.Confined a') (H' : a'.Confined a'') : a.Confined a'' := by
  refine ⟨H'.exported.trans H.exported, H'.locked.trans H.locked, fun hne => ?_⟩
  by_cases h : a' = a
  · subst h
    exact H'.changed hne
  · obtain ⟨hexported, hfree, hassigned, hconstant⟩ := H.changed h
    by_cases h' : a'' = a'
    · subst h'
      exact ⟨hexported, hfree, hassigned, hconstant⟩
    · obtain ⟨_, _, hassigned', hconstant'⟩ := H'.changed h'
      exact ⟨hexported, hfree, hassigned', fun hc => hconstant' (hconstant hc)⟩

/-- What is not exported stays. -/
theorem eq_of_not_exported (H : a.Confined a') (h : a.exported = false) : a' = a :=
  Decidable.byContradiction fun hne => Bool.false_ne_true (h.symm.trans (H.changed hne).1)

end Attribute.Confined

namespace Object

/-- What foreign code may make of a module object. -/
structure Confined (o o' : Object) : Prop where
  module : o'.module = o.module
  names : o'.attributes.keys = o.attributes.keys
  kept : ∀ name a, o.attributes.get? name = some a →
    ∃ a', o'.attributes.get? name = some a' ∧ a.Confined a'
  sealed : o.sealed → o'.sealed

variable {o o' o'' : Object} {A : ModuleId} {caller : Option ModuleId} {name : String}

theorem Confined.refl (o : Object) : o.Confined o := ⟨rfl, rfl, fun _ a h => ⟨a, h, .refl a⟩, id⟩

theorem Confined.trans (H : o.Confined o') (H' : o'.Confined o'') : o.Confined o'' where
  module := H'.module.trans H.module
  names := H'.names.trans H.names
  kept name a h := by
    obtain ⟨a', h', Ha⟩ := H.kept name a h
    obtain ⟨a'', h'', Ha'⟩ := H'.kept name a' h'
    exact ⟨a'', h'', Ha.trans Ha'⟩
  sealed h := H'.sealed (H.sealed h)

theorem confined_put {a a' : Attribute} (ha : o.attributes.get? name = some a)
    (H : a.Confined a') : o.Confined (o.put name a') := by
  refine ⟨rfl, Dict.keys_insert_of_get? ha a', fun other b hb => ?_, id⟩
  simp only [put, Dict.get?_insert]
  split
  · rename_i heq
    subst heq
    cases Option.some.inj (ha.symm.trans hb)
    exact ⟨a', rfl, H⟩
  · exact ⟨b, hb, .refl b⟩

theorem isForeign_iff (h : o.module = some A) : o.isForeign caller ↔ caller ≠ some A := by
  simp only [isForeign, h, bne_iff_ne]

/-- Foreign code is admitted to write what is exported and not fixed. -/
theorem exported_of_writeFault? (h : o.isForeign caller) (hw : o.writeFault? name caller = none) :
    ∃ a, o.attributes.get? name = some a ∧ a.exported ∧ a.isFixed = false := by
  have hfree := (writable_of_writeFault? hw).1
  simp only [writeFault?, mayAccess, h] at hw
  cases ha : o.attributes.get? name with
  | some a => exact ⟨a, rfl, by grind, hfree a ha⟩
  | none => grind

/-- An assignment by foreign code, which may make the attribute const. -/
theorem confined_assign (value : Value) (constant : Bool) (h : o.isForeign caller)
    (hw : o.writeFault? name caller = none) :
    ∃ a, o.attributes.get? name = some a ∧ o.Confined
      (o.put name { a with value, assigned := true, constant := a.constant || constant }) := by
  obtain ⟨a, ha, hexported, hfree⟩ := exported_of_writeFault? h hw
  refine ⟨a, ha, confined_put ha ⟨rfl, rfl, fun _ => ⟨hexported, hfree, rfl, fun hc => ?_⟩⟩⟩
  dsimp only
  rw [hc, Bool.true_or]

/-- The update is one that code makes, and not code of `A`. -/
def Update.IsForeign (A : ModuleId) : Update → Prop
  | .set _ _ caller | .declareConst _ _ caller | .export _ caller | .lock _ caller =>
    caller ≠ some A
  | .reserveConst _ => False
  | .seal => True

theorem Update.IsBy.isForeign {u : Update} (hu : u.IsBy caller) (h : caller ≠ some A) :
    u.IsForeign A := by
  cases u with
  | reserveConst name => exact hu
  | «seal» => trivial
  | _ =>
    subst hu
    exact h

theorem confined_set {value : Value} (hf : o.isForeign caller)
    (h : o.set name value caller = .ok o') : o.Confined o' := by
  simp only [Object.set] at h
  split at h
  · cases h
  · rename_i hw
    obtain ⟨a, ha, H⟩ := confined_assign value false hf hw
    rw [ha] at h
    cases h
    rwa [Bool.or_false] at H

theorem confined_declareConst {value : Value} (hf : o.isForeign caller)
    (h : o.declareConst name value caller = .ok o') : o.Confined o' := by
  simp only [Object.declareConst] at h
  split at h
  · cases h
  · rename_i hw
    obtain ⟨a, ha, H⟩ := confined_assign value true hf hw
    rw [ha] at h
    cases h
    rwa [Bool.or_true] at H

/-- Foreign code changes no flags. -/
theorem adjust_of_isForeign (hf : o.isForeign caller) (change : Attribute → Attribute) :
    o.adjust name caller change ≠ .ok o' := by
  simp only [adjust, hf]
  intro h
  split at h <;> cases h

/-- **Foreign code is confined**: whatever it makes of a module object. -/
theorem confined_update {u : Update} (hA : o.module = some A) (hu : u.IsForeign A)
    (h : o.update u = .ok o') : o.Confined o' := by
  cases u with
  | set name value caller => exact confined_set ((isForeign_iff hA).mpr hu) h
  | declareConst name value caller => exact confined_declareConst ((isForeign_iff hA).mpr hu) h
  | reserveConst name => exact hu.elim
  | «export» name caller | lock name caller =>
    exact absurd h (adjust_of_isForeign ((isForeign_iff hA).mpr hu) _)
  | «seal» =>
    cases h
    exact ⟨rfl, rfl, fun _ a ha => ⟨a, ha, .refl a⟩, fun _ => rfl⟩

/-- A module that has been initialized. -/
theorem confined_initialized (o : Object) : o.Confined { o with initializing := false } :=
  ⟨rfl, rfl, fun _ a ha => ⟨a, ha, .refl a⟩, id⟩

end Object

/-! ## Heaps -/

namespace Heap

/-- The objects of `A` have become what foreign code may make of them. -/
structure Confined (A : ModuleId) (h h' : Heap) : Prop where
  object (r : Ref .object) (o : Object) : h.object? r = some o → o.module = some A →
    ∃ o', h'.object? r = some o' ∧ o.Confined o'

namespace Confined

variable {A : ModuleId} {h h' h'' : Heap}

theorem refl (h : Heap) : h.Confined A h := ⟨fun _ o ho _ => ⟨o, ho, .refl o⟩⟩

theorem trans (H : h.Confined A h') (H' : h'.Confined A h'') : h.Confined A h'' := by
  refine ⟨fun r o ho hA => ?_⟩
  obtain ⟨o', ho', Ho⟩ := H.object r o ho hA
  obtain ⟨o'', ho'', Ho'⟩ := H'.object r o' ho' (Ho.module.trans hA)
  exact ⟨o'', ho'', Ho.trans Ho'⟩

/-- The objects that there were are still the same. -/
theorem of_kept (H : ∀ r o, h.object? r = some o → h'.object? r = some o) : h.Confined A h' :=
  ⟨fun r o ho _ => ⟨o, H r o ho, .refl o⟩⟩

theorem of_objects (H : h'.objects = h.objects) : h.Confined A h' :=
  of_kept fun r o ho => by rwa [object?, H]

end Confined

variable {A : ModuleId} {h : Heap}

theorem confined_newObject (h : Heap) (o : Object) : h.Confined A (h.newObject o).2 :=
  .of_kept fun _ _ ho => object?_newObject ho o

theorem object?_setObject_of_ne {r r' : Ref .object} (hne : r' ≠ r) (o : Object) :
    (h.setObject r o).object? r' = h.object? r' := by
  have hindex : r.index ≠ r'.index := fun heq => hne (by cases r; cases r'; simp_all)
  simp only [object?, setObject, Array.getElem?_setIfInBounds_ne hindex]

theorem object?_setObject_self {r : Ref .object} {o : Object} (ho : h.object? r = some o)
    (o' : Object) : (h.setObject r o').object? r = some o' := by
  have hlt : r.index < h.objects.size := (Array.getElem?_eq_some_iff.mp ho).1
  simp only [object?, setObject, Array.getElem?_setIfInBounds_self_of_lt hlt]

theorem confined_setObject {r : Ref .object} {o' : Object}
    (H : ∀ o, h.object? r = some o → o.module = some A → o.Confined o') :
    h.Confined A (h.setObject r o') := by
  refine ⟨fun r' o ho hA => ?_⟩
  by_cases heq : r' = r
  · subst heq
    exact ⟨o', object?_setObject_self ho o', H o ho hA⟩
  · exact ⟨o, (object?_setObject_of_ne heq o').trans ho, .refl o⟩

theorem confined_updated {r : Ref .object} {u : Object.Update} {o' : Object} (hu : u.IsForeign A)
    (hupdated : h.updated r u = .ok o') : h.Confined A (h.setObject r o') := by
  refine confined_setObject fun o ho hA => ?_
  rw [updated, ho] at hupdated
  exact Object.confined_update hA hu hupdated

theorem confined_realize (h : Heap) (outcome : Outcome) :
    h.Confined A (h.realize outcome).2 := by
  cases outcome <;> exact .of_objects rfl

end Heap

/-! ## Parts of instructions -/

namespace Exec

variable {α β : Type} {A : ModuleId}

/-- A computation that is confined in a frame of another module than `A`. -/
structure Confined (A : ModuleId) (x : Exec α) : Prop where
  run (l : Local) : l.frame.scope.module ≠ A →
    (x.run l).2.frame.scope = l.frame.scope ∧ l.heap.Confined A (x.run l).2.heap

theorem Confined.bind {x : Exec α} {next : α → Exec β} (H : Confined A x)
    (H' : ∀ a, Confined A (next a)) : Confined A (x >>= next) := by
  refine ⟨fun l hl => ?_⟩
  rw [run_bind]
  obtain ⟨hscope, hheap⟩ := H.run l hl
  rcases hr : x.run l with ⟨_ | a, l'⟩ <;> rw [hr] at hscope hheap
  · exact ⟨hscope, hheap⟩
  · obtain ⟨hscope', hheap'⟩ := (H' a).run l' (by rwa [hscope])
    exact ⟨hscope'.trans hscope, hheap.trans hheap'⟩

/-- A computation that leaves the objects alone, and its frame the same activation. -/
theorem Confined.of_objects {x : Exec α} (hx : Keeps x)
    (H : ∀ l, (x.run l).2.heap.objects = l.heap.objects) : Confined A x :=
  ⟨fun l _ => ⟨(hx.same l).scope, .of_objects (H l)⟩⟩

theorem confined_update {r : Ref .object} {u : Object.Update} (hu : u.IsForeign A) (l : Local) :
    ((update r u).run l).2.frame.scope = l.frame.scope ∧
      l.heap.Confined A ((update r u).run l).2.heap := by
  rw [run_update]
  cases hupdated : l.heap.updated r u with
  | error fault => exact ⟨rfl, .refl l.heap⟩
  | ok o => exact ⟨rfl, Heap.confined_updated hu hupdated⟩

/-! ## Instructions -/

variable {i : Instruction}

theorem Part.confined {x : Exec α} (H : Part i x) : Confined A x := by
  have hx := H.keeps
  induction H with
  | pure a => exact .of_objects hx fun _ => rfl
  | throw fault => exact .of_objects hx fun _ => rfl
  | bind hpart hnext ih ih' => exact (ih hpart.keeps).bind fun a => ih' a (hnext a).keeps
  | frame => exact .of_objects hx fun _ => rfl
  | heap => exact .of_objects hx fun _ => rfl
  | modifyFrame _ => exact .of_objects hx fun _ => rfl
  | setArray r s => exact .of_objects hx fun _ => rfl
  | newArray s => exact .of_objects hx fun _ => rfl
  | newObject => exact ⟨fun l _ => ⟨rfl, l.heap.confined_newObject {}⟩⟩
  | @realize o _ => exact ⟨fun l _ => ⟨rfl, l.heap.confined_realize o⟩⟩
  | rebind r receiver =>
    refine .of_objects hx fun l => ?_
    rw [run_rebind]
    cases l.heap.function? r <;> rfl
  | update r hu => exact ⟨fun l _ => confined_update (hu.isForeign (Option.some_ne_none A).symm) l⟩
  | updateOwn r hu =>
    refine ⟨fun l hl => ?_⟩
    rw [run_caller_bind]
    exact confined_update ((hu _).isForeign fun heq => hl (Option.some.inj heq)) l
  | newCell value _ => exact .of_objects hx fun _ => rfl
  | setCell slot cell _ => exact .of_objects hx fun _ => rfl
  | storeCell cell value _ => exact .of_objects hx fun _ => rfl
  | makeFunction j hi hcaptured ih =>
    refine ⟨fun l hl => ⟨(hx.same l).scope, ?_⟩⟩
    rcases run_makeFunction j l with ⟨fault, heq⟩ | ⟨r, code, -, -, heq⟩ <;> rw [heq]
    · exact .refl l.heap
    · have hheap := ((ih code.captures (hcaptured _).keeps).run l hl).2
      rcases hr : (captured code.captures).run l with ⟨_ | captures, m⟩ <;> rw [hr] at hheap
      · exact hheap
      · exact hheap.trans (.of_objects rfl)

theorem Whole.confined {x : Exec Action} (H : Whole i x) : Confined A x := by
  induction H with
  | bind hpart _ ih => exact hpart.confined.bind ih
  | next => exact ⟨fun l _ => ⟨rfl, .refl l.heap⟩⟩
  | jump _ => exact ⟨fun l _ => ⟨rfl, .refl l.heap⟩⟩
  | act _ _ => exact ⟨fun l _ => ⟨rfl, .refl l.heap⟩⟩
  | throw fault => exact ⟨fun l _ => ⟨rfl, .refl l.heap⟩⟩

/-- **An instruction of another module is confined.** -/
theorem confined_step : Confined A step := by
  refine ⟨fun l hl => ?_⟩
  cases hi : l.frame.code.instructions[l.frame.instruction]? with
  | some i =>
    rw [step_of_some hi]
    exact (whole_instruction i).confined.run l hl
  | none =>
    rw [step_of_none hi]
    exact ⟨rfl, .refl l.heap⟩

end Exec

end FiberMachine
