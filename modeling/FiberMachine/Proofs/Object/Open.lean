import FiberMachine.Object
import Mathlib.Data.List.Nodup

/-!
# Objects under construction

A new object belongs to no module and is not sealed, so it takes every attribute whose name is free.
Setting distinct free names adds just these attributes (`Object.setAll_of_isFree`).
-/

namespace FiberMachine

namespace Object

variable {o : Object} {name : String} {value : Value} {caller : Option ModuleId}

/-- An object that takes new attributes from everyone. -/
structure IsOpen (o : Object) : Prop where
  module : o.module = none
  sealed : o.sealed = false

theorem IsOpen.put (h : o.IsOpen) (name : String) (a : Attribute) : (o.put name a).IsOpen :=
  ⟨h.module, h.sealed⟩

theorem IsOpen.writeFault?_eq_none (h : o.IsOpen) (hname : o.attributes.get? name = none) :
    o.writeFault? name caller = none := by
  simp [writeFault?, hname, h.sealed, isForeign, h.module]

theorem IsOpen.declareConst (h : o.IsOpen) (hname : o.attributes.get? name = none)
    (value : Value) :
    o.declareConst name value caller = .ok (o.put name { value, constant := true }) := by
  simp only [Object.declareConst, h.writeFault?_eq_none hname, hname]

theorem IsOpen.set (h : o.IsOpen) (hname : o.attributes.get? name = none) (value : Value) :
    o.set name value caller = .ok (o.put name { value }) := by
  simp only [Object.set, h.writeFault?_eq_none hname, hname]

/-- None of the names is taken, and none is there twice. -/
def IsFree (o : Object) (names : List String) : Prop :=
  names.Nodup ∧ ∀ name ∈ names, o.attributes.get? name = none

theorem get?_put (o : Object) (name other : String) (a : Attribute) :
    (o.put name a).attributes.get? other =
      if other = name then some a else o.attributes.get? other :=
  Dict.get?_insert ..

theorem isFree_cons {names : List String} (a : Attribute) :
    o.IsFree (name :: names) ↔
      o.attributes.get? name = none ∧ (o.put name a).IsFree names := by
  simp only [IsFree, List.nodup_cons, List.forall_mem_cons, get?_put]
  grind

theorem isOpen_empty : ({} : Object).IsOpen := ⟨rfl, rfl⟩

theorem isFree_empty {names : List String} : ({} : Object).IsFree names ↔ names.Nodup :=
  ⟨And.left, fun h => ⟨h, fun _ _ => rfl⟩⟩

/-- Attributes with free names are all set. -/
theorem setAll_of_isFree {fields : List (String × Value)} (ho : o.IsOpen)
    (hfree : o.IsFree (fields.map Prod.fst)) :
    ∃ o', o.setAll fields = .ok o' ∧ o' = { o with attributes := o'.attributes } ∧
      (∀ name value, (name, value) ∈ fields → o'.attributes.get? name = some { value }) ∧
      ∀ name, name ∉ fields.map Prod.fst →
        o'.attributes.get? name = o.attributes.get? name := by
  induction fields generalizing o with
  | nil => exact ⟨o, rfl, rfl, by simp, fun _ _ => rfl⟩
  | cons field rest ih =>
    obtain ⟨name, value⟩ := field
    obtain ⟨hname, hrest⟩ := (isFree_cons { value }).mp hfree
    obtain ⟨o', hok, hframe, hset, hothers⟩ := ih (ho.put name { value }) hrest
    have hstep : o.setAll ((name, value) :: rest) = (o.put name { value }).setAll rest := by
      simp only [setAll, ho.set hname]
      rfl
    refine ⟨o', hstep.trans hok, hframe, ?_, ?_⟩
    · intro name' value' hmem
      rcases List.mem_cons.mp hmem with heq | hmem
      · cases heq
        rw [hothers name (List.nodup_cons.mp hfree.1).1, get?_put, if_pos rfl]
      · exact hset name' value' hmem
    · intro other hother
      obtain ⟨hne, hother⟩ := List.ne_and_not_mem_of_not_mem_cons hother
      rw [hothers other hother, get?_put, if_neg hne]

end Object

end FiberMachine
