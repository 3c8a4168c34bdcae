import FiberMachine.Proofs.Closure.Instruction
import FiberMachine.Proofs.Object.Open
import FiberMachine.Proofs.Ownership.Object

/-!
# Instances of templates

What a call of a template comes to. It takes no positional arguments. The methods are declared as
consts of a new object and the keyword arguments are then set, so a name that is taken twice is
immutable, unless both are keywords, and otherwise the object has just these attributes
(`Machine.prepareCall_template`). Whether the call fails or not, nothing that there was changes.
-/

namespace FiberMachine

/-! ## Heaps that grow -/

namespace Heap

/-- Objects and functions may have been added, and all that there was is as before. -/
structure Extends (h h' : Heap) : Prop where
  arrays : h'.arrays = h.arrays
  cells : h'.cells = h.cells
  templates : h'.templates = h.templates
  codes : h'.codes = h.codes
  errors : h'.errors = h.errors
  objects (r : Ref .object) (o : Object) : h.object? r = some o → h'.object? r = some o
  functions (r : Ref .function) (f : FunctionObject) :
    h.function? r = some f → h'.function? r = some f

namespace Extends

variable {h h' h'' : Heap}

theorem refl (h : Heap) : h.Extends h :=
  ⟨rfl, rfl, rfl, rfl, rfl, fun _ _ => id, fun _ _ => id⟩

theorem trans (H : h.Extends h') (H' : h'.Extends h'') : h.Extends h'' where
  arrays := H'.arrays.trans H.arrays
  cells := H'.cells.trans H.cells
  templates := H'.templates.trans H.templates
  codes := H'.codes.trans H.codes
  errors := H'.errors.trans H.errors
  objects r o ho := H'.objects r o (H.objects r o ho)
  functions r f hf := H'.functions r f (H.functions r f hf)

theorem newObject (h : Heap) (o : Object) : h.Extends (h.newObject o).2 :=
  ⟨rfl, rfl, rfl, rfl, rfl, fun _ _ ho => object?_newObject ho o, fun _ _ => id⟩

theorem newFunction (h : Heap) (f : FunctionObject) : h.Extends (h.newFunction f).2 :=
  ⟨rfl, rfl, rfl, rfl, rfl, fun _ _ => id, fun _ _ hg => function?_newFunction_of_some hg f⟩

/-- A change of an object that was not there before. -/
theorem setObject (H : h.Extends h') {r : Ref .object} (hr : h.object? r = none) (o : Object) :
    h.Extends (h'.setObject r o) := by
  refine ⟨H.arrays, H.cells, H.templates, H.codes, H.errors, fun s o' ho => ?_, H.functions⟩
  have hne : s ≠ r := by
    rintro rfl
    exact Option.some_ne_none o' (ho.symm.trans hr)
  rw [object?_setObject_of_ne hne]
  exact H.objects s o' ho

/-- What is not there later was not there before. -/
theorem function?_eq_none (H : h.Extends h') {r : Ref .function} (hr : h'.function? r = none) :
    h.function? r = none := by
  cases hf : h.function? r with
  | none => rfl
  | some f => exact absurd ((H.functions r f hf).symm.trans hr) (Option.some_ne_none f)

end Extends

theorem function?_size (h : Heap) : h.function? ⟨h.functions.size⟩ = none := by simp [function?]

end Heap

/-! ## Consts of new objects -/

namespace Object

variable {o : Object} {name : String} {value : Value} {caller : Option ModuleId}

/-- The attribute `name`, if there is one, is a const with a value. -/
def IsConst (o : Object) (name : String) : Prop :=
  ∀ a, o.attributes.get? name = some a → ∃ value, a = { value, constant := true }

theorem IsOpen.writeFault?_of_const (h : o.IsOpen)
    (hname : o.attributes.get? name = some { value, constant := true }) :
    o.writeFault? name caller = some .immutable := by
  simp [writeFault?, hname, mayAccess, isForeign, h.module]

theorem isConst_empty (name : String) : ({} : Object).IsConst name := by
  rintro a ⟨⟩

end Object

namespace Machine

/-! ## Methods -/

/-- The function that the method `code` is in the instance `self`. -/
def boundMethod (id : ModuleId) (self : Ref .object) (code : Code) : FunctionObject where
  module := some id
  receiver := .object self
  body := .interpreted code []

/-- The attribute `name` of `o` is a const whose value is a function made between `h` and `h'`, the
method `code` of `self`. -/
def HoldsMethod (h h' : Heap) (id : ModuleId) (self : Ref .object) (o : Object) (name : String)
    (code : Code) : Prop :=
  ∃ f, o.attributes.get? name = some { value := .function f, constant := true } ∧
    h.function? f = none ∧ h'.function? f = some (boundMethod id self code)

section Methods

variable (id : ModuleId) (self : Ref .object) (h : Heap) {h' : Heap} {o o' : Object}
  {methods : List (String × Code)} {name : String}

theorem declareMethods_extends (o : Object) (methods : List (String × Code)) :
    h.Extends (declareMethods id self h o methods).2 := by
  induction methods generalizing h o with
  | nil => exact .refl h
  | cons method rest ih =>
    have hnew := Heap.Extends.newFunction h (boundMethod id self method.2)
    simp only [declareMethods]
    split
    · exact hnew.trans (ih _ _)
    · exact hnew

/-- What declaring methods under free names comes to. -/
structure Declared (id : ModuleId) (r : Ref .object) (h h' : Heap) (o o' : Object)
    (methods : List (String × Code)) : Prop where
  frame : o' = { o with attributes := o'.attributes }
  others (name : String) :
    name ∉ methods.map Prod.fst → o'.attributes.get? name = o.attributes.get? name
  methods (name : String) (code : Code) :
    (name, code) ∈ methods → HoldsMethod h h' id r o' name code

/-- Methods with free names are all declared. -/
theorem declareMethods_of_isFree (ho : o.IsOpen) (hfree : o.IsFree (methods.map Prod.fst)) :
    ∃ o' h', declareMethods id self h o methods = (.ok o', h') ∧
      Declared id self h h' o o' methods := by
  induction methods generalizing h o with
  | nil => exact ⟨o, h, rfl, rfl, fun _ _ => rfl, by simp⟩
  | cons method rest ih =>
    obtain ⟨name, code⟩ := method
    let f := h.newFunction (boundMethod id self code)
    let a : Attribute := { value := .function f.1, constant := true }
    obtain ⟨hname, hrest⟩ := (Object.isFree_cons a).mp hfree
    have hstep : declareMethods id self h o ((name, code) :: rest) =
        declareMethods id self f.2 (o.put name a) rest := by
      simp only [declareMethods, boundMethod, ho.declareConst hname, f, a]
    obtain ⟨o', h', hok, hd⟩ := ih f.2 (ho.put name a) hrest
    have hextends := declareMethods_extends id self f.2 (o.put name a) rest
    rw [hok] at hextends
    refine ⟨o', h', hstep.trans hok, hd.frame, ?_, ?_⟩
    · intro other hother
      obtain ⟨hne, hother⟩ := List.ne_and_not_mem_of_not_mem_cons hother
      rw [hd.others other hother, Object.get?_put, if_neg hne]
    · intro name' code' hmem
      rcases List.mem_cons.mp hmem with heq | hmem
      · -- the rest has other names, and what it adds to the heap leaves the function alone
        cases heq
        refine ⟨f.1, ?_, h.function?_size, ?_⟩
        · rw [hd.others name (List.nodup_cons.mp hfree.1).1, Object.get?_put, if_pos rfl]
        · exact hextends.functions _ _ (Heap.function?_newFunction_self _)
      · obtain ⟨g, hg, hfresh, hbody⟩ := hd.methods name' code' hmem
        have hnew : h.Extends f.2 := .newFunction h _
        exact ⟨g, hg, hnew.function?_eq_none hfresh, hbody⟩

/-- With a name that is taken, by a const or by a method before it, they are not. -/
theorem declareMethods_of_not_isFree (ho : o.IsOpen) (hconst : ∀ name, o.IsConst name)
    (hfree : ¬ o.IsFree (methods.map Prod.fst)) :
    ∃ h', declareMethods id self h o methods = (.error .immutable, h') := by
  induction methods generalizing h o with
  | nil => exact absurd ⟨List.nodup_nil, by simp⟩ hfree
  | cons method rest ih =>
    obtain ⟨name, code⟩ := method
    simp only [declareMethods]
    cases hname : o.attributes.get? name with
    | some a =>
      obtain ⟨value, rfl⟩ := hconst name a hname
      simp only [Object.declareConst, ho.writeFault?_of_const hname]
      exact ⟨_, rfl⟩
    | none =>
      rw [ho.declareConst hname]
      refine ih _ (ho.put name _) ?_ fun hrest => hfree ((Object.isFree_cons _).mpr ⟨hname, hrest⟩)
      intro other a ha
      rw [Object.get?_put] at ha
      split at ha
      · cases ha
        exact ⟨_, rfl⟩
      · exact hconst other a ha

variable {id self h}

theorem Declared.isOpen (hd : Declared id self h h' {} o methods) : o.IsOpen := by
  rw [hd.frame]
  exact ⟨rfl, rfl⟩

theorem Declared.holds (hd : Declared id self h h' o o' methods)
    (hname : name ∈ methods.map Prod.fst) :
    ∃ value, o'.attributes.get? name = some { value, constant := true } := by
  obtain ⟨⟨method, code⟩, hmem, rfl⟩ := List.mem_map.mp hname
  obtain ⟨f, hf, -⟩ := hd.methods method code hmem
  exact ⟨.function f, hf⟩

/-- A new object has the methods and nothing else. -/
theorem Declared.get?_eq_none_iff (hd : Declared id self h h' {} o methods) :
    o.attributes.get? name = none ↔ name ∉ methods.map Prod.fst := by
  refine ⟨fun hnone hname => ?_, hd.others name⟩
  obtain ⟨value, hvalue⟩ := hd.holds hname
  exact Option.some_ne_none _ (hvalue.symm.trans hnone)

theorem Declared.isConst (hd : Declared id self h h' {} o methods) : o.IsConst name := by
  intro a ha
  by_cases hname : name ∈ methods.map Prod.fst
  · obtain ⟨value, hvalue⟩ := hd.holds hname
    exact ⟨value, Option.some.inj (ha.symm.trans hvalue)⟩
  · rw [hd.get?_eq_none_iff.mpr hname] at ha
    cases ha

end Methods

/-! ## Setting the keywords -/

section Keywords

variable {o : Object} {entries : List (String × Value)}

/-- Distinct keywords of which one is the name of a const are not. -/
theorem setAll_of_not_isFree (ho : o.IsOpen) (hnodup : (entries.map Prod.fst).Nodup)
    (hconst : ∀ name ∈ entries.map Prod.fst, o.IsConst name)
    (hfree : ¬ o.IsFree (entries.map Prod.fst)) :
    o.setAll entries = .error .immutable := by
  induction entries generalizing o with
  | nil => exact absurd ⟨List.nodup_nil, by simp⟩ hfree
  | cons entry rest ih =>
    obtain ⟨name, value⟩ := entry
    obtain ⟨hnotMem, hnodup⟩ := List.nodup_cons.mp hnodup
    simp only [Object.setAll]
    cases hname : o.attributes.get? name with
    | some a =>
      obtain ⟨value, rfl⟩ := hconst name List.mem_cons_self a hname
      simp only [Object.set, ho.writeFault?_of_const hname]
      rfl
    | none =>
      rw [ho.set hname]
      refine ih (ho.put name _) hnodup ?_
        fun hrest => hfree ((Object.isFree_cons _).mpr ⟨hname, hrest⟩)
      -- the keyword just set is not a const, but it does not come again
      intro other hother a ha
      rw [Object.get?_put, if_neg (ne_of_mem_of_not_mem hother hnotMem)] at ha
      exact hconst other (List.mem_cons_of_mem _ hother) a ha

end Keywords

/-! ## Instances -/

end Machine

/-- Two methods have the same name, or a keyword is the name of a method. -/
def Template.Clashes (t : Template) (args : Arguments) : Prop :=
  ¬ (t.methods.map Prod.fst).Nodup ∨ ∃ name ∈ t.methods.map Prod.fst, name ∈ args.keywords.keys

namespace Machine

/-- In `h'` the object at `r`, where `h` has none, is `o`, an instance of `t` with the keywords of
`args`. -/
structure IsInstance (h h' : Heap) (t : Template) (args : Arguments) (r : Ref .object)
    (o : Object) : Prop where
  fresh : h.object? r = none
  object : h'.object? r = some o
  module : o.module = none
  initializing : o.initializing = false
  sealed : o.sealed = t.sealed
  methods (name : String) (code : Code) :
    (name, code) ∈ t.methods → HoldsMethod h h' t.module r o name code
  keywords (name : String) (value : Value) :
    args.keyword? name = some value → o.attributes.get? name = some { value }
  only (name : String) (a : Attribute) :
    o.attributes.get? name = some a → name ∈ t.methods.map Prod.fst ∨ name ∈ args.keywords.keys

section Construct

variable {h : Heap} {t : Template} {args : Arguments}

theorem construct_extends : h.Extends (construct h t args).2 := by
  have hdeclared := (Heap.Extends.newObject h {}).trans
    (declareMethods_extends t.module (h.newObject {}).1 (h.newObject {}).2 {} t.methods)
  simp only [construct]
  split
  · exact .refl h
  · split <;> rename_i heq <;> rw [heq] at hdeclared
    · exact hdeclared
    · split
      · exact hdeclared
      · exact hdeclared.setObject h.object?_size _

theorem construct_of_positional (hpositional : args.positional ≠ []) :
    (construct h t args).1 = .error .argumentCount := by
  simp [construct, hpositional]

/-- Methods with distinct names are all declared in a new object, which the heap has as it was. -/
theorem declareMethods_newObject (h : Heap) (hnodup : (t.methods.map Prod.fst).Nodup) :
    ∃ o h', declareMethods t.module (h.newObject {}).1 (h.newObject {}).2 {} t.methods =
        (.ok o, h') ∧
      Declared t.module (h.newObject {}).1 (h.newObject {}).2 h' {} o t.methods ∧
      h'.object? (h.newObject {}).1 = some {} := by
  obtain ⟨o, h', hok, hd⟩ := declareMethods_of_isFree t.module (h.newObject {}).1
    (h.newObject {}).2 Object.isOpen_empty (Object.isFree_empty.mpr hnodup)
  have hextends :=
    declareMethods_extends t.module (h.newObject {}).1 (h.newObject {}).2 {} t.methods
  rw [hok] at hextends
  exact ⟨o, h', hok, hd, hextends.objects _ _ (Heap.object?_newObject_self {})⟩

theorem construct_of_clashes (hpositional : args.positional = [])
    (hclash : t.Clashes args) :
    (construct h t args).1 = .error .immutable := by
  by_cases hnodup : (t.methods.map Prod.fst).Nodup
  · obtain ⟨o, h', hok, hd, -⟩ := declareMethods_newObject h hnodup
    obtain ⟨name, hmethod, hkeyword⟩ := hclash.resolve_left (not_not_intro hnodup)
    have htaken : ¬ o.IsFree args.keywords.keys := fun hfree =>
      hd.get?_eq_none_iff.mp (hfree.2 name hkeyword) hmethod
    have hset := setAll_of_not_isFree hd.isOpen args.keywords.nodup (fun _ _ => hd.isConst) htaken
    simp [construct, hpositional, hok, hset]
  · obtain ⟨h', hfail⟩ := declareMethods_of_not_isFree t.module (h.newObject {}).1
      (h.newObject {}).2 Object.isOpen_empty Object.isConst_empty
      (mt Object.isFree_empty.mp hnodup)
    simp [construct, hpositional, hfail]

theorem construct_of_not_clashes (hpositional : args.positional = [])
    (hclash : ¬ t.Clashes args) :
    ∃ r o, (construct h t args).1 = .ok (.object r) ∧
      IsInstance h (construct h t args).2 t args r o := by
  obtain ⟨hnodup, hdisjoint⟩ := not_or.mp hclash
  obtain ⟨o, h', hok, hd, hself⟩ := declareMethods_newObject h (Classical.not_not.mp hnodup)
  have hfree : o.IsFree args.keywords.keys :=
    ⟨args.keywords.nodup, fun name hkeyword => hd.get?_eq_none_iff.mpr
      fun hmethod => hdisjoint ⟨name, hmethod, hkeyword⟩⟩
  obtain ⟨o', hset, hframe, hvalues, hothers⟩ := Object.setAll_of_isFree hd.isOpen hfree
  have hplain : o' = { attributes := o'.attributes } := hframe.trans (by rw [hd.frame])
  have hconstruct : construct h t args = (.ok (.object (h.newObject {}).1),
      h'.setObject (h.newObject {}).1 { o' with sealed := t.sealed }) := by
    simp only [construct, hpositional, hok, hset]
    cases hsealed : t.sealed with
    | true => rfl
    | false => rw [hplain]; rfl
  rw [hconstruct]
  refine ⟨_, { o' with sealed := t.sealed }, rfl, h.object?_size,
    Heap.object?_setObject_self hself _, ?_, ?_, rfl, ?_, ?_, ?_⟩
  · rw [hplain]
  · rw [hplain]
  · intro name code hmem
    have hname : name ∈ t.methods.map Prod.fst := List.mem_map_of_mem hmem
    obtain ⟨f, hf, hfresh, hbody⟩ := hd.methods name code hmem
    refine ⟨f, ?_, hfresh, hbody⟩
    exact (hothers name fun hkeyword => hdisjoint ⟨name, hname, hkeyword⟩).trans hf
  · intro name value hvalue
    exact hvalues name value (Dict.get?_eq_some_iff.mp hvalue)
  · intro name a ha
    by_cases hkeyword : name ∈ args.keywords.keys
    · exact .inr hkeyword
    · refine .inl (Classical.not_not.mp fun hmethod => ?_)
      have hnone := (hothers name hkeyword).trans (hd.get?_eq_none_iff.mpr hmethod)
      exact Option.some_ne_none a (ha.symm.trans hnone)

end Construct

/-- The outcome of a call that is over at once. -/
def Invocation.ofResult : Except Fault Value → Invocation
  | .ok value => .complete value
  | .error fault => .fail fault

/-- A call of a template is a construction on the heap of the machine. -/
theorem prepareCall_eq_construct {m : Machine} {r : Ref .template} {t : Template}
    (ht : m.heap.template? r = some t) (receiver : Value) (args : Arguments) :
    m.prepareCall (.template r) receiver args =
      (.ofResult (construct m.heap t args).1, { m with heap := (construct m.heap t args).2 }) := by
  simp only [prepareCall, ht, onHeap]
  obtain ⟨result, heap⟩ := construct m.heap t args
  cases result <;> rfl

/-- A call of a template fails with positional arguments, and otherwise if names clash; otherwise
it makes an instance. In no case does it change anything else. -/
theorem prepareCall_template {m : Machine} {r : Ref .template} {t : Template}
    (ht : m.heap.template? r = some t) (receiver : Value) (args : Arguments) :
    let called := m.prepareCall (.template r) receiver args
    (called.1 = .fail .argumentCount ↔ args.positional ≠ []) ∧
      (called.1 = .fail .immutable ↔ args.positional = [] ∧ t.Clashes args) ∧
      (args.positional = [] → ¬ t.Clashes args →
        ∃ self o, called.1 = .complete (.object self) ∧
          IsInstance m.heap called.2.heap t args self o) ∧
      m.heap.Extends called.2.heap ∧ called.2 = { m with heap := called.2.heap } := by
  rw [prepareCall_eq_construct ht receiver args]
  by_cases hpositional : args.positional = []
  · by_cases hclash : t.Clashes args
    · have hfail := construct_of_clashes (h := m.heap) hpositional hclash
      simp [hfail, Invocation.ofResult, hpositional, hclash, construct_extends]
    · obtain ⟨self, o, hok, hinstance⟩ :=
        construct_of_not_clashes (h := m.heap) hpositional hclash
      refine ⟨?_, ?_, fun _ _ => ⟨self, o, ?_, hinstance⟩, construct_extends, rfl⟩
      all_goals simp [hok, Invocation.ofResult, hpositional, hclash]
  · have hfail := construct_of_positional (h := m.heap) (t := t) hpositional
    simp [hfail, Invocation.ofResult, hpositional, construct_extends]

/-- A sealed template with one method, called with two keywords. -/
theorem prepareCall_template_point :
    let t : Template :=
      { name := "Point", sealed := true, methods := [("norm", default)], module := ⟨0⟩ }
    let m : Machine := { heap := { templates := #[t] } }
    let args := (({} : Arguments).setKeyword "x" (.int 3)).setKeyword "y" (.int 4)
    let called := m.prepareCall (.template ⟨0⟩) .null args
    m.heap.template? ⟨0⟩ = some t ∧ ¬ t.Clashes args ∧
      ∃ self o, called.1 = .complete (.object self) ∧
        IsInstance m.heap called.2.heap t args self o := by
  intro t m args called
  have hclash : ¬ t.Clashes args := by
    rintro (hnodup | ⟨name, hmethod, hkeyword⟩)
    · exact hnodup (by decide)
    · cases List.mem_singleton.mp hmethod
      exact absurd hkeyword (by decide)
  exact ⟨rfl, hclash, (prepareCall_template rfl .null args).2.2.1 rfl hclash⟩

end Machine

end FiberMachine
