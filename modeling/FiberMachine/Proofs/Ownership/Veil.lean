import FiberMachine.Proofs.Ownership.OwnWrites

/-!
# Values behind a veil

What other modules are not meant to see of a module `A` are the values of the attributes that `A`
has not exported. The veil of `A` blanks them out, in objects, in heaps and in all that has a heap.
States with the same veil differ in nothing else. An instruction of a frame of another module does
to a veiled heap what it does to the heap itself (`Exec.step_veil`), unless it is an operator that
calls such an attribute.
-/

namespace FiberMachine

namespace Dict

variable {α β : Type}

/-- The same names with other values. -/
def map (f : α → β) (d : Dict α) : Dict β where
  entries := d.entries.map fun e => (e.1, f e.2)
  nodup := by
    rw [List.map_map]
    exact d.nodup

theorem get?_map (f : α → β) (d : Dict α) (name : String) :
    (d.map f).get? name = (d.get? name).map f := by
  simp only [get?, map]
  induction d.entries with
  | nil => rfl
  | cons e rest ih =>
    simp only [List.map_cons, find, ih]
    split <;> rfl

theorem map_insert (f : α → β) (d : Dict α) (name : String) (value : α) :
    (d.insert name value).map f = (d.map f).insert name (f value) := by
  simp only [insert, map, mk.injEq]
  induction d.entries with
  | nil => rfl
  | cons e rest ih =>
    simp only [store, List.map_cons]
    split
    · rfl
    · simp only [List.map_cons, ih]

end Dict

/-! ## Objects -/

/-- The attribute without its value, unless it is exported. -/
def Attribute.veil (a : Attribute) : Attribute :=
  if a.exported then a else { a with value := .null }

theorem Attribute.veil_of_exported {a : Attribute} (h : a.exported) : a.veil = a := if_pos h

@[simp] theorem Attribute.veil_assigned (a : Attribute) : a.veil.assigned = a.assigned := by
  unfold veil
  split <;> rfl

@[simp] theorem Attribute.veil_constant (a : Attribute) : a.veil.constant = a.constant := by
  unfold veil
  split <;> rfl

@[simp] theorem Attribute.veil_exported (a : Attribute) : a.veil.exported = a.exported := by
  unfold veil
  split <;> rfl

@[simp] theorem Attribute.veil_locked (a : Attribute) : a.veil.locked = a.locked := by
  unfold veil
  split <;> rfl

namespace Object

/-- The object without the values that `A` has not exported, if it is the object of `A`. -/
def veil (A : ModuleId) (o : Object) : Object :=
  if o.module = some A then { o with attributes := o.attributes.map Attribute.veil } else o

/-- The object is that of `A`, and has a value under the name that is not exported. -/
def hides (A : ModuleId) (o : Object) (name : String) : Bool :=
  o.module = some A && match o.attributes.get? name with
    | some a => a.assigned && !a.exported
    | none => false

variable {A : ModuleId} {o o' : Object} {caller : Option ModuleId} {name : String}

theorem veil_of_module (h : o.module = some A) :
    o.veil A = { o with attributes := o.attributes.map Attribute.veil } := if_pos h

theorem veil_of_ne (h : o.module ≠ some A) : o.veil A = o := if_neg h

@[simp] theorem veil_module (o : Object) : (o.veil A).module = o.module := by
  unfold veil
  split <;> rfl

@[simp] theorem veil_sealed (o : Object) : (o.veil A).sealed = o.sealed := by
  unfold veil
  split <;> rfl

@[simp] theorem veil_initializing (o : Object) : (o.veil A).initializing = o.initializing := by
  unfold veil
  split <;> rfl

@[simp] theorem veil_isForeign (o : Object) (caller : Option ModuleId) :
    (o.veil A).isForeign caller = o.isForeign caller := by
  simp only [isForeign, veil_module]

theorem veil_get?_of_module (h : o.module = some A) (name : String) :
    (o.veil A).attributes.get? name = (o.attributes.get? name).map Attribute.veil := by
  rw [veil_of_module h, Dict.get?_map]

theorem veil_put_of_module (h : o.module = some A) (name : String) (a : Attribute) :
    (o.put name a).veil A = (o.veil A).put name a.veil := by
  rw [veil_of_module h, veil_of_module (show (o.put name a).module = _ from h)]
  simp only [put, Dict.map_insert]

/-- Foreign code is told the same about every attribute. -/
theorem veil_get (h : caller ≠ some A) : (o.veil A).get name caller = o.get name caller := by
  by_cases hA : o.module = some A
  · have hforeign : o.isForeign caller := (isForeign_iff hA).mpr h
    simp only [get, veil_get?_of_module hA, mayAccess, veil_isForeign, veil_initializing, hforeign]
    cases o.attributes.get? name with
    | none => rfl
    | some a =>
      cases hexported : a.exported with
      | true => simp [Attribute.veil_of_exported hexported]
      | false => simp [hexported]
  · rw [veil_of_ne hA]

/-- An overload that is not hidden is found behind the veil. -/
theorem veil_lookup? (h : o.hides A name = false) : (o.veil A).lookup? name = o.lookup? name := by
  by_cases hA : o.module = some A
  · simp only [hides, hA, decide_true, Bool.true_and] at h
    simp only [lookup?, veil_get?_of_module hA]
    cases ha : o.attributes.get? name with
    | none => rfl
    | some a =>
      simp only [ha] at h
      cases hexported : a.exported with
      | true => simp [Attribute.veil_of_exported hexported]
      | false =>
        have hassigned : a.assigned = false := by simpa [hexported] using h
        simp [hassigned]
  · rw [veil_of_ne hA]

theorem veil_writeFault? (o : Object) (name : String) (caller : Option ModuleId) :
    (o.veil A).writeFault? name caller = o.writeFault? name caller := by
  by_cases hA : o.module = some A
  · simp only [writeFault?, veil_get?_of_module hA, mayAccess, veil_isForeign, veil_sealed]
    cases o.attributes.get? name with
    | none => rfl
    | some a => simp
  · rw [veil_of_ne hA]

/-- An assignment by foreign code is one of an attribute that the veil does not change. -/
theorem veil_assign (change : Attribute → Attribute) (hA : o.module = some A)
    (h : o.isForeign caller) (hw : o.writeFault? name caller = none)
    (hchange : ∀ a : Attribute, (change a).exported = a.exported) :
    ∃ a, o.attributes.get? name = some a ∧ (o.veil A).attributes.get? name = some a ∧
      (o.put name (change a)).veil A = (o.veil A).put name (change a) := by
  obtain ⟨a, ha, hexported, -⟩ := exported_of_writeFault? h hw
  refine ⟨a, ha, ?_, ?_⟩
  · rw [veil_get?_of_module hA, ha, Option.map_some, Attribute.veil_of_exported hexported]
  · rw [veil_put_of_module hA, Attribute.veil_of_exported ((hchange a).trans hexported)]

theorem veil_set (value : Value) (hA : o.module = some A) (h : o.isForeign caller) :
    (o.veil A).set name value caller = (o.set name value caller).map (veil A) := by
  simp only [Object.set, veil_writeFault?]
  cases hw : o.writeFault? name caller with
  | some fault => rfl
  | none =>
    obtain ⟨a, ha, ha', hput⟩ :=
      veil_assign ({ · with value, assigned := true }) hA h hw fun _ => rfl
    simp only [ha, ha', Except.map, hput]

theorem veil_declareConst (value : Value) (hA : o.module = some A) (h : o.isForeign caller) :
    (o.veil A).declareConst name value caller =
      (o.declareConst name value caller).map (veil A) := by
  simp only [Object.declareConst, veil_writeFault?]
  cases hw : o.writeFault? name caller with
  | some fault => rfl
  | none =>
    obtain ⟨a, ha, ha', hput⟩ :=
      veil_assign ({ · with value, assigned := true, constant := true }) hA h hw fun _ => rfl
    simp only [ha, ha', Except.map, hput]

theorem veil_adjust (change : Attribute → Attribute) (hA : o.module = some A)
    (h : o.isForeign caller) :
    (o.veil A).adjust name caller change = (o.adjust name caller change).map (veil A) := by
  simp only [adjust, veil_get?_of_module hA, veil_isForeign, h]
  cases o.attributes.get? name <;> rfl

theorem module_update {u : Update} (h : o.update u = .ok o') : o'.module = o.module := by
  cases u with
  | set | declareConst =>
    simp only [update, Object.set, Object.declareConst] at h
    split at h
    · cases h
    · split at h <;> cases h <;> rfl
  | reserveConst =>
    simp only [update, reserveConst] at h
    split at h
    · cases h
    · split at h
      · cases h
      · cases h
        rfl
  | «export» | lock =>
    simp only [update, exportName, lock, adjust] at h
    split at h
    · cases h
    · split at h
      · cases h
      · cases h
        rfl
  | «seal» =>
    cases h
    rfl

/-- An update by foreign code does the same behind the veil. -/
theorem veil_update {u : Update} (hu : u.IsForeign A) :
    (o.veil A).update u = (o.update u).map (veil A) := by
  by_cases hA : o.module = some A
  · cases u with
    | set name value caller => exact veil_set value hA ((isForeign_iff hA).mpr hu)
    | declareConst name value caller => exact veil_declareConst value hA ((isForeign_iff hA).mpr hu)
    | reserveConst name => exact hu.elim
    | «export» name caller | lock name caller =>
      exact veil_adjust _ hA ((isForeign_iff hA).mpr hu)
    | «seal» =>
      rw [veil_of_module hA]
      exact congrArg Except.ok (veil_of_module (show o.close.module = _ from hA)).symm
  · rw [veil_of_ne hA]
    cases hupdate : o.update u with
    | error fault => rfl
    | ok o' =>
      have hne : o'.module ≠ some A := by rwa [module_update hupdate]
      rw [Except.map, veil_of_ne hne]

theorem veil_initialized (o : Object) :
    { o with initializing := false }.veil A = { o.veil A with initializing := false } := by
  unfold veil
  split <;> rfl

end Object

/-! ## Heaps -/

namespace Heap

/-- The heap without the values that `A` has not exported. -/
def veil (A : ModuleId) (h : Heap) : Heap := { h with objects := h.objects.map (Object.veil A) }

variable {A : ModuleId} {h : Heap}

theorem veil_object? (r : Ref .object) : (h.veil A).object? r = (h.object? r).map (Object.veil A) :=
  Array.getElem?_map

theorem veil_setObject (r : Ref .object) (o : Object) :
    (h.veil A).setObject r (o.veil A) = (h.setObject r o).veil A := by
  simp only [veil, setObject, Array.map_setIfInBounds]

/-- An object that is added belongs to no module, or has no attributes. -/
theorem veil_newObject {o : Object} (ho : o.veil A = o) :
    (h.veil A).newObject o = ((h.newObject o).1, (h.newObject o).2.veil A) := by
  simp only [veil, newObject, Array.map_push, ho, Array.size_map]

theorem veil_updated {u : Object.Update} (hu : u.IsForeign A) (r : Ref .object) :
    (h.veil A).updated r u = (h.updated r u).map (Object.veil A) := by
  simp only [updated, veil_object?]
  cases h.object? r with
  | none => rfl
  | some o => exact Object.veil_update hu

theorem veil_realize (outcome : Outcome) :
    (h.veil A).realize outcome = ((h.realize outcome).1, (h.realize outcome).2.veil A) := by
  cases outcome <;> rfl

end Heap

theorem Builtin.veil_readAttribute {A : ModuleId} {h : Heap} {target : Value} {name : String}
    {caller : Option ModuleId} (hcaller : caller ≠ some A) :
    readAttribute (h.veil A) target name caller = readAttribute h target name caller := by
  cases target with
  | object r =>
    simp only [readAttribute, Heap.veil_object?]
    cases h.object? r with
    | none => rfl
    | some o => exact Object.veil_get hcaller
  | _ => rfl

/-! ## Parts of instructions -/

/-- The frame with the veiled heap. -/
def Local.veil (A : ModuleId) (l : Local) : Local := ⟨l.heap.veil A, l.frame⟩

namespace Exec

variable {α β : Type} {A : ModuleId}

/--
In a frame of another module than `A`, the second computation does to a veiled heap what the first
one does to the heap. They differ in what they have read from the heap.
-/
structure Blind (A : ModuleId) (x x' : Exec α) : Prop where
  run (l : Local) : l.frame.scope.module ≠ A →
    x'.run (l.veil A) = ((x.run l).1, (x.run l).2.veil A) ∧
      (x.run l).2.frame.scope = l.frame.scope

namespace Blind

theorem bind {x x' : Exec α} {next next' : α → Exec β} (H : Blind A x x')
    (H' : ∀ a, Blind A (next a) (next' a)) : Blind A (x >>= next) (x' >>= next') := by
  refine ⟨fun l hl => ?_⟩
  obtain ⟨hrun, hscope⟩ := H.run l hl
  rw [run_bind, run_bind, hrun]
  rcases hr : x.run l with ⟨_ | a, l'⟩ <;> rw [hr] at hscope
  · exact ⟨rfl, hscope⟩
  · obtain ⟨hrun', hscope'⟩ := (H' a).run l' (by rwa [hscope])
    exact ⟨hrun', hscope'.trans hscope⟩

theorem pure (a : α) : Blind A (Pure.pure a) (Pure.pure a) := ⟨fun _ _ => ⟨rfl, rfl⟩⟩

theorem throw (fault : Fault) : Blind A (throw fault : Exec α) (throw fault) :=
  ⟨fun _ _ => ⟨rfl, rfl⟩⟩

theorem lift (e : Except Fault α) : Blind A (liftM e : Exec α) (liftM e) :=
  ⟨fun l _ => by cases e <;> exact ⟨rfl, rfl⟩⟩

theorem orElseFault (fault : Fault) (a? : Option α) :
    Blind A (orElseFault fault a?) (Exec.orElseFault fault a?) := by
  cases a? with
  | none => exact .throw fault
  | some a => exact .pure a

/-- What is read from the heap is behind the veil. -/
theorem heap_bind {next next' : Heap → Exec α} (H : ∀ h, Blind A (next h) (next' (h.veil A))) :
    Blind A (heap >>= next) (heap >>= next') := by
  refine ⟨fun l hl => ?_⟩
  rw [run_heap_bind, run_heap_bind]
  exact (H l.heap).run l hl

theorem object_bind {o? : Option Object} {next next' : Object → Exec α}
    (H : ∀ o, Blind A (next o) (next' (o.veil A))) :
    Blind A (found o? >>= next) (found (o?.map (Object.veil A)) >>= next') := by
  cases o? with
  | none => exact .throw _
  | some o => exact H o

/-- What is done on behalf of the frame's module is not done on behalf of `A`. -/
theorem caller_bind {next next' : Option ModuleId → Exec α}
    (H : ∀ caller, caller ≠ some A → Blind A (next caller) (next' caller)) :
    Blind A (caller >>= next) (caller >>= next') := by
  refine ⟨fun l hl => ?_⟩
  exact (H (some l.frame.scope.module) fun heq => hl (Option.some.inj heq)).run l hl

end Blind

theorem blind_frame : Blind A frame frame := ⟨fun _ _ => ⟨rfl, rfl⟩⟩

theorem blind_found (a? : Option α) : Blind A (found a?) (found a?) := .orElseFault _ a?

theorem blind_modifyFrame {f : Frame → Frame} (H : ∀ g : Frame, (f g).scope = g.scope) :
    Blind A (modifyFrame f) (modifyFrame f) := ⟨fun l _ => ⟨rfl, H l.frame⟩⟩

theorem blind_modifyHeap {f : Heap → Heap} (H : ∀ h : Heap, f (h.veil A) = (f h).veil A) :
    Blind A (modifyHeap f) (modifyHeap f) := by
  refine ⟨fun l _ => ⟨?_, rfl⟩⟩
  exact congrArg (fun h => (Except.ok (), Local.mk h l.frame)) (H l.heap)

theorem blind_allocate {f : Heap → α × Heap}
    (H : ∀ h : Heap, f (h.veil A) = ((f h).1, (f h).2.veil A)) :
    Blind A (allocate f) (allocate f) := by
  refine ⟨fun l _ => ⟨?_, rfl⟩⟩
  exact congrArg (fun p : α × Heap => (Except.ok p.1, Local.mk p.2 l.frame)) (H l.heap)

theorem blind_push (value : Value) : Blind A (push value) (push value) :=
  blind_modifyFrame fun _ => rfl

theorem blind_pop : Blind A pop pop := by
  refine blind_frame.bind fun f => ?_
  cases f.stack with
  | nil => exact .throw _
  | cons value rest => exact .bind (blind_modifyFrame fun _ => rfl) fun _ => .pure _

theorem blind_peek : Blind A peek peek := blind_frame.bind fun _ => .orElseFault ..

theorem blind_constant (i : Nat) : Blind A (constant i) (constant i) :=
  blind_frame.bind fun _ => .orElseFault ..

theorem blind_name (i : Nat) : Blind A (name i) (name i) :=
  (blind_constant i).bind fun _ => .orElseFault ..

theorem blind_capture (i : Nat) : Blind A (capture i) (capture i) :=
  blind_frame.bind fun _ => .orElseFault ..

theorem blind_newCell (value : Value) : Blind A (newCell value) (newCell value) :=
  blind_allocate fun _ => rfl

theorem blind_cellOf (slot : Nat) : Blind A (cellOf slot) (cellOf slot) := by
  refine blind_frame.bind fun f => ?_
  cases f.cell? slot with
  | some cell => exact .pure cell
  | none =>
    exact blind_frame.bind fun _ => (blind_newCell _).bind fun _ =>
      .bind (blind_modifyFrame fun _ => rfl) fun _ => .pure _

theorem blind_modifyArgs (f : Arguments → Arguments) :
    Blind A (modifyArgs f) (modifyArgs f) := by
  refine blind_frame.bind fun g => ?_
  cases g.args with
  | nil => exact .throw _
  | cons args rest => exact blind_modifyFrame fun _ => rfl

theorem blind_takeArgs : Blind A takeArgs takeArgs := by
  refine blind_frame.bind fun g => ?_
  cases g.args with
  | nil => exact .throw _
  | cons args rest => exact .bind (blind_modifyFrame fun _ => rfl) fun _ => .pure _

theorem blind_next : Blind A next next :=
  .bind (blind_modifyFrame fun _ => rfl) fun _ => .pure _

theorem blind_jump (target : Nat) : Blind A (jump target) (jump target) :=
  .bind (blind_modifyFrame fun _ => rfl) fun _ => .pure _

theorem blind_push_next (value : Value) :
    Blind A (do push value; next) (do push value; next) :=
  (blind_push value).bind fun _ => blind_next

theorem blind_update (r : Ref .object) {u : Object.Update} (hu : u.IsForeign A) :
    Blind A (update r u) (update r u) := by
  refine ⟨fun l _ => ?_⟩
  rw [run_update, run_update, Local.veil, Heap.veil_updated hu]
  cases l.heap.updated r u with
  | error fault => exact ⟨rfl, rfl⟩
  | ok o => exact ⟨by simp only [Except.map, Heap.veil_setObject]; rfl, rfl⟩

theorem blind_setArray (r : Ref .array) (s : Sequence) :
    Blind A (modifyHeap (·.setArray r s)) (modifyHeap (·.setArray r s)) :=
  blind_modifyHeap fun _ => rfl

theorem blind_setCell (r : Ref .cell) (value : Value) :
    Blind A (modifyHeap (·.setCell r value)) (modifyHeap (·.setCell r value)) :=
  blind_modifyHeap fun _ => rfl

theorem blind_objectOf (value : Value) : Blind A (objectOf value) (objectOf value) := by
  cases value with
  | object r => exact .pure r
  | _ => exact .throw _

theorem blind_sealValue (value : Value) : Blind A (sealValue value) (sealValue value) := by
  cases value with
  | object r => exact blind_update r trivial
  | array r => exact .heap_bind fun h => (blind_found (h.array? r)).bind fun _ => blind_setArray ..
  | _ => exact .throw _

theorem blind_getIndex (target index : Value) :
    Blind A (getIndex target index) (getIndex target index) := by
  cases target with
  | array r =>
    exact .heap_bind fun h => (blind_found (h.array? r)).bind fun _ =>
      (Blind.orElseFault ..).bind fun _ => .lift _
  | object r =>
    refine .heap_bind fun h => ?_
    rw [Heap.veil_object?]
    refine .object_bind fun o => (Blind.orElseFault ..).bind fun name =>
      .caller_bind fun caller hcaller => ?_
    rw [Object.veil_get hcaller]
    exact .lift _
  | _ => exact .throw _

theorem blind_setIndex (target index value : Value) :
    Blind A (setIndex target index value) (setIndex target index value) := by
  cases target with
  | array r =>
    exact .heap_bind fun h => (blind_found (h.array? r)).bind fun _ =>
      (Blind.orElseFault ..).bind fun _ => (Blind.lift _).bind fun _ => blind_setArray ..
  | object r =>
    exact (Blind.orElseFault ..).bind fun _ => .caller_bind fun _ hcaller =>
      blind_update r hcaller
  | _ => exact .throw _

theorem blind_newFunction (f : FunctionObject) :
    Blind A (allocate (·.newFunction f)) (allocate (·.newFunction f)) :=
  blind_allocate fun _ => rfl

theorem blind_bindField (self : Ref .object) (value : Value) :
    Blind A (bindField self value) (bindField self value) := by
  cases value with
  | function r =>
    exact .heap_bind fun h => (blind_found (h.function? r)).bind fun _ =>
      (blind_newFunction _).bind fun _ => .pure _
  | _ => exact .pure _

theorem blind_setFields (self : Ref .object) (fields : List (String × Value)) :
    Blind A (setFields self fields) (setFields self fields) := by
  induction fields with
  | nil => exact .pure _
  | cons field rest ih =>
    exact (blind_bindField self field.2).bind fun _ => .bind (blind_update self nofun)
      fun _ => ih

theorem blind_newObject (args : Arguments) : Blind A (newObject args) (newObject args) := by
  have hallocate : Blind A (allocate (·.newObject {})) (allocate (·.newObject {})) :=
    blind_allocate fun _ => Heap.veil_newObject (Object.veil_of_ne nofun)
  have hrest : Blind A (do
      let self ← allocate (·.newObject {})
      setFields self args.keywords.entries
      return Value.object self) _ :=
    hallocate.bind fun _ => (blind_setFields ..).bind fun _ => .pure _
  unfold newObject
  split
  · exact .throw _
  · exact hrest

theorem blind_captured (captures : List Capture) :
    Blind A (captured captures) (captured captures) := by
  induction captures with
  | nil => exact .pure _
  | cons c rest ih =>
    cases c with
    | slot i => exact (blind_cellOf _).bind fun _ => ih.bind fun _ => .pure _
    | outer i => exact (blind_capture _).bind fun _ => ih.bind fun _ => .pure _

theorem blind_makeFunction (i : Nat) : Blind A (makeFunction i) (makeFunction i) := by
  refine (blind_constant i).bind fun value => ?_
  cases value with
  | code r =>
    exact .heap_bind fun h => (blind_found (h.code? r)).bind fun _ => (blind_captured _).bind
      fun _ => blind_frame.bind fun _ => (blind_newFunction _).bind fun _ => .pure _
  | _ => exact .throw _

end Exec

/-! ## Instructions -/

/-- The operator that an opcode stands for. -/
def Opcode.operator? : Opcode → Option (BinaryOperator ⊕ UnaryOperator)
  | .add => some (.inl .add)
  | .subtract => some (.inl .subtract)
  | .multiply => some (.inl .multiply)
  | .divide => some (.inl .divide)
  | .remainder => some (.inl .remainder)
  | .bitwiseAnd => some (.inl .bitwiseAnd)
  | .bitwiseOr => some (.inl .bitwiseOr)
  | .bitwiseXor => some (.inl .bitwiseXor)
  | .shiftLeft => some (.inl .shiftLeft)
  | .shiftRight => some (.inl .shiftRight)
  | .equal => some (.inl .equal)
  | .notEqual => some (.inl .notEqual)
  | .lessThan => some (.inl .lessThan)
  | .lessThanOrEqual => some (.inl .lessThanOrEqual)
  | .greaterThan => some (.inl .greaterThan)
  | .greaterThanOrEqual => some (.inl .greaterThanOrEqual)
  | .negate => some (.inr .negate)
  | .not => some (.inr .not)
  | _ => none

/--
The operand that the operator of the current instruction may be overloaded by, and the name of the
attribute that does so.
-/
def Frame.overloaded? (f : Frame) : Option (Value × String) := do
  let i ← f.code.instructions[f.instruction]?
  match ← i.opcode.operator?, f.stack with
  | .inl op, _ :: left :: _ => some (left, op.overload)
  | .inr op, operand :: _ => some (operand, op.overload)
  | _, _ => none

/-- The value is the object of `A`, and has an attribute with a value that is not exported. -/
def Heap.hides (A : ModuleId) (h : Heap) : Value → String → Bool
  | .object r, name => (h.object? r).any (·.hides A name)
  | _, _ => false

/-- The current instruction is an operator that calls an attribute of `A` that is not exported. -/
def Local.unveils (A : ModuleId) (l : Local) : Bool :=
  l.frame.overloaded?.any fun (operand, name) => l.heap.hides A operand name

/-- What is hidden can be told from behind the veil. -/
theorem Object.veil_hides (A : ModuleId) (o : Object) (name : String) :
    (o.veil A).hides A name = o.hides A name := by
  by_cases hA : o.module = some A
  · simp only [hides, veil_module, veil_get?_of_module hA]
    cases o.attributes.get? name with
    | none => rfl
    | some a => simp only [Option.map_some, Attribute.veil_assigned, Attribute.veil_exported]
  · rw [veil_of_ne hA]

theorem Heap.veil_hides (A : ModuleId) (h : Heap) (value : Value) (name : String) :
    (h.veil A).hides A value name = h.hides A value name := by
  cases value with
  | object r =>
    simp only [hides, veil_object?, Option.any_map]
    refine congrArg (Option.any · _) (funext fun o => o.veil_hides A name)
  | _ => rfl

theorem Local.veil_unveils (A : ModuleId) (l : Local) : (l.veil A).unveils A = l.unveils A := by
  simp only [unveils, veil, Heap.veil_hides]

namespace Exec

variable {α : Type} {A : ModuleId} {l : Local}

theorem overload?_bind_veil {operand : Value} {s : String} {next : Option Value → Exec α}
    (hl : l.frame.scope.module ≠ A) (h : l.heap.hides A operand s = false)
    (H : ∀ overload, Blind A (next overload) (next overload)) :
    (overload? operand s >>= next).run (l.veil A) =
      (((overload? operand s >>= next).run l).1,
        ((overload? operand s >>= next).run l).2.veil A) := by
  cases operand with
  | object r =>
    simp only [overload?, bind_assoc]
    rw [run_heap_bind, run_heap_bind, Local.veil, Heap.veil_object?]
    cases ho : l.heap.object? r with
    | none => rfl
    | some o =>
      have hhides : o.hides A s = false := by simpa only [Heap.hides, ho, Option.any_some] using h
      simp only [found, orElseFault, Option.map_some, pure_bind, Object.veil_lookup? hhides]
      exact ((H _).run l hl).1
  | _ => exact ((H none).run l hl).1

/-- What a binary operator does once its operands are taken and it is not overloaded. -/
theorem blind_binary_none (op : BinaryOperator) (left right : Value) :
    Blind A
      (do
        let outcome ← Operator.binary (← heap) op left right
        push (← allocate (·.realize outcome))
        next)
      (do
        let outcome ← Operator.binary (← heap) op left right
        push (← allocate (·.realize outcome))
        next) := by
  refine .heap_bind fun h => (Blind.lift (Operator.binary h op left right)).bind fun outcome => ?_
  exact .bind (blind_allocate fun _ => Heap.veil_realize outcome) fun _ => blind_push_next _

theorem binary_veil {op : BinaryOperator} (hl : l.frame.scope.module ≠ A)
    (h : ∀ right left rest, l.frame.stack = right :: left :: rest →
      l.heap.hides A left op.overload = false) :
    (binary op).run (l.veil A) = (((binary op).run l).1, ((binary op).run l).2.veil A) := by
  unfold binary
  cases hs : l.frame.stack with
  | nil =>
    rw [run_pop_bind_nil _ hs, run_pop_bind_nil (l := l.veil A) _ hs]
  | cons right operands =>
    rw [run_pop_bind _ hs, run_pop_bind (l := l.veil A) _ hs]
    cases operands with
    | nil => rfl
    | cons left rest =>
      rw [run_pop_bind _ rfl, run_pop_bind _ rfl]
      refine overload?_bind_veil (l := ⟨l.heap, { l.frame with stack := rest }⟩) hl
        (h right left rest hs) fun overload => ?_
      cases overload with
      | some overload => exact .pure _
      | none => exact blind_binary_none op left right

theorem unary_veil {op : UnaryOperator} (hl : l.frame.scope.module ≠ A)
    (h : ∀ operand rest, l.frame.stack = operand :: rest →
      l.heap.hides A operand op.overload = false) :
    (unary op).run (l.veil A) = (((unary op).run l).1, ((unary op).run l).2.veil A) := by
  unfold unary
  cases hs : l.frame.stack with
  | nil =>
    rw [run_pop_bind_nil _ hs, run_pop_bind_nil (l := l.veil A) _ hs]
  | cons operand rest =>
    rw [run_pop_bind _ hs, run_pop_bind (l := l.veil A) _ hs]
    refine overload?_bind_veil (l := ⟨l.heap, { l.frame with stack := rest }⟩) hl
      (h operand rest hs) fun overload => ?_
    cases overload with
    | some overload => exact .pure _
    | none => exact (Blind.lift _).bind fun _ => blind_push_next _

/-- A change of an object on behalf of the frame's module, which ends an instruction. -/
theorem blind_update_next {target : Exec (Ref .object)} {u : Option ModuleId → Object.Update}
    (H : Blind A target target) (hu : ∀ caller, caller ≠ some A → (u caller).IsForeign A) :
    Blind A (do update (← target) (u (← caller)); next)
      (do update (← target) (u (← caller)); next) :=
  H.bind fun r => .caller_bind fun caller hcaller =>
    (blind_update r (hu caller hcaller)).bind fun _ => blind_next

theorem blind_instruction {i : Instruction} (h : i.opcode.operator? = none) :
    Blind A (instruction i) (instruction i) := by
  obtain ⟨opcode, operand, handler, range⟩ := i
  cases opcode with
  | add | subtract | multiply | divide | remainder | bitwiseAnd | bitwiseOr | bitwiseXor
  | shiftLeft | shiftRight | equal | notEqual | lessThan | lessThanOrEqual | greaterThan
  | greaterThanOrEqual | negate | not => cases h
  | nop => exact blind_next
  | pop => exact blind_pop.bind fun _ => blind_next
  | dup => exact blind_peek.bind fun _ => blind_push_next _
  | swap =>
    exact blind_pop.bind fun _ => blind_pop.bind fun _ => (blind_push _).bind
      fun _ => blind_push_next _
  | pushNull | pushTrue | pushFalse => exact blind_push_next _
  | loadConst => exact (blind_constant _).bind fun _ => blind_push_next _
  | loadLocal => exact blind_frame.bind fun _ => blind_push_next _
  | storeLocal =>
    exact blind_pop.bind fun _ => .bind (blind_modifyFrame fun _ => rfl) fun _ => blind_next
  | loadCell =>
    exact (blind_cellOf _).bind fun cell => .heap_bind fun h => (blind_found (h.cell? cell)).bind
      fun _ => blind_push_next _
  | storeCell =>
    exact blind_pop.bind fun _ => (blind_cellOf _).bind fun _ => (blind_setCell ..).bind
      fun _ => blind_next
  | newCell =>
    exact blind_pop.bind fun _ => (blind_newCell _).bind fun _ =>
      .bind (blind_modifyFrame fun _ => rfl) fun _ => blind_next
  | loadCapture =>
    exact (blind_capture _).bind fun cell => .heap_bind fun h => (blind_found (h.cell? cell)).bind
      fun _ => blind_push_next _
  | storeCapture =>
    exact blind_pop.bind fun _ => (blind_capture _).bind fun _ => (blind_setCell ..).bind
      fun _ => blind_next
  | loadGlobal =>
    refine (blind_name _).bind fun s => .heap_bind fun h => blind_frame.bind fun f => ?_
    rw [Heap.veil_object?]
    refine .object_bind fun o => .caller_bind fun caller hcaller => ?_
    rw [Object.veil_get hcaller]
    exact (Blind.lift _).bind fun _ => blind_push_next _
  | storeGlobal =>
    refine (blind_name _).bind fun s => blind_pop.bind fun value => blind_frame.bind fun f =>
      .caller_bind fun caller hcaller => ?_
    exact (blind_update _ (u := .set s value caller) hcaller).bind fun _ => blind_next
  | getAttr =>
    refine (blind_name _).bind fun s => blind_pop.bind fun target => .heap_bind fun h =>
      .caller_bind fun caller hcaller => ?_
    rw [Builtin.veil_readAttribute hcaller]
    exact (Blind.lift _).bind fun _ => blind_push_next _
  | setAttr | declareConst =>
    exact (blind_name _).bind fun _ => blind_pop.bind fun _ => blind_pop.bind fun _ =>
      blind_update_next (blind_objectOf _) fun _ hcaller => hcaller
  | «export» | lock =>
    exact (blind_name _).bind fun _ => blind_pop.bind fun _ =>
      blind_update_next (blind_objectOf _) fun _ hcaller => hcaller
  | «seal» => exact blind_peek.bind fun _ => (blind_sealValue _).bind fun _ => blind_next
  | getIndex =>
    exact blind_pop.bind fun _ => blind_pop.bind fun _ => (blind_getIndex ..).bind
      fun _ => blind_push_next _
  | setIndex =>
    exact blind_pop.bind fun _ => blind_pop.bind fun _ => blind_pop.bind fun _ =>
      (blind_setIndex ..).bind fun _ => blind_next
  | jump => exact blind_jump _
  | jumpIf =>
    refine blind_pop.bind fun condition => ?_
    cases condition.truthy
    · exact blind_next
    · exact blind_jump _
  | jumpIfNot =>
    refine blind_pop.bind fun condition => ?_
    cases condition.truthy
    · exact blind_jump _
    · exact blind_next
  | newArgs => exact .bind (blind_modifyFrame fun _ => rfl) fun _ => blind_next
  | pushArg => exact blind_pop.bind fun _ => (blind_modifyArgs _).bind fun _ => blind_next
  | pushKeyword =>
    exact (blind_name _).bind fun _ => blind_pop.bind fun _ => (blind_modifyArgs _).bind
      fun _ => blind_next
  | call =>
    exact blind_pop.bind fun _ => blind_pop.bind fun _ => blind_takeArgs.bind fun _ => .pure _
  | invoke =>
    exact (blind_name _).bind fun _ => blind_pop.bind fun _ => blind_takeArgs.bind
      fun _ => .pure _
  | bind =>
    refine blind_pop.bind fun _ => blind_pop.bind fun value => ?_
    cases value with
    | function r =>
      exact .heap_bind fun h => (blind_found (h.function? r)).bind fun _ =>
        (blind_newFunction _).bind fun _ => blind_push_next _
    | _ => exact .throw _
  | makeFunction => exact (blind_makeFunction _).bind fun _ => blind_push_next _
  | newArray =>
    refine blind_takeArgs.bind fun args => ?_
    cases args.hasKeywords
    · exact .bind (blind_allocate fun _ => rfl) fun _ => blind_push_next _
    · exact .throw _
  | newObject =>
    exact blind_takeArgs.bind fun _ => (blind_newObject _).bind fun _ => blind_push_next _
  | loadModule => exact (blind_name _).bind fun _ => .pure _
  | «return» => exact blind_frame.bind fun _ => .pure _
  | throw => exact blind_pop.bind fun _ => .throw _
  | popErr => exact blind_frame.bind fun _ => blind_push_next _

theorem instruction_of_operator? {i : Instruction} {op : BinaryOperator ⊕ UnaryOperator}
    (h : i.opcode.operator? = some op) : instruction i = op.elim binary unary := by
  obtain ⟨opcode, operand, handler, range⟩ := i
  cases opcode <;> cases h <;> rfl

/-- **An instruction of another module does the same behind the veil**, unless it unveils. -/
theorem step_veil (hl : l.frame.scope.module ≠ A) (h : l.unveils A = false) :
    step.run (l.veil A) = ((step.run l).1, (step.run l).2.veil A) := by
  cases hi : l.frame.code.instructions[l.frame.instruction]? with
  | none => rw [step_of_none hi, step_of_none (l := l.veil A) hi]
  | some i =>
    have hstep (l' : Local) (hframe : l'.frame = l.frame) :
        step.run l' = (instruction i).run l' := by
      rw [step, run_frame_bind, hframe]
      simp only [hi]
    rw [hstep l rfl, hstep (l.veil A) rfl]
    cases hop : i.opcode.operator? with
    | none => exact ((blind_instruction hop).run l hl).1
    | some op =>
      simp only [Local.unveils, Frame.overloaded?, hi, hop, Option.bind_eq_bind,
        Option.bind_some] at h
      rw [instruction_of_operator? hop]
      cases op with
      | inl op =>
        refine binary_veil hl fun right left rest hs => ?_
        simpa only [hs, Option.any_some] using h
      | inr op =>
        refine unary_veil hl fun operand rest hs => ?_
        simpa only [hs, Option.any_some] using h

end Exec

end FiberMachine
