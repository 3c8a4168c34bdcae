import FiberMachine.Proofs.Ownership.Confinement

/-!
# What a module writes to its own object

Whether a module's own write to an attribute that it has not exported succeeds does not depend on
what foreign code has done in the meantime, with one exception: foreign code can seal the object of
a module that is still loading, and then the module cannot create the names that it has not created
yet (`World.own_write_of_allForeign`).
-/

namespace FiberMachine

/-! ## Why an update fails -/

namespace Object

/-- Why an update fails, if it does. -/
def updateFault? (o : Object) (u : Update) : Option Fault :=
  match o.update u with
  | .ok _ => none
  | .error fault => some fault

/-- Whether the update creates an attribute that is missing. -/
def Update.creates : Update → Bool
  | .set .. | .declareConst .. => true
  | _ => false

/-- The update is one of the attribute `name`, made by code of `caller`. -/
def Update.IsOf (name : String) (caller : Option ModuleId) : Update → Prop
  | .set other _ maker | .declareConst other _ maker | .export other maker | .lock other maker =>
    other = name ∧ maker = caller
  | .reserveConst _ | .seal => False

variable {o o' : Object} {A : ModuleId} {caller : Option ModuleId} {name : String}

theorem updateFault?_of_creates {u : Update} (hu : u.IsOf name caller) (hcreates : u.creates) :
    o.updateFault? u = o.writeFault? name caller := by
  cases u with
  | set other value maker | declareConst other value maker =>
    obtain ⟨rfl, rfl⟩ := hu
    simp only [updateFault?, update, Object.set, Object.declareConst]
    cases o.writeFault? other maker with
    | some fault => rfl
    | none => cases o.attributes.get? other <;> rfl
  | _ => cases hcreates

theorem updateFault?_of_not_creates {u : Update} (hu : u.IsOf name caller)
    (hcreates : u.creates = false) :
    o.updateFault? u = match o.attributes.get? name with
      | none => some .unknownAttribute
      | some _ => if o.isForeign caller then some .forbidden else none := by
  cases u with
  | «export» other maker | lock other maker =>
    obtain ⟨rfl, rfl⟩ := hu
    simp only [updateFault?, update, exportName, lock, adjust]
    cases o.attributes.get? other with
    | none => rfl
    | some a => cases o.isForeign maker <;> rfl
  | set | declareConst => cases hcreates
  | reserveConst | «seal» => exact hu.elim

/-- Foreign code leaves an attribute that is not exported, or its absence. -/
theorem Confined.get?_eq (H : o.Confined o') (h : o.isExported name = false) :
    o'.attributes.get? name = o.attributes.get? name := by
  cases ha : o.attributes.get? name with
  | none => rwa [Dict.get?_eq_none_iff, H.names, ← Dict.get?_eq_none_iff]
  | some a =>
    obtain ⟨a', ha', Ha⟩ := H.kept name a ha
    rw [isExported, ha] at h
    rw [ha', Ha.eq_of_not_exported h]

/-- An attribute is created in an object that is not sealed, and not by foreign code. -/
theorem updateFault?_of_absent {u : Update} (hu : u.IsOf name caller) (hcreates : u.creates)
    (habsent : o.attributes.get? name = none) :
    o.updateFault? u =
      if o.sealed then some .sealed else if o.isForeign caller then some .forbidden else none := by
  rw [updateFault?_of_creates hu hcreates, writeFault?, habsent]

/--
An update of an attribute that is not exported fails as it would have without foreign code, unless
it creates the attribute and the object has been sealed.
-/
theorem Confined.updateFault?_eq (H : o.Confined o') {u : Update} (hu : u.IsOf name caller)
    (h : o.isExported name = false)
    (hopen : u.creates → o.attributes.get? name = none → o'.sealed = o.sealed) :
    o'.updateFault? u = o.updateFault? u := by
  have hget := H.get?_eq h
  have hforeign : o'.isForeign caller = o.isForeign caller := by
    simp only [isForeign, H.module]
  cases hcreates : u.creates with
  | false => simp only [updateFault?_of_not_creates hu hcreates, hget, hforeign]
  | true =>
    cases ha : o.attributes.get? name with
    | none =>
      rw [updateFault?_of_absent hu hcreates ha, updateFault?_of_absent hu hcreates (hget.trans ha),
        hforeign, hopen hcreates ha]
    | some a =>
      have haccess : o'.mayAccess a caller = o.mayAccess a caller := by
        rw [mayAccess, mayAccess, hforeign]
      rw [updateFault?_of_creates hu hcreates, updateFault?_of_creates hu hcreates, writeFault?,
        writeFault?, hget, ha]
      dsimp only
      rw [haccess]

end Object

/-! ## Instructions -/

/-- The object and the attribute of it that the current instruction writes, and how. -/
def Frame.write? (f : Frame) : Option (Ref .object × String × Object.Update) := do
  let i ← f.code.instructions[f.instruction]?
  let name ← f.scope.constants[i.operand.toNat]?.bind Value.asString?
  let caller := some f.scope.module
  match i.opcode, f.stack with
  | .storeGlobal, value :: _ => some (f.scope.globals, name, .set name value caller)
  | .setAttr, value :: .object r :: _ => some (r, name, .set name value caller)
  | .declareConst, value :: .object r :: _ => some (r, name, .declareConst name value caller)
  | .export, .object r :: _ => some (r, name, .export name caller)
  | .lock, .object r :: _ => some (r, name, .lock name caller)
  | _, _ => none

theorem Frame.isOf_of_write? {f : Frame} {r : Ref .object} {name : String} {u : Object.Update}
    (h : f.write? = some (r, name, u)) : u.IsOf name (some f.scope.module) := by
  simp only [write?, Option.bind_eq_bind, Option.bind_eq_some_iff] at h
  obtain ⟨i, -, other, -, h⟩ := h
  split at h <;> cases h <;> exact ⟨rfl, rfl⟩

namespace Exec

/-- An update that ends an instruction. -/
theorem run_update_next (l : Local) (r : Ref .object) (u : Object.Update) :
    (update r u >>= fun _ => next).run l = match l.heap.updated r u with
      | .ok o => (.ok .next, ⟨l.heap.setObject r o,
          { l.frame with instruction := l.frame.instruction + 1 }⟩)
      | .error fault => (.error fault, l) := by
  rw [run_bind, run_update]
  cases l.heap.updated r u <;> rfl

/-- A write takes its operands, and goes on if the update succeeds. -/
theorem step_of_write? {f : Frame} {r : Ref .object} {s : String} {u : Object.Update}
    (h : f.write? = some (r, s, u)) :
    ∃ rest, ∀ heap : Heap, step.run ⟨heap, f⟩ = match heap.updated r u with
      | .ok o => (.ok .next, ⟨heap.setObject r o,
          { f with stack := rest, instruction := f.instruction + 1 }⟩)
      | .error fault => (.error fault, ⟨heap, { f with stack := rest }⟩) := by
  simp only [Frame.write?, Option.bind_eq_bind, Option.bind_eq_some_iff] at h
  obtain ⟨i, hi, other, ⟨value, hvalue, hs⟩, h⟩ := h
  have hstep (heap : Heap) : step.run ⟨heap, f⟩ = (instruction i).run ⟨heap, f⟩ := step_of_some hi
  simp only [hstep]
  obtain ⟨opcode, operand, handler, range⟩ := i
  split at h
  case h_6 => cases h
  all_goals
    rename_i rest hopcode hstack
    cases hopcode
    cases h
    refine ⟨rest, fun heap => ?_⟩
    dsimp only [instruction]
    rw [run_name_bind _ hvalue hs, run_pop_bind _ hstack]
  case h_1 => exact run_update_next ..
  case h_2 | h_3 =>
    rw [run_pop_bind _ rfl]
    exact run_update_next ..
  case h_4 | h_5 => exact run_update_next ..

end Exec

/-! ## Histories -/

namespace World

variable {A : ModuleId}

/--
**Foreign code can thwart a write of the owner in one way only.** Between two heaps with only
foreign code in between, an instruction of `A` that writes an attribute of the object of `A` which
is not exported has the same outcome, unless it creates the attribute and foreign code has sealed
the object meanwhile. Then it would have succeeded, and fails.
-/
theorem own_write_of_allForeign {w : World} {events : List Event} (h : w.allForeign A events)
    {r : Ref .object} {o : Object} (ho : w.machine.heap.object? r = some o)
    (hA : o.module = some A) {f : Frame} (hf : f.scope.module = A) {name : String}
    {u : Object.Update} (hwrite : f.write? = some (r, name, u))
    (hname : o.isExported name = false) :
    ∃ o', (w.run events).machine.heap.object? r = some o' ∧
      let before := Exec.step.run ⟨w.machine.heap, f⟩
      let after := Exec.step.run ⟨(w.run events).machine.heap, f⟩
      if u.creates ∧ o.attributes.get? name = none ∧ o.sealed = false ∧ o'.sealed then
        (∃ l, before = (.ok .next, l)) ∧ ∃ l, after = (.error .sealed, l)
      else after.1 = before.1 ∧ after.2.frame = before.2.frame := by
  obtain ⟨o', ho', H⟩ := (confined_run h).object r o ho hA
  have hu : u.IsOf name (some A) := hf ▸ Frame.isOf_of_write? hwrite
  obtain ⟨rest, hstep⟩ := Exec.step_of_write? hwrite
  -- how the instruction ends depends on the heap by way of the update only
  have hends (heap : Heap) (p : Object) (hp : heap.object? r = some p) :
      ((Exec.step.run ⟨heap, f⟩).1, (Exec.step.run ⟨heap, f⟩).2.frame) =
        match p.updateFault? u with
        | none => (.ok .next, { f with stack := rest, instruction := f.instruction + 1 })
        | some fault => (.error fault, { f with stack := rest }) := by
    rw [hstep, Heap.updated, hp]
    simp only [Object.updateFault?]
    cases p.update u <;> rfl
  have hbefore := hends _ o ho
  have hafter := hends _ o' ho'
  refine ⟨o', ho', ?_⟩
  dsimp only
  split
  · rename_i hshut
    obtain ⟨hcreates, habsent, hopen, hsealed⟩ := hshut
    have habsent' : o'.attributes.get? name = none := (H.get?_eq hname).trans habsent
    have hown : o.isForeign (some A) = false := by simp [Object.isForeign, hA]
    rw [Object.updateFault?_of_absent hu hcreates habsent, hopen, hown] at hbefore
    rw [Object.updateFault?_of_absent hu hcreates habsent', hsealed] at hafter
    exact ⟨⟨_, Prod.ext (Prod.mk.inj hbefore).1 rfl⟩, _, Prod.ext (Prod.mk.inj hafter).1 rfl⟩
  · rename_i hshut
    have hsame : o'.updateFault? u = o.updateFault? u := by
      refine H.updateFault?_eq hu hname fun hcreates habsent => ?_
      have hsealed := H.sealed
      grind
    rw [hsame, ← hbefore] at hafter
    exact ⟨(Prod.mk.inj hafter).1, (Prod.mk.inj hafter).2⟩

/-- A name that the module has created can be written although the object is sealed by now. -/
theorem own_write_after_meddling :
    halfLoaded.allForeign ⟨0⟩ meanwhile ∧
    ∃ o f, halfLoaded.machine.heap.object? ⟨0⟩ = some o ∧ o.module = some ⟨0⟩ ∧
      f.scope.module = ⟨0⟩ ∧
      f.write? = some (⟨0⟩, "y", .set "y" (.int 5) (some ⟨0⟩)) ∧ o.isExported "y" = false ∧
      (Exec.step.run ⟨(halfLoaded.run meanwhile).machine.heap, f⟩).1 =
        (Exec.step.run ⟨halfLoaded.machine.heap, f⟩).1 := by
  have hforeign : halfLoaded.allForeign ⟨0⟩ meanwhile := by decide +kernel
  have hobject : ∃ o ∈ halfLoaded.machine.heap.object? ⟨0⟩, o.module = some ⟨0⟩ ∧
      o.isExported "y" = false ∧ (o.attributes.get? "y").isSome := by decide +kernel
  have hframe : ∃ fiber ∈ halfLoaded.fiber? ⟨0⟩, ∃ f ∈ fiber.frames.head?,
      f.scope.module = ⟨0⟩ ∧ { f with instruction := 3, stack := [.int 5] }.write? =
        some (⟨0⟩, "y", .set "y" (.int 5) (some ⟨0⟩)) := by decide +kernel
  obtain ⟨o, ho, hmodule, hexported, hsome⟩ := hobject
  obtain ⟨fiber, -, f, -, hf, hwrite⟩ := hframe
  refine ⟨hforeign, o, { f with instruction := 3, stack := [.int 5] }, ho, hmodule, hf, hwrite,
    hexported, ?_⟩
  obtain ⟨o', -, hends⟩ := own_write_of_allForeign hforeign ho hmodule
    (f := { f with instruction := 3, stack := [.int 5] }) hf hwrite hexported
  rw [if_neg fun hshut => nomatch hshut.2.1 ▸ hsome] at hends
  exact hends.1

/--
The module goes on to create a name. It could have done so before the other module was loaded, and
cannot any more.
-/
theorem creation_after_meddling :
    halfLoaded.allForeign ⟨0⟩ meanwhile ∧
    ∃ fiber ∈ (halfLoaded.run meanwhile).fiber? ⟨0⟩, ∃ f ∈ fiber.frames.head?,
      f.scope.module = ⟨0⟩ ∧
      f.write? = some (⟨0⟩, "b", .set "b" (.object ⟨1⟩) (some ⟨0⟩)) ∧
      (∃ o ∈ halfLoaded.machine.heap.object? ⟨0⟩, o.module = some ⟨0⟩ ∧
        o.isExported "b" = false) ∧
      ((Exec.step.run ⟨halfLoaded.machine.heap, f⟩).1 matches .ok .next) ∧
      ((Exec.step.run ⟨(halfLoaded.run meanwhile).machine.heap, f⟩).1 matches
        .error .sealed) := by
  decide +kernel

end World

end FiberMachine
