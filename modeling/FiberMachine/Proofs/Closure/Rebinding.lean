import FiberMachine.Proofs.Closure.Instruction
import FiberMachine.Proofs.Ownership.Object

/-!
# Binding functions to other receivers

A function is bound to another receiver by an instruction (`Exec.rebound_bind`), by its method of
that name (`Machine.rebound_prepareInvoke`) and when it becomes a part of an object literal
(`Exec.rebound_newObject`). Each makes another function with the same body, and so with the same
captured cells in the same order.
-/

namespace FiberMachine

/-- The second function is the first one with another receiver. -/
def Heap.Rebound (h : Heap) (r r' : Ref .function) : Prop :=
  ∃ f f', h.function? r = some f ∧ h.function? r' = some f' ∧ f'.body = f.body

namespace Heap

variable {h h' : Heap} {r r' : Ref .function}

theorem Rebound.mono (H : h.Rebound r r') (hretains : h.Retains h') : h'.Rebound r r' := by
  obtain ⟨f, f', hf, hf', hbody⟩ := H
  exact ⟨f, f', hretains.functions r f hf, hretains.functions r' f' hf', hbody⟩

theorem rebound_newFunction {f : FunctionObject} (hf : h.function? r = some f) (receiver : Value) :
    (h.newFunction (f.bind receiver)).2.Rebound r ⟨h.functions.size⟩ :=
  ⟨f, f.bind receiver, function?_newFunction_of_some hf _, function?_newFunction_self _, rfl⟩

end Heap

theorem Exec.rebound_bind {l l' : Local} {i : Instruction} (hi : i.opcode = .bind)
    (hrun : (instruction i).run l = (.ok .next, l')) :
    ∃ receiver r r' rest, l.frame.stack = receiver :: .function r :: rest ∧
      l'.frame.stack = .function r' :: rest ∧ l'.heap.Rebound r r' := by
  simp only [instruction, hi] at hrun
  cases hstack : l.frame.stack with
  | nil =>
    rw [run_pop_bind_nil _ hstack] at hrun
    cases hrun
  | cons receiver rest =>
    rw [run_pop_bind _ hstack] at hrun
    cases rest with
    | nil =>
      rw [run_pop_bind_nil _ rfl] at hrun
      cases hrun
    | cons callable rest =>
      rw [run_pop_bind _ rfl] at hrun
      cases callable with
      | function r =>
        dsimp only at hrun
        rw [run_heap_bind] at hrun
        cases hf : l.heap.function? r with
        | none =>
          simp only [hf] at hrun
          cases hrun
        | some f =>
          simp only [hf] at hrun
          cases hrun
          exact ⟨receiver, r, _, rest, rfl, rfl, Heap.rebound_newFunction hf receiver⟩
      | _ => cases hrun

theorem Builtin.call_bind {h : Heap} {r : Ref .function} {args : Arguments} {o : Outcome}
    (ho : Builtin.call h (.function r) "bind" args = .ok o) :
    ∃ f receiver, h.function? r = some f ∧ o = .newFunction (f.bind receiver) := by
  have heq : Builtin.call h (.function r) "bind" args = (do
      let receiver ← argument args 0
      return .newFunction ((← found (h.function? r)).bind receiver)) := rfl
  rw [heq] at ho
  cases hreceiver : argument args 0 with
  | error fault =>
    rw [hreceiver] at ho
    cases ho
  | ok receiver =>
    rw [hreceiver] at ho
    cases hf : h.function? r with
    | none =>
      rw [hf] at ho
      cases ho
    | some f =>
      rw [hf] at ho
      cases ho
      exact ⟨f, receiver, rfl, rfl⟩

theorem Machine.rebound_prepareInvoke {m m' : Machine} {r : Ref .function} {args : Arguments}
    {caller : Option ModuleId} {value : Value}
    (h : m.prepareInvoke (.function r) "bind" args caller = (.complete value, m')) :
    ∃ r', value = .function r' ∧ m'.heap.Rebound r r' := by
  simp only [prepareInvoke] at h
  cases ho : Builtin.call m.heap (.function r) "bind" args with
  | error fault =>
    rw [ho] at h
    cases h
  | ok o =>
    obtain ⟨f, receiver, hf, rfl⟩ := Builtin.call_bind ho
    rw [ho] at h
    cases h
    exact ⟨_, rfl, Heap.rebound_newFunction hf receiver⟩

/-! ## Object literals -/

theorem Object.get?_of_set {o o' : Object} {name other : String} {value : Value}
    {caller : Option ModuleId} {a : Attribute} (h : o.set name value caller = .ok o')
    (ha : o'.attributes.get? other = some a) :
    o.attributes.get? other = some a ∨ other = name ∧ a.value = value := by
  unfold Object.set at h
  split at h
  · cases h
  · have hput : ∀ a', o' = o.put name a' → a'.value = value →
        o.attributes.get? other = some a ∨ other = name ∧ a.value = value := by
      rintro a' rfl hvalue
      rw [put, Dict.get?_insert] at ha
      split at ha
      · cases ha
        exact .inr ⟨‹_›, hvalue⟩
      · exact .inl ha
    split at h
    · cases h
      exact hput _ rfl rfl
    · cases h
      exact hput _ rfl rfl

/-- The functions among an object's attributes are those of the fields, with another receiver. -/
def Local.Binds (l : Local) (self : Ref .object) (fields : List (String × Value)) : Prop :=
  ∃ o, l.heap.object? self = some o ∧ ∀ name a r', o.attributes.get? name = some a →
    a.value = .function r' → ∃ r, (name, .function r) ∈ fields ∧ l.heap.Rebound r r'

namespace Exec

variable {l l' : Local} {self : Ref .object}

theorem run_bindField {value bound : Value}
    (hrun : (bindField self value).run l = (.ok bound, l')) :
    l'.frame = l.frame ∧ l'.heap.objects = l.heap.objects ∧
      ∀ r', bound = .function r' → ∃ r, value = .function r ∧ l'.heap.Rebound r r' := by
  cases value with
  | function r =>
    simp only [bindField] at hrun
    rw [run_heap_bind] at hrun
    cases hf : l.heap.function? r with
    | none =>
      rw [hf] at hrun
      cases hrun
    | some f =>
      rw [hf] at hrun
      cases hrun
      refine ⟨rfl, rfl, fun r' hr' => ⟨r, rfl, ?_⟩⟩
      cases hr'
      exact Heap.rebound_newFunction hf _
  | _ =>
    cases hrun
    exact ⟨rfl, rfl, fun r' hr' => by cases hr'⟩

theorem binds_setFields {fields seen : List (String × Value)}
    (hrun : (setFields self fields).run l = (.ok (), l')) (h : l.Binds self seen) :
    l'.frame = l.frame ∧ l'.Binds self (seen ++ fields) := by
  induction fields generalizing l seen with
  | nil =>
    cases hrun
    rw [List.append_nil]
    exact ⟨rfl, h⟩
  | cons field rest ih =>
    obtain ⟨name, value⟩ := field
    obtain ⟨bound, m, hbound, hrun⟩ := run_bind_eq_ok hrun
    obtain ⟨_, m', hupdate, hrun⟩ := run_bind_eq_ok hrun
    obtain ⟨o, ho, hfunctions⟩ := h
    obtain ⟨hframe, hobjects, hrebound⟩ := run_bindField hbound
    have hretains : l.heap.Retains m.heap := by
      have hpart := part_bindField (i := { opcode := .newObject }) self value
      have := (hpart.retains rfl).run l
      rw [hbound] at this
      exact this.heap
    have ho' : m.heap.object? self = some o := by rwa [Heap.object?, hobjects]
    rw [run_update, Heap.updated, ho'] at hupdate
    dsimp only [Object.update] at hupdate
    cases hset : o.set name bound none with
    | error fault =>
      rw [hset] at hupdate
      cases hupdate
    | ok o' =>
      rw [hset] at hupdate
      cases hupdate
      have hbinds : Local.Binds ⟨m.heap.setObject self o', m.frame⟩ self
          (seen ++ [(name, value)]) := by
        refine ⟨o', Heap.object?_setObject_self ho' o', fun other a r' ha hr' => ?_⟩
        rcases Object.get?_of_set hset ha with hold | ⟨rfl, hvalue⟩
        · obtain ⟨r, hmem, hr⟩ := hfunctions other a r' hold hr'
          exact ⟨r, List.mem_append_left _ hmem, hr.mono (hretains.trans (.of_eq rfl rfl))⟩
        · obtain ⟨r, rfl, hr⟩ := hrebound r' (hvalue.symm.trans hr')
          exact ⟨r, List.mem_append_right _ (List.mem_singleton_self _), hr⟩
      obtain ⟨hframe', hbinds'⟩ := ih hrun hbinds
      rw [List.append_assoc] at hbinds'
      exact ⟨hframe'.trans hframe, hbinds'⟩

theorem binds_newObject {args : Arguments} {value : Value}
    (hrun : (newObject args).run l = (.ok value, l')) :
    ∃ self, value = .object self ∧ l'.frame = l.frame ∧ l'.Binds self args.keywords.entries := by
  have hrest : ∀ x : Exec Value, x.run l = (.ok value, l') → x = (do
      let self ← allocate (·.newObject {})
      setFields self args.keywords.entries
      return .object self) →
      ∃ self, value = .object self ∧ l'.frame = l.frame ∧
        l'.Binds self args.keywords.entries := by
    rintro x hx rfl
    obtain ⟨self, m, hself, hx⟩ := run_bind_eq_ok hx
    obtain ⟨_, m', hfields, hx⟩ := run_bind_eq_ok hx
    cases hx
    cases hself
    have hempty : Local.Binds ⟨(l.heap.newObject {}).2, l.frame⟩ ⟨l.heap.objects.size⟩ [] :=
      ⟨{}, Heap.object?_newObject_self _, fun name a r' ha => by cases ha⟩
    exact ⟨_, rfl, binds_setFields hfields hempty⟩
  unfold newObject at hrun
  split at hrun
  · cases hrun
  · exact hrest _ hrun rfl

theorem rebound_newObject {i : Instruction} (hi : i.opcode = .newObject)
    (hrun : (instruction i).run l = (.ok .next, l')) :
    ∃ self args rest, l.frame.args = args :: rest ∧ l'.frame.stack = .object self :: l.frame.stack ∧
      l'.Binds self args.keywords.entries := by
  simp only [instruction, hi] at hrun
  obtain ⟨args, m, htake, hrest⟩ := run_bind_eq_ok hrun
  obtain ⟨value, m', hnew, hpush⟩ := run_bind_eq_ok hrest
  obtain ⟨self, rfl, hframe, hbinds⟩ := binds_newObject hnew
  cases hargs : l.frame.args with
  | nil =>
    rw [takeArgs, run_frame_bind, hargs] at htake
    cases htake
  | cons args' rest =>
    rw [takeArgs, run_frame_bind, hargs] at htake
    cases htake
    cases hpush
    have hstack : m'.frame.stack = l.frame.stack := by rw [hframe]
    exact ⟨self, args, rest, rfl, congrArg _ hstack, hbinds⟩

end Exec

end FiberMachine
