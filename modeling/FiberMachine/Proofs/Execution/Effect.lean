import FiberMachine.Proofs.Execution.Instruction

/-!
# What an instruction adds to the heap, and where it goes

Whom a function executes code for is left open here, as a relation `own` between its module, its
code and its captured cells. An instruction adds no code objects, templates or envelopes to the
heap, and functions only as `own` admits them: rebound ones, and closures of code constants of its
module (`Exec.arrives_step`). It goes on with the next instruction or at its jump target, or stays
where it is until the machine has done the rest.
-/

namespace FiberMachine

/-- What a function that executes code is made of is as `own` admits it. -/
def FunctionObject.Owned (own : Option ModuleId → Code → List (Ref .cell) → Prop)
    (f : FunctionObject) : Prop :=
  ∀ code captures, f.body = .interpreted code captures → own f.module code captures

variable {own : Option ModuleId → Code → List (Ref .cell) → Prop}

theorem FunctionObject.Owned.bind {f : FunctionObject} (h : f.Owned own) (receiver : Value) :
    (f.bind receiver).Owned own := h

theorem FunctionObject.owned_native {f : FunctionObject} {name : String} {routine : Routine}
    (h : f.body = .native name routine) : f.Owned own :=
  fun _ _ hbody => nomatch h.symm.trans hbody

/-! ## Heaps -/

namespace Heap

/-- The functions of the heap are as `own` admits them. -/
def Owned (own : Option ModuleId → Code → List (Ref .cell) → Prop) (h : Heap) : Prop :=
  ∀ f ∈ h.functions, f.Owned own

/-- The second heap has the same code, templates and envelopes, and functions that are admitted. -/
structure Adds (own : Option ModuleId → Code → List (Ref .cell) → Prop) (h h' : Heap) : Prop where
  codes : h'.codes = h.codes
  templates : h'.templates = h.templates
  errors : h'.errors = h.errors
  functions : h.Owned own → h'.Owned own

variable {h h' h'' : Heap}

theorem Adds.refl (h : Heap) : h.Adds own h := ⟨rfl, rfl, rfl, id⟩

theorem Adds.trans (H : h.Adds own h') (H' : h'.Adds own h'') : h.Adds own h'' :=
  ⟨H'.codes.trans H.codes, H'.templates.trans H.templates, H'.errors.trans H.errors,
    fun ho => H'.functions (H.functions ho)⟩

/-- A change of arrays, objects and cells. -/
theorem Adds.of_eq (hc : h'.codes = h.codes) (ht : h'.templates = h.templates)
    (he : h'.errors = h.errors) (hf : h'.functions = h.functions) : h.Adds own h' := by
  refine ⟨hc, ht, he, fun ho f hmem => ho f ?_⟩
  rwa [hf] at hmem

theorem Adds.newFunction {f : FunctionObject} (hf : h.Owned own → f.Owned own) :
    h.Adds own (h.newFunction f).2 := by
  refine ⟨rfl, rfl, rfl, fun ho g hg => ?_⟩
  rcases Array.mem_push.mp hg with hg | rfl
  · exact ho g hg
  · exact hf ho

theorem Owned.of_function? (ho : h.Owned own) {r : Ref .function} {f : FunctionObject}
    (hf : h.function? r = some f) : f.Owned own := ho f (Array.mem_of_getElem? hf)

/-- A function that is in the heap, with another receiver. -/
theorem Adds.rebind {r : Ref .function} {f : FunctionObject} (hf : h.function? r = some f)
    (receiver : Value) : h.Adds own (h.newFunction (f.bind receiver)).2 :=
  .newFunction fun ho => (ho.of_function? hf).bind receiver

theorem Adds.realize {o : Outcome} (hplain : o.isPlain) : h.Adds own (h.realize o).2 := by
  cases o with
  | newFunction f => exact nomatch hplain
  | _ => exact .of_eq rfl rfl rfl rfl

end Heap

/-- The outcome, if there is one, adds to the heap only what `own` admits. -/
def Heap.Realizes (own : Option ModuleId → Code → List (Ref .cell) → Prop) (h : Heap)
    (e : Except Fault Outcome) : Prop :=
  ∀ o, e = .ok o → h.Adds own (h.realize o).2

namespace Heap.Realizes

variable {α : Type} {h : Heap}

theorem error (fault : Fault) : h.Realizes own (.error fault) := fun _ heq => nomatch heq

theorem bind {e : Except Fault α} {next : α → Except Fault Outcome}
    (H : ∀ a, e = .ok a → h.Realizes own (next a)) : h.Realizes own (e >>= next) := by
  cases e with
  | error fault => exact error fault
  | ok a => exact H a rfl

theorem plain {o : Outcome} (ho : o.isPlain) : h.Realizes own (.ok o) := by
  rintro _ ⟨⟩
  exact .realize ho

end Heap.Realizes

theorem Builtin.eq_some_of_found {α : Type} {a? : Option α} {a : α} (h : Builtin.found a? = .ok a) :
    a? = some a := by
  cases a? with
  | none => exact nomatch h
  | some b => exact congrArg some (Except.ok.inj h)

/-- A builtin method adds no function but a rebound one. -/
theorem Builtin.realizes_call (h : Heap) (target : Value) (name : String) (args : Arguments) :
    h.Realizes own (Builtin.call h target name args) := by
  unfold Builtin.call
  split
  · split
    -- the methods of arrays, `push`, `pop`, `get` and `set`
    · exact .bind fun _ _ => .bind fun _ _ => .plain rfl
    · exact .bind fun _ _ => .bind fun _ _ => .plain rfl
    · exact .bind fun _ _ => .bind fun _ _ => .bind fun _ _ => .plain rfl
    · exact .bind fun _ _ => .bind fun _ _ => .bind fun _ _ => .bind fun _ _ => .plain rfl
    -- `concat` of strings and `bind` of functions
    · exact .bind fun _ _ => .plain rfl
    · refine .bind fun receiver _ => .bind fun f hf => ?_
      rintro _ ⟨⟩
      exact .rebind (eq_some_of_found hf) receiver
    · dsimp only
      split
      · exact .error _
      · split
        · exact .error _
        · exact .bind fun _ _ => .plain rfl
  · exact .error _

/-! ## Parts of instructions -/

/-- The closures of code constants of the frame's module are admitted. -/
def Local.Closes (own : Option ModuleId → Code → List (Ref .cell) → Prop) (l : Local) : Prop :=
  ∀ r code captures, .code r ∈ l.frame.scope.constants → l.heap.code? r = some code →
    captures.length = code.captures.length → own (some l.frame.scope.module) code captures

/-- What an instruction may do before it goes on. -/
structure Local.Leads (own : Option ModuleId → Code → List (Ref .cell) → Prop) (l l' : Local) :
    Prop where
  scope : l'.frame.scope = l.frame.scope
  instruction : l'.frame.instruction = l.frame.instruction
  heap : l.heap.Adds own l'.heap

namespace Local.Leads

variable {l l' l'' : Local}

theorem refl (l : Local) : l.Leads own l := ⟨rfl, rfl, .refl l.heap⟩

theorem trans (H : l.Leads own l') (H' : l'.Leads own l'') : l.Leads own l'' :=
  ⟨H'.scope.trans H.scope, H'.instruction.trans H.instruction, H.heap.trans H'.heap⟩

theorem closes (H : l.Leads own l') (h : l.Closes own) : l'.Closes own := by
  intro r code captures hr hcode hlength
  rw [H.scope] at hr ⊢
  rw [Heap.code?, H.heap.codes] at hcode
  exact h r code captures hr hcode hlength

end Local.Leads

namespace Exec

variable {α : Type} {i : Instruction} {l : Local}

theorem run_name_bind {l : Local} {i : Nat} {value : Value} {s : String} (next : String → Exec α)
    (hvalue : l.frame.scope.constants[i]? = some value) (hs : value.asString? = some s) :
    (name i >>= next).run l = (next s).run l := by
  rw [name, constant, bind_assoc, bind_assoc, run_frame_bind, hvalue]
  simp only [orElseFault, pure_bind, hs]

theorem run_pop_bind {l : Local} {value : Value} {rest : List Value} (next : Value → Exec α)
    (h : l.frame.stack = value :: rest) :
    (pop >>= next).run l = (next value).run ⟨l.heap, { l.frame with stack := rest }⟩ := by
  rw [pop, bind_assoc, run_frame_bind, h]
  rfl

theorem run_pop_bind_nil {l : Local} (next : Value → Exec α) (h : l.frame.stack = []) :
    (pop >>= next).run l = (.error .invalidInstruction, l) := by
  rw [pop, bind_assoc, run_frame_bind, h]
  rfl

/-- There is a cell for every entry of the capture list. -/
theorem length_captured {captures : List Capture} {l l' : Local} {cells : List (Ref .cell)}
    (h : (captured captures).run l = (.ok cells, l')) : cells.length = captures.length := by
  induction captures generalizing l cells with
  | nil =>
    cases h
    rfl
  | cons c rest ih =>
    have hbind : ∃ cell m,
        (do return cell :: (← captured rest) : Exec _).run m = (.ok cells, l') := by
      cases c with
      | slot i | outer i =>
        rw [captured] at h
        obtain ⟨cell, m, _, hnext⟩ := run_bind_eq_ok h
        exact ⟨cell, m, hnext⟩
    obtain ⟨cell, m, hnext⟩ := hbind
    obtain ⟨others, m', hrest, hpure⟩ := run_bind_eq_ok hnext
    cases hpure
    rw [List.length_cons, ih hrest, List.length_cons]

/-- A closure has the cells of its code's capture list. -/
theorem leads_makeFunction (j : Nat) (hl : l.Closes own)
    (H : ∀ captures, l.Leads own ((captured captures).run l).2) :
    l.Leads own ((makeFunction j).run l).2 := by
  rcases run_makeFunction j l with ⟨fault, heq⟩ | ⟨r, code, hj, hcode, heq⟩ <;> rw [heq]
  · exact .refl l
  · have hcaptured := H code.captures
    rcases hrun : (captured code.captures).run l with ⟨_ | captures, m⟩ <;> rw [hrun] at hcaptured
    · exact hcaptured
    · refine hcaptured.trans ⟨rfl, rfl, .newFunction fun _ code' captures' hbody => ?_⟩
      cases hbody
      rw [hcaptured.scope]
      exact hl r code captures (Array.mem_of_getElem? hj) hcode (length_captured hrun)

theorem leads_update (r : Ref .object) (u : Object.Update) (l : Local) :
    l.Leads own ((update r u).run l).2 := by
  rw [run_update]
  cases l.heap.updated r u with
  | error fault => exact .refl l
  | ok o => exact ⟨rfl, rfl, .of_eq rfl rfl rfl rfl⟩

/-- A part of an instruction stays where it is, and adds what it may to the heap. -/
theorem Part.leads {x : Exec α} (H : Part i x) (hl : l.Closes own) :
    l.Leads own (x.run l).2 := by
  induction H generalizing l with
  | pure a => exact .refl l
  | throw fault => exact .refl l
  | @bind _ _ x next _ _ ih ih' =>
    rw [run_bind]
    have hx := ih hl
    rcases hr : x.run l with ⟨_ | a, l'⟩ <;> rw [hr] at hx
    · exact hx
    · exact hx.trans (ih' a (hx.closes hl))
  | frame => exact .refl l
  | heap => exact .refl l
  | @modifyFrame f h =>
    obtain ⟨slots, stack, args, heq⟩ := h l.frame
    have hrun : ((Exec.modifyFrame f).run l).2 = ⟨l.heap, f l.frame⟩ := rfl
    rw [hrun, heq]
    exact ⟨rfl, rfl, .refl l.heap⟩
  | setArray r s => exact ⟨rfl, rfl, .of_eq rfl rfl rfl rfl⟩
  | newArray s => exact ⟨rfl, rfl, .of_eq rfl rfl rfl rfl⟩
  | newObject => exact ⟨rfl, rfl, .of_eq rfl rfl rfl rfl⟩
  | realize ho => exact ⟨rfl, rfl, .realize ho⟩
  | rebind r receiver =>
    rw [run_rebind]
    cases hf : l.heap.function? r with
    | none => exact .refl l
    | some f => exact ⟨rfl, rfl, .rebind hf receiver⟩
  | update r _ => exact leads_update r _ l
  | updateOwn r _ => exact leads_update r _ l
  | newCell value _ => exact ⟨rfl, rfl, .of_eq rfl rfl rfl rfl⟩
  | setCell slot cell _ => exact ⟨rfl, rfl, .refl l.heap⟩
  | storeCell cell value _ => exact ⟨rfl, rfl, .of_eq rfl rfl rfl rfl⟩
  | makeFunction j _ _ ih => exact leads_makeFunction j hl fun captures => ih captures hl

/-! ## Instructions -/

/--
Where a whole instruction leads with its result: to the next instruction or one of `targets` if the
frame goes on, and where it was otherwise.
-/
structure Arrives (own : Option ModuleId → Code → List (Ref .cell) → Prop) (targets : List Nat)
    (l : Local) (result : Except Fault Action) (l' : Local) : Prop where
  scope : l'.frame.scope = l.frame.scope
  heap : l.heap.Adds own l'.heap
  instruction : match result with
    | .ok .next => l'.frame.instruction = l.frame.instruction + 1 ∨ l'.frame.instruction ∈ targets
    | _ => l'.frame.instruction = l.frame.instruction

theorem Arrives.after {targets : List Nat} {l l' l'' : Local} {result : Except Fault Action}
    (H' : Arrives own targets l' result l'') (H : l.Leads own l') :
    Arrives own targets l result l'' :=
  ⟨H'.scope.trans H.scope, H.heap.trans H'.heap, H.instruction ▸ H'.instruction⟩

theorem Whole.arrives {x : Exec Action} (H : Whole i x) (hl : l.Closes own) :
    Arrives own i.targets l (x.run l).1 (x.run l).2 := by
  induction H generalizing l with
  | @bind _ x next hpart _ ih =>
    rw [run_bind]
    have hx := hpart.leads hl
    rcases hr : x.run l with ⟨_ | a, l'⟩ <;> rw [hr] at hx
    · exact ⟨hx.scope, hx.heap, hx.instruction⟩
    · exact (ih a (hx.closes hl)).after hx
  | next => exact ⟨rfl, .refl l.heap, .inl rfl⟩
  | jump htarget => exact ⟨rfl, .refl l.heap, .inr htarget⟩
  | @act action hnext _ =>
    refine ⟨rfl, .refl l.heap, ?_⟩
    cases action with
    | next => exact absurd rfl hnext
    | _ => rfl
  | throw fault => exact ⟨rfl, .refl l.heap, rfl⟩

/-- What an instruction adds to the heap and where it leads. -/
theorem arrives_step (hl : l.Closes own)
    (hi : l.frame.code.instructions[l.frame.instruction]? = some i) :
    Arrives own i.targets l (step.run l).1 (step.run l).2 := by
  rw [step_of_some hi]
  exact (whole_instruction i).arrives hl

theorem adds_step (hl : l.Closes own) :
    (step.run l).2.frame.scope = l.frame.scope ∧ l.heap.Adds own (step.run l).2.heap := by
  cases hi : l.frame.code.instructions[l.frame.instruction]? with
  | none =>
    rw [step_of_none hi]
    exact ⟨rfl, .refl l.heap⟩
  | some i => exact ⟨(arrives_step hl hi).scope, (arrives_step hl hi).heap⟩

end Exec

end FiberMachine
