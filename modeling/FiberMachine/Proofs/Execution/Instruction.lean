import FiberMachine.Proofs.Execution.Parts

/-!
# What an instruction does to its frame

An instruction never changes which activation its frame is (`Exec.keeps_step`): the code, the scope,
the captured cells, the pending error and the continuation stay. Calls and operators may hand a call
to the machine. They leave the frame as it was without the operands and the argument vector that
they took (`Exec.step_call`).
-/

namespace FiberMachine

/-- The two frames are the same activation at possibly different points of its execution. -/
structure Frame.SameActivation (f g : Frame) : Prop where
  code : g.code = f.code
  scope : g.scope = f.scope
  captures : g.captures = f.captures
  pending : g.pending = f.pending
  continuation : g.continuation = f.continuation

namespace Frame.SameActivation

variable {f g h : Frame}

theorem refl (f : Frame) : f.SameActivation f := ⟨rfl, rfl, rfl, rfl, rfl⟩

theorem trans (H : f.SameActivation g) (H' : g.SameActivation h) : f.SameActivation h :=
  ⟨H'.code.trans H.code, H'.scope.trans H.scope, H'.captures.trans H.captures,
    H'.pending.trans H.pending, H'.continuation.trans H.continuation⟩

end Frame.SameActivation

namespace Exec

variable {α β : Type}

/-- The computation leaves the frame the same activation, whether it faults or not. -/
structure Keeps (x : Exec α) : Prop where
  same (l : Local) : l.frame.SameActivation (x.run l).2.frame

variable {i : Instruction}

theorem Keeps.bind {x : Exec α} {next : α → Exec β} (H : Keeps x) (H' : ∀ a, Keeps (next a)) :
    Keeps (x >>= next) := by
  refine ⟨fun l => ?_⟩
  rw [run_bind]
  have hx := H.same l
  rcases hr : x.run l with ⟨_ | a, l'⟩ <;> rw [hr] at hx
  · exact hx
  · exact hx.trans ((H' a).same l')

/-- A computation that leaves the frame as it is. -/
theorem Keeps.of_frame {x : Exec α} (h : ∀ l, (x.run l).2.frame = l.frame) : Keeps x :=
  ⟨fun l => (h l).symm ▸ .refl l.frame⟩

theorem keeps_update (r : Ref .object) (u : Object.Update) : Keeps (update r u) := by
  refine .of_frame fun l => ?_
  rw [run_update]
  cases l.heap.updated r u <;> rfl

theorem Part.keeps {x : Exec α} (H : Part i x) : Keeps x := by
  induction H with
  | pure a => exact .of_frame fun _ => rfl
  | throw fault => exact .of_frame fun _ => rfl
  | bind _ _ ih ih' => exact ih.bind ih'
  | frame => exact .of_frame fun _ => rfl
  | heap => exact .of_frame fun _ => rfl
  | @modifyFrame f h =>
    refine ⟨fun l => ?_⟩
    obtain ⟨slots, stack, args, heq⟩ := h l.frame
    have hrun : ((Exec.modifyFrame f).run l).2.frame = f l.frame := rfl
    rw [hrun, heq]
    exact ⟨rfl, rfl, rfl, rfl, rfl⟩
  | setArray r s => exact .of_frame fun _ => rfl
  | newArray s => exact .of_frame fun _ => rfl
  | newObject => exact .of_frame fun _ => rfl
  | realize _ => exact .of_frame fun _ => rfl
  | rebind r receiver =>
    refine .of_frame fun l => ?_
    rw [run_rebind]
    cases l.heap.function? r <;> rfl
  | update r _ => exact keeps_update r _
  | updateOwn r _ => exact ⟨fun l => (keeps_update r _).same l⟩
  | newCell value _ => exact .of_frame fun _ => rfl
  | setCell slot cell _ => exact ⟨fun _ => ⟨rfl, rfl, rfl, rfl, rfl⟩⟩
  | storeCell cell value _ => exact .of_frame fun _ => rfl
  | makeFunction j _ _ ih =>
    refine ⟨fun l => ?_⟩
    rcases run_makeFunction j l with ⟨fault, heq⟩ | ⟨r, code, -, -, heq⟩ <;> rw [heq]
    · exact .refl l.frame
    · have hcaptured := (ih code.captures).same l
      rcases hr : (captured code.captures).run l with ⟨_ | captures, m⟩ <;> rw [hr] at hcaptured <;>
        exact hcaptured

theorem Whole.keeps {x : Exec Action} (H : Whole i x) : Keeps x := by
  induction H with
  | bind hpart _ ih => exact hpart.keeps.bind ih
  | next => exact ⟨fun _ => ⟨rfl, rfl, rfl, rfl, rfl⟩⟩
  | jump _ => exact ⟨fun _ => ⟨rfl, rfl, rfl, rfl, rfl⟩⟩
  | act _ _ => exact .of_frame fun _ => rfl
  | throw fault => exact .of_frame fun _ => rfl

/-- An instruction leaves its frame the same activation. -/
theorem keeps_step : Keeps step := by
  refine ⟨fun l => ?_⟩
  cases hi : l.frame.code.instructions[l.frame.instruction]? with
  | some i =>
    rw [step_of_some hi]
    exact (whole_instruction i).keeps.same l
  | none =>
    rw [step_of_none hi]
    exact .refl l.frame

end Exec

/-! ## Calls -/

theorem Opcode.operands_pos {opcode : Opcode} {operands vectors : Nat}
    (h : opcode.taken? = some (operands, vectors)) : 0 < operands := by
  cases opcode <;> cases h <;> decide

/-- The frame without some of its operands and argument vectors. -/
def Frame.without (f : Frame) (operands vectors : Nat) : Frame :=
  { f with stack := f.stack.drop operands, args := f.args.drop vectors }

/-- A call leaves `g` of `f`: what was there without what the current instruction takes. -/
def Frame.CallLeaves (f g : Frame) : Prop :=
  ∃ i operands vectors, f.code.instructions[f.instruction]? = some i ∧
    i.opcode.taken? = some (operands, vectors) ∧
    (operands ≤ f.stack.length ∧ vectors ≤ f.args.length) ∧ g = f.without operands vectors

namespace Exec

variable {α : Type} {operands operands' vectors vectors' : Nat}

/-- The computation takes from the frame what it says and does nothing else to it. -/
structure Takes (operands vectors : Nat) (x : Exec α) : Prop where
  frame (l : Local) (a : α) (l' : Local) : x.run l = (.ok a, l') →
    l'.frame = l.frame.without operands vectors ∧
      operands ≤ l.frame.stack.length ∧ vectors ≤ l.frame.args.length

/-- The computation does not end with a call. -/
structure Callless (x : Exec Action) : Prop where
  isCall (l : Local) (action : Action) (l' : Local) :
    x.run l = (.ok action, l') → action.isCall = false

/-- The computation, if it ends with a call, takes from the frame what it says. -/
structure CallTakes (operands vectors : Nat) (x : Exec Action) : Prop where
  frame (l : Local) (action : Action) (l' : Local) : x.run l = (.ok action, l') → action.isCall →
    l'.frame = l.frame.without operands vectors ∧
      operands ≤ l.frame.stack.length ∧ vectors ≤ l.frame.args.length

theorem run_bind_eq_ok {β : Type} {x : Exec α} {next : α → Exec β} {l l' : Local} {b : β}
    (h : (x >>= next).run l = (.ok b, l')) :
    ∃ a m, x.run l = (.ok a, m) ∧ (next a).run m = (.ok b, l') := by
  rw [run_bind] at h
  rcases hx : x.run l with ⟨_ | a, m⟩ <;> rw [hx] at h
  · exact nomatch h
  · exact ⟨a, m, rfl, h⟩

theorem Takes.pure (a : α) : Takes 0 0 (Pure.pure a : Exec α) := by
  refine ⟨fun l b l' h => ?_⟩
  cases h
  exact ⟨rfl, Nat.zero_le _, Nat.zero_le _⟩

/-- What is taken adds up. -/
theorem without_without {f g h : Frame} (hg : g = f.without operands vectors)
    (hs : operands ≤ f.stack.length ∧ vectors ≤ f.args.length)
    (hh : h = g.without operands' vectors')
    (hs' : operands' ≤ g.stack.length ∧ vectors' ≤ g.args.length) :
    h = f.without (operands + operands') (vectors + vectors') ∧
      operands + operands' ≤ f.stack.length ∧ vectors + vectors' ≤ f.args.length := by
  subst hg hh
  simp only [Frame.without, List.length_drop] at hs'
  refine ⟨?_, by omega, by omega⟩
  simp only [Frame.without, List.drop_drop]

theorem Takes.bind {β : Type} {x : Exec α} {next : α → Exec β} (H : Takes operands vectors x)
    (H' : ∀ a, Takes operands' vectors' (next a)) :
    Takes (operands + operands') (vectors + vectors') (x >>= next) := by
  refine ⟨fun l b l' h => ?_⟩
  obtain ⟨a, m, hx, hnext⟩ := run_bind_eq_ok h
  obtain ⟨hm, hsm⟩ := H.frame l a m hx
  obtain ⟨hl, hsl⟩ := (H' a).frame m b l' hnext
  exact without_without hm hsm hl hsl

theorem CallTakes.bind {x : Exec α} {next : α → Exec Action} (H : Takes operands vectors x)
    (H' : ∀ a, CallTakes operands' vectors' (next a)) :
    CallTakes (operands + operands') (vectors + vectors') (x >>= next) := by
  refine ⟨fun l action l' h hcall => ?_⟩
  obtain ⟨a, m, hx, hnext⟩ := run_bind_eq_ok h
  obtain ⟨hm, hsm⟩ := H.frame l a m hx
  obtain ⟨hl, hsl⟩ := (H' a).frame m action l' hnext hcall
  exact without_without hm hsm hl hsl

theorem CallTakes.pure (action : Action) : CallTakes 0 0 (Pure.pure action) :=
  ⟨fun l _ l' h _ => (Takes.pure action).frame l _ l' h⟩

theorem Callless.callTakes {x : Exec Action} (H : Callless x) : CallTakes operands vectors x :=
  ⟨fun l action l' h hcall => nomatch (H.isCall l action l' h).symm.trans hcall⟩

theorem Callless.bind {x : Exec α} {next : α → Exec Action} (H : ∀ a, Callless (next a)) :
    Callless (x >>= next) := by
  refine ⟨fun l action l' h => ?_⟩
  obtain ⟨a, m, _, hnext⟩ := run_bind_eq_ok h
  exact (H a).isCall m action l' hnext

theorem Callless.pure {action : Action} (h : action.isCall = false) : Callless (Pure.pure action) :=
  ⟨fun _ _ _ heq => by cases heq; exact h⟩

theorem Callless.throw (fault : Fault) : Callless (throw fault) := ⟨fun _ _ _ h => nomatch h⟩

theorem callless_next : Callless next := .bind fun _ => .pure rfl

theorem takes_pop : Takes 1 0 pop := by
  refine ⟨fun l value l' h => ?_⟩
  obtain ⟨f, m, hf, h⟩ := run_bind_eq_ok h
  cases hf
  cases hs : l.frame.stack with
  | nil =>
    simp only [hs] at h
    exact nomatch h
  | cons top rest =>
    simp only [hs] at h
    cases h
    refine ⟨?_, Nat.le_add_left 1 rest.length, Nat.zero_le _⟩
    simp [Frame.without, hs]

theorem takes_takeArgs : Takes 0 1 takeArgs := by
  refine ⟨fun l args l' h => ?_⟩
  obtain ⟨f, m, hf, h⟩ := run_bind_eq_ok h
  cases hf
  cases hs : l.frame.args with
  | nil =>
    simp only [hs] at h
    exact nomatch h
  | cons top rest =>
    simp only [hs] at h
    cases h
    refine ⟨?_, Nat.zero_le _, Nat.le_add_left 1 rest.length⟩
    simp [Frame.without, hs]

theorem takes_heap : Takes 0 0 heap := ⟨fun l a l' h => (Takes.pure l.heap).frame l a l' h⟩

theorem takes_frame : Takes 0 0 frame := ⟨fun l a l' h => (Takes.pure l.frame).frame l a l' h⟩

theorem takes_orElseFault (fault : Fault) (a? : Option α) : Takes 0 0 (orElseFault fault a?) := by
  cases a? with
  | none => exact ⟨fun _ _ _ h => nomatch h⟩
  | some a => exact .pure a

theorem takes_name (i : Nat) : Takes 0 0 (name i) :=
  (takes_frame.bind fun _ => takes_orElseFault ..).bind fun _ => takes_orElseFault ..

theorem takes_overload? (operand : Value) (name : String) : Takes 0 0 (overload? operand name) := by
  cases operand with
  | object r => exact takes_heap.bind fun _ => (takes_orElseFault ..).bind fun _ => .pure _
  | _ => exact .pure _

theorem CallTakes.after_pop {next : Value → Exec Action}
    (H : ∀ value, CallTakes operands vectors (next value)) :
    CallTakes (operands + 1) vectors (pop >>= next) := by
  have := CallTakes.bind takes_pop H
  rwa [Nat.add_comm, Nat.zero_add] at this

theorem CallTakes.after_takeArgs {next : Arguments → Exec Action}
    (H : ∀ args, CallTakes operands vectors (next args)) :
    CallTakes operands (vectors + 1) (takeArgs >>= next) := by
  have := CallTakes.bind takes_takeArgs H
  rwa [Nat.zero_add, Nat.add_comm] at this

theorem CallTakes.after {x : Exec α} {next : α → Exec Action} (H : Takes 0 0 x)
    (H' : ∀ a, CallTakes operands vectors (next a)) : CallTakes operands vectors (x >>= next) := by
  have := CallTakes.bind H H'
  rwa [Nat.zero_add, Nat.zero_add] at this

theorem callTakes_binary (op : BinaryOperator) : CallTakes 2 0 (binary op) := by
  refine .after_pop fun right => .after_pop fun left =>
    .after (takes_overload? ..) fun overload => ?_
  cases overload with
  | some overload => exact .pure _
  | none =>
    exact (Callless.bind fun _ => .bind fun _ => .bind fun _ => .bind fun _ =>
      callless_next).callTakes

theorem callTakes_unary (op : UnaryOperator) : CallTakes 1 0 (unary op) := by
  refine .after_pop fun operand => .after (takes_overload? ..) fun overload => ?_
  cases overload with
  | some overload => exact .pure _
  | none => exact (Callless.bind fun _ => .bind fun _ => callless_next).callTakes

/-- Only calls and operators call something. -/
theorem Whole.callless {i : Instruction} (h : i.opcode.taken? = none) {x : Exec Action}
    (H : Whole i x) : Callless x := by
  induction H with
  | bind _ _ ih => exact .bind ih
  | next => exact callless_next
  | jump _ => exact .bind fun _ => .pure rfl
  | @act action _ hcall =>
    refine .pure (Bool.eq_false_iff.mpr fun hisCall => ?_)
    have hsome := hcall hisCall
    rw [h] at hsome
    cases hsome
  | throw fault => exact .throw fault

theorem callTakes_instruction (i : Instruction) (h : i.opcode.taken? = some (operands, vectors)) :
    CallTakes operands vectors (instruction i) := by
  obtain ⟨opcode, operand, handler, range⟩ := i
  cases opcode <;> cases h
  case call =>
    exact .after_pop fun _ => .after_pop fun _ => .after_takeArgs fun _ => .pure _
  case invoke =>
    exact .after (takes_name _) fun _ => .after_pop fun _ => .after_takeArgs fun _ => .pure _
  case negate | not => exact callTakes_unary _
  all_goals exact callTakes_binary _

theorem step_call {l l' : Local} {action : Action} (h : step.run l = (.ok action, l'))
    (hcall : action.isCall) : l.frame.CallLeaves l'.frame := by
  obtain ⟨f, m, hf, h⟩ := run_bind_eq_ok h
  cases hf
  cases hi : l.frame.code.instructions[l.frame.instruction]? with
  | none =>
    simp only [hi] at h
    cases h
    exact nomatch hcall
  | some i =>
    simp only [hi] at h
    cases htaken : i.opcode.taken? with
    | none =>
      have hcallless := ((whole_instruction i).callless htaken).isCall l action l' h
      rw [hcallless] at hcall
      cases hcall
    | some taken =>
      obtain ⟨hframe, hs⟩ := (callTakes_instruction i htaken).frame l action l' h hcall
      exact ⟨i, taken.1, taken.2, hi, htaken, hs, hframe⟩

end Exec

end FiberMachine
