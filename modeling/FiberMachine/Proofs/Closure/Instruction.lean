import FiberMachine.Proofs.Execution.Effect

/-!
# What an instruction does to cells

Most instructions neither make nor change a cell, nor the cells of their frame's slots, and the only
functions they add are rebound ones (`Exec.Whole.retains`). The five that do more are told
apart by `Local.Weaves`, which says everything that executing an instruction does to cells and to
what functions have captured (`Exec.weaves_step`).
-/

namespace FiberMachine

/-- The cells that a function captured. -/
def FunctionObject.captures (f : FunctionObject) : List (Ref .cell) :=
  match f.body with
  | .interpreted _ captures => captures
  | .native .. => []

/-- The cell that a capture stands for in a frame. -/
def Frame.resolve? (f : Frame) : Capture → Option (Ref .cell)
  | .slot i => f.cell? i.toNat
  | .outer i => f.captures[i.toNat]?

theorem Frame.cell?_setCell (f : Frame) (i j : Nat) (cell : Ref .cell) :
    (f.setCell i cell).cell? j = if j = i then some cell else f.cell? j := by
  simp only [cell?, setCell, grow, Array.getD_eq_getD_getElem?]
  split <;> grind

/-! ## Heaps -/

namespace Heap

variable {h h' h'' : Heap}

theorem function?_newFunction (f : FunctionObject) (r : Ref .function) :
    (h.newFunction f).2.function? r =
      if r.index = h.functions.size then some f else h.function? r :=
  Array.getElem?_push ..

theorem function?_newFunction_self (f : FunctionObject) :
    (h.newFunction f).2.function? ⟨h.functions.size⟩ = some f := by
  simp [function?_newFunction]

/-- A function stays what it is when another one is made. -/
theorem function?_newFunction_of_some {r : Ref .function} {g : FunctionObject}
    (hg : h.function? r = some g) (f : FunctionObject) :
    (h.newFunction f).2.function? r = some g := by
  rw [function?_newFunction, if_neg, hg]
  exact Nat.ne_of_lt (Array.getElem?_eq_some_iff.mp hg).1

theorem cell?_newCell (v : Value) (cell : Ref .cell) :
    (h.newCell v).2.cell? cell = if cell.index = h.cells.size then some v else h.cell? cell :=
  Array.getElem?_push ..

theorem cell?_size : h.cell? ⟨h.cells.size⟩ = none := by simp [cell?]

theorem cell?_setCell (cell other : Ref .cell) (v : Value) :
    (h.setCell cell v).cell? other =
      if other = cell then (h.cell? cell).map fun _ => v else h.cell? other := by
  obtain ⟨i⟩ := cell
  obtain ⟨j⟩ := other
  simp only [setCell, cell?, Ref.mk.injEq]
  grind

/-- The cells are those of a function in the heap, or there are none. -/
def Captured (h : Heap) (cells : List (Ref .cell)) : Prop :=
  cells = [] ∨ ∃ r f, h.function? r = some f ∧ f.captures = cells

/-- No cell is made or changed, and functions are added only with cells that one has captured. -/
structure Retains (h h' : Heap) : Prop where
  cells : h'.cells = h.cells
  functions : ∀ r f, h.function? r = some f → h'.function? r = some f
  origin : ∀ r f, h'.function? r = some f → h.Captured f.captures

namespace Retains

theorem of_eq (hcells : h'.cells = h.cells) (hfunctions : h'.functions = h.functions) :
    h.Retains h' := by
  have heq : ∀ r, h'.function? r = h.function? r := fun r => by
    rw [function?, function?, hfunctions]
  exact ⟨hcells, fun r f hf => (heq r).trans hf,
    fun r f hf => .inr ⟨r, f, (heq r).symm.trans hf, rfl⟩⟩

theorem refl (h : Heap) : h.Retains h := of_eq rfl rfl

theorem trans (H : h.Retains h') (H' : h'.Retains h'') : h.Retains h'' := by
  refine ⟨H'.cells.trans H.cells, fun r f hf => H'.functions r f (H.functions r f hf), ?_⟩
  intro r f hf
  rcases H'.origin r f hf with hnil | ⟨r', f', hf', hcaptures⟩
  · exact .inl hnil
  · rw [← hcaptures]
    exact H.origin r' f' hf'

theorem newFunction {f : FunctionObject} (hf : h.Captured f.captures) :
    h.Retains (h.newFunction f).2 := by
  refine ⟨rfl, fun r g hg => function?_newFunction_of_some hg f, fun r g hg => ?_⟩
  rw [function?_newFunction] at hg
  split at hg
  · cases hg
    exact hf
  · exact .inr ⟨r, g, hg, rfl⟩

/-- A function that is in the heap, with another receiver. -/
theorem rebind {r : Ref .function} {f : FunctionObject} (hf : h.function? r = some f)
    (receiver : Value) : h.Retains (h.newFunction (f.bind receiver)).2 :=
  newFunction (.inr ⟨r, f, hf, rfl⟩)

theorem realize {o : Outcome} (hplain : o.isPlain) : h.Retains (h.realize o).2 := by
  cases o with
  | newFunction f => cases hplain
  | _ => exact of_eq rfl rfl

end Retains

end Heap

/-! ## Instructions that leave cells alone -/

/-- No cell takes part in what leads from the first state to the second. -/
structure Local.Retains (l l' : Local) : Prop where
  heap : l.heap.Retains l'.heap
  cells : l'.frame.cells = l.frame.cells

namespace Local.Retains

variable {l l' l'' : Local}

theorem refl (l : Local) : l.Retains l := ⟨.refl l.heap, rfl⟩

theorem trans (H : l.Retains l') (H' : l'.Retains l'') : l.Retains l'' :=
  ⟨H.heap.trans H'.heap, H'.cells.trans H.cells⟩

end Local.Retains

namespace Exec

variable {α β : Type}

/-- The computation leaves cells alone, whether it faults or not. -/
structure Retains (x : Exec α) : Prop where
  run (l : Local) : l.Retains (x.run l).2

variable {i : Instruction}

theorem Retains.bind {x : Exec α} {next : α → Exec β} (H : Retains x)
    (H' : ∀ a, Retains (next a)) : Retains (x >>= next) := by
  refine ⟨fun l => ?_⟩
  rw [run_bind]
  have hx := H.run l
  rcases hr : x.run l with ⟨_ | a, l'⟩ <;> rw [hr] at hx
  · exact hx
  · exact hx.trans ((H' a).run l')

theorem retains_update (r : Ref .object) (u : Object.Update) (l : Local) :
    l.Retains ((update r u).run l).2 := by
  rw [run_update]
  cases l.heap.updated r u with
  | error fault => exact .refl l
  | ok o => exact ⟨.of_eq rfl rfl, rfl⟩

/-- The parts of an instruction that leaves cells alone. -/
theorem Part.retains (hi : i.opcode.weaves = false) {x : Exec α} (H : Part i x) : Retains x := by
  have never {p : Prop} (hw : i.opcode.weaves) : p := by
    rw [hi] at hw
    cases hw
  induction H with
  | pure a => exact ⟨fun l => .refl l⟩
  | throw fault => exact ⟨fun l => .refl l⟩
  | bind _ _ ih ih' => exact ih.bind ih'
  | frame => exact ⟨fun l => .refl l⟩
  | heap => exact ⟨fun l => .refl l⟩
  | @modifyFrame f h =>
    refine ⟨fun l => ⟨.refl l.heap, ?_⟩⟩
    obtain ⟨slots, stack, args, heq⟩ := h l.frame
    have hrun : ((Exec.modifyFrame f).run l).2.frame = f l.frame := rfl
    rw [hrun, heq]
  | setArray r s => exact ⟨fun _ => ⟨.of_eq rfl rfl, rfl⟩⟩
  | newArray s => exact ⟨fun _ => ⟨.of_eq rfl rfl, rfl⟩⟩
  | newObject => exact ⟨fun _ => ⟨.of_eq rfl rfl, rfl⟩⟩
  | realize ho => exact ⟨fun _ => ⟨.realize ho, rfl⟩⟩
  | rebind r receiver =>
    refine ⟨fun l => ?_⟩
    rw [run_rebind]
    cases hf : l.heap.function? r with
    | none => exact .refl l
    | some f => exact ⟨.rebind hf receiver, rfl⟩
  | update r _ => exact ⟨retains_update r _⟩
  | updateOwn r _ => exact ⟨fun l => retains_update r _ l⟩
  | newCell value hw => exact never hw
  | setCell slot cell hw => exact never hw
  | storeCell cell value hw => exact never hw
  | makeFunction j hw _ _ => exact never hw

theorem Whole.retains (hi : i.opcode.weaves = false) {x : Exec Action} (H : Whole i x) :
    Retains x := by
  induction H with
  | bind hpart _ ih => exact (hpart.retains hi).bind ih
  | next => exact ⟨fun l => ⟨.refl l.heap, rfl⟩⟩
  | jump _ => exact ⟨fun l => ⟨.refl l.heap, rfl⟩⟩
  | act _ _ => exact ⟨fun l => .refl l⟩
  | throw fault => exact ⟨fun l => .refl l⟩

end Exec

/-! ## Cells that are made on first use -/

/-- Some of the given slots that had no cell have got a new one, which holds the slot's value. -/
structure Local.Opens (slots : Nat → Prop) (l l' : Local) : Prop where
  frame : l'.frame = { l.frame with cells := l'.frame.cells }
  heap : l'.heap = { l.heap with cells := l'.heap.cells }
  contents : ∀ cell v, l.heap.cell? cell = some v → l'.heap.cell? cell = some v
  kept : ∀ s cell, l.frame.cell? s = some cell → l'.frame.cell? s = some cell
  opened : ∀ s cell, l'.frame.cell? s = some cell → l.frame.cell? s = some cell ∨
    slots s ∧ l.frame.cell? s = none ∧ l.heap.cell? cell = none ∧
      l'.heap.cell? cell = some (l.frame.slot s)

namespace Local.Opens

variable {l l' l'' : Local} {slots slots' : Nat → Prop}

theorem refl (l : Local) : l.Opens slots l :=
  ⟨rfl, rfl, fun _ _ h => h, fun _ _ h => h, fun _ _ h => .inl h⟩

theorem mono (H : l.Opens slots l') (h : ∀ s, slots s → slots' s) : l.Opens slots' l' := by
  refine ⟨H.frame, H.heap, H.contents, H.kept, fun s cell hcell => ?_⟩
  exact (H.opened s cell hcell).imp_right fun hopened => ⟨h s hopened.1, hopened.2⟩

theorem trans (H : l.Opens slots l') (H' : l'.Opens slots l'') : l.Opens slots l'' := by
  refine ⟨?_, ?_, fun cell v h => H'.contents cell v (H.contents cell v h),
    fun s cell h => H'.kept s cell (H.kept s cell h), fun s cell hcell => ?_⟩
  · rw [H'.frame, H.frame]
  · rw [H'.heap, H.heap]
  · rcases H'.opened s cell hcell with hold | ⟨hs, hnone, hfresh, hv⟩
    · refine (H.opened s cell hold).imp_right fun hopened => ?_
      exact ⟨hopened.1, hopened.2.1, hopened.2.2.1, H'.contents _ _ hopened.2.2.2⟩
    · refine .inr ⟨hs, ?_, ?_, ?_⟩
      · refine Option.eq_none_iff_forall_ne_some.mpr fun old hold => ?_
        cases hnone.symm.trans (H.kept s old hold)
      · refine Option.eq_none_iff_forall_ne_some.mpr fun v hold => ?_
        cases hfresh.symm.trans (H.contents cell v hold)
      · rwa [H.frame] at hv

/-- A slot without a cell gets one. -/
theorem newCell {s : Nat} (h : l.frame.cell? s = none) :
    l.Opens (· = s)
      ⟨(l.heap.newCell (l.frame.slot s)).2, l.frame.setCell s ⟨l.heap.cells.size⟩⟩ := by
  refine ⟨rfl, rfl, fun cell v hcell => ?_, fun t cell hcell => ?_, fun t cell hcell => ?_⟩
  · have hlt : cell.index < l.heap.cells.size := (Array.getElem?_eq_some_iff.mp hcell).1
    rw [Heap.cell?_newCell, if_neg (Nat.ne_of_lt hlt), hcell]
  · rw [Frame.cell?_setCell, if_neg, hcell]
    rintro rfl
    cases h.symm.trans hcell
  · rw [Frame.cell?_setCell] at hcell
    split at hcell
    · subst t
      cases hcell
      exact .inr ⟨rfl, h, Heap.cell?_size, by simp [Heap.cell?_newCell]⟩
    · exact .inl hcell

end Local.Opens

/-- The slots that a capture list refers to. -/
def Capture.Slots (captures : List Capture) (s : Nat) : Prop :=
  ∃ i, .slot i ∈ captures ∧ i.toNat = s

namespace Exec

/-- The cell of a slot is there afterwards. -/
theorem run_cellOf (s : Nat) (l : Local) :
    ∃ cell m, (cellOf s).run l = (.ok cell, m) ∧ l.Opens (· = s) m ∧
      m.frame.cell? s = some cell := by
  unfold cellOf
  rw [run_frame_bind]
  cases h : l.frame.cell? s with
  | some cell => exact ⟨cell, l, rfl, .refl l, h⟩
  | none => exact ⟨_, _, rfl, .newCell h, by simp [Frame.cell?_setCell]⟩

/-- The cells of a capture list are those that its entries stand for in the frame. -/
theorem run_captured (captures : List Capture) (l : Local) :
    ∃ result m, (captured captures).run l = (result, m) ∧ l.Opens (Capture.Slots captures) m ∧
      ∀ cells, result = .ok cells → captures.map m.frame.resolve? = cells.map some := by
  induction captures generalizing l with
  | nil =>
    refine ⟨.ok [], l, rfl, .refl l, fun cells hcells => ?_⟩
    cases hcells
    rfl
  | cons c rest ih =>
    -- what follows the cell of the first entry, which the frame keeps
    have hrest : ∀ (cell : Ref .cell) (m : Local), l.Opens (Capture.Slots (c :: rest)) m →
        m.frame.resolve? c = some cell →
        ∃ result m', ((captured rest >>= fun cells => pure (cell :: cells) :
          Exec (List (Ref .cell))).run m) = (result, m') ∧
          l.Opens (Capture.Slots (c :: rest)) m' ∧ ∀ cells, result = .ok cells →
            (c :: rest).map m'.frame.resolve? = cells.map some := by
      intro cell m hopens hcell
      obtain ⟨result, m', hrun, hopens', hresult⟩ := ih m
      have hopens'' : m.Opens (Capture.Slots (c :: rest)) m' :=
        hopens'.mono fun s hs => hs.imp fun i hi => ⟨List.mem_cons_of_mem c hi.1, hi.2⟩
      rw [run_bind, hrun]
      cases result with
      | error fault =>
        refine ⟨.error fault, m', rfl, hopens.trans hopens'', fun cells hcells => ?_⟩
        cases hcells
      | ok cells =>
        refine ⟨.ok (cell :: cells), m', rfl, hopens.trans hopens'', fun cells' hcells' => ?_⟩
        cases hcells'
        rw [List.map_cons, List.map_cons, hresult cells rfl]
        congr 1
        cases c with
        | slot i => exact hopens'.kept _ _ hcell
        | outer i =>
          rw [Frame.resolve?, hopens'.frame]
          exact hcell
    cases c with
    | slot i =>
      obtain ⟨cell, m, hrun, hopens, hcell⟩ := run_cellOf i.toNat l
      obtain ⟨result, m', hrun', H⟩ := hrest cell m
        (hopens.mono fun s hs => ⟨i, List.mem_cons_self, hs.symm⟩) hcell
      refine ⟨result, m', ?_, H⟩
      refine (run_bind (cellOf i.toNat) _ l).trans ?_
      rw [hrun]
      exact hrun'
    | outer i =>
      cases hcell : l.frame.captures[i.toNat]? with
      | none =>
        refine ⟨.error .invalidInstruction, l, ?_, .refl l, fun cells hcells => ?_⟩
        · refine (run_bind (capture i.toNat) _ l).trans ?_
          rw [capture, run_frame_bind, hcell]
          rfl
        · cases hcells
      | some cell =>
        obtain ⟨result, m', hrun', H⟩ := hrest cell l (.refl l) hcell
        refine ⟨result, m', ?_, H⟩
        refine (run_bind (capture i.toNat) _ l).trans ?_
        rw [capture, run_frame_bind, hcell]
        exact hrun'

end Exec

/-! ## What an instruction does to cells -/

/-- Executing the instruction uses the cell of a slot, which is made on first use. -/
def Instruction.UsesCell (i : Instruction) (l : Local) (s : Nat) : Prop :=
  (i.opcode = .loadCell ∨ i.opcode = .storeCell) ∧ i.operand.toNat = s ∨
    i.opcode = .makeFunction ∧ ∃ r code,
      l.frame.scope.constants[i.operand.toNat]? = some (.code r) ∧ l.heap.code? r = some code ∧
        Capture.Slots code.captures s

/-- What executing an instruction does to cells and to what functions have captured. -/
inductive Local.Weaves (l : Local) (i : Instruction) : Except Fault Action → Local → Prop where
  /-- No cell takes part. -/
  | retains {result : Except Fault Action} {l' : Local}
      (hi : i.opcode.weaves = false ∨ ∃ fault, result = .error fault) (H : l.Retains l') :
      Weaves l i result l'
  /-- The cell of a slot is read. -/
  | load {m : Local} {cell : Ref .cell} {value : Value} (hi : i.opcode = .loadCell)
      (opens : l.Opens (i.UsesCell l) m) (hcell : m.frame.cell? i.operand.toNat = some cell)
      (hvalue : m.heap.cell? cell = some value) :
      Weaves l i (.ok .next)
        ⟨m.heap, { m.frame.push value with instruction := m.frame.instruction + 1 }⟩
  /-- The cell of a slot gets another value. -/
  | store {m : Local} {cell : Ref .cell} {value : Value} {rest : List Value}
      (hi : i.opcode = .storeCell) (stack : l.frame.stack = value :: rest)
      (opens : Opens (i.UsesCell l) ⟨l.heap, { l.frame with stack := rest }⟩ m)
      (hcell : m.frame.cell? i.operand.toNat = some cell) :
      Weaves l i (.ok .next)
        ⟨m.heap.setCell cell value, { m.frame with instruction := m.frame.instruction + 1 }⟩
  /-- A slot gets a new cell. -/
  | new {value : Value} {rest : List Value} (hi : i.opcode = .newCell)
      (stack : l.frame.stack = value :: rest) :
      Weaves l i (.ok .next)
        ⟨(l.heap.newCell value).2,
          { l.frame.setCell i.operand.toNat ⟨l.heap.cells.size⟩ with
            stack := rest, instruction := l.frame.instruction + 1 }⟩
  /-- A captured cell gets another value. -/
  | storeCapture {cell : Ref .cell} {value : Value} {rest : List Value}
      (hi : i.opcode = .storeCapture) (stack : l.frame.stack = value :: rest)
      (hcell : l.frame.captures[i.operand.toNat]? = some cell) :
      Weaves l i (.ok .next)
        ⟨l.heap.setCell cell value,
          { l.frame with stack := rest, instruction := l.frame.instruction + 1 }⟩
  /-- A closure captures the cells that its capture list stands for. -/
  | closure {m : Local} {r : Ref .code} {code : Code} {cells : List (Ref .cell)}
      (hi : i.opcode = .makeFunction)
      (hconstant : l.frame.scope.constants[i.operand.toNat]? = some (.code r))
      (hcode : l.heap.code? r = some code) (opens : l.Opens (i.UsesCell l) m)
      (hcells : code.captures.map m.frame.resolve? = cells.map some) :
      Weaves l i (.ok .next)
        ⟨(m.heap.newFunction {
            module := some m.frame.scope.module, receiver := m.frame.receiver
            body := .interpreted code cells }).2,
          { m.frame.push (.function ⟨m.heap.functions.size⟩) with
            instruction := m.frame.instruction + 1 }⟩
  /-- A cell that is to be read or captured is not there. -/
  | refused {m : Local} {fault : Fault} (opens : l.Opens (i.UsesCell l) m) :
      Weaves l i (.error fault) m

namespace Exec

variable {l : Local} {i : Instruction}

theorem weaves_loadCell (h : i.opcode = .loadCell) :
    l.Weaves i ((instruction i).run l).1 ((instruction i).run l).2 := by
  obtain ⟨cell, m, hrun, hopens, hcell⟩ := run_cellOf i.operand.toNat l
  have hopens' : l.Opens (i.UsesCell l) m :=
    hopens.mono fun s hs => .inl ⟨.inl h, hs.symm⟩
  simp only [instruction, h]
  rw [run_bind, hrun]
  dsimp only
  rw [run_heap_bind]
  cases hvalue : m.heap.cell? cell with
  | none => exact .refused hopens'
  | some value => exact .load h hopens' hcell hvalue

theorem weaves_storeCell (h : i.opcode = .storeCell) :
    l.Weaves i ((instruction i).run l).1 ((instruction i).run l).2 := by
  simp only [instruction, h]
  cases hstack : l.frame.stack with
  | nil =>
    rw [run_pop_bind_nil _ hstack]
    exact .retains (.inr ⟨_, rfl⟩) (.refl l)
  | cons value rest =>
    rw [run_pop_bind _ hstack]
    obtain ⟨cell, m, hrun, hopens, hcell⟩ :=
      run_cellOf i.operand.toNat ⟨l.heap, { l.frame with stack := rest }⟩
    rw [run_bind, hrun]
    exact .store h hstack (hopens.mono fun s hs => .inl ⟨.inr h, hs.symm⟩) hcell

theorem weaves_newCell (h : i.opcode = .newCell) :
    l.Weaves i ((instruction i).run l).1 ((instruction i).run l).2 := by
  simp only [instruction, h]
  cases hstack : l.frame.stack with
  | nil =>
    rw [run_pop_bind_nil _ hstack]
    exact .retains (.inr ⟨_, rfl⟩) (.refl l)
  | cons value rest =>
    rw [run_pop_bind _ hstack]
    exact .new h hstack

theorem weaves_storeCapture (h : i.opcode = .storeCapture) :
    l.Weaves i ((instruction i).run l).1 ((instruction i).run l).2 := by
  simp only [instruction, h]
  cases hstack : l.frame.stack with
  | nil =>
    rw [run_pop_bind_nil _ hstack]
    exact .retains (.inr ⟨_, rfl⟩) (.refl l)
  | cons value rest =>
    rw [run_pop_bind _ hstack, capture, bind_assoc, run_frame_bind]
    cases hcell : l.frame.captures[i.operand.toNat]? with
    | none => exact .retains (.inr ⟨_, rfl⟩) ⟨.refl l.heap, rfl⟩
    | some cell => exact .storeCapture h hstack hcell

theorem weaves_makeFunction (h : i.opcode = .makeFunction) :
    l.Weaves i ((instruction i).run l).1 ((instruction i).run l).2 := by
  simp only [instruction, h]
  rw [run_bind]
  rcases run_makeFunction i.operand.toNat l with ⟨fault, heq⟩ |
    ⟨r, code, hconstant, hcode, heq⟩ <;> rw [heq]
  · exact .retains (.inr ⟨_, rfl⟩) (.refl l)
  · obtain ⟨result, m, hrun, hopens, hresult⟩ := run_captured code.captures l
    have hopens' : l.Opens (i.UsesCell l) m :=
      hopens.mono fun s hs => .inr ⟨h, r, code, hconstant, hcode, hs⟩
    rw [hrun]
    cases result with
    | error fault => exact .refused hopens'
    | ok cells => exact .closure h hconstant hcode hopens' (hresult cells rfl)

/-- Everything that executing an instruction does to cells. -/
theorem weaves_step (hi : l.frame.code.instructions[l.frame.instruction]? = some i) :
    l.Weaves i (step.run l).1 (step.run l).2 := by
  rw [step_of_some hi]
  cases h : i.opcode.weaves with
  | false => exact .retains (.inl h) (((whole_instruction i).retains h).run l)
  | true =>
    cases hopcode : i.opcode
    case loadCell => exact weaves_loadCell hopcode
    case storeCell => exact weaves_storeCell hopcode
    case newCell => exact weaves_newCell hopcode
    case storeCapture => exact weaves_storeCapture hopcode
    case makeFunction => exact weaves_makeFunction hopcode
    all_goals
      rw [hopcode] at h
      cases h

end Exec

/-! ## Slots and their cells -/

/-- A new cell of a slot: one for an operand, or the first one, made from the slot's value. -/
inductive Local.Starts (l : Local) (i : Instruction) (s : Nat) (l' : Local) (cell : Ref .cell) :
    Prop where
  | renewed {value : Value} (hi : i.opcode = .newCell) (operand : i.operand.toNat = s)
      (completes : (Exec.step.run l).1 = .ok .next)
      (stack : l.frame.stack = value :: l'.frame.stack) (hvalue : l'.heap.cell? cell = some value)
  | opened (first : l.frame.cell? s = none) (uses : i.UsesCell l s)
      (hvalue : l'.heap.cell? cell = some (l.frame.slot s))
  /-- The slot's value has been overwritten at once. -/
  | stored {value : Value} (first : l.frame.cell? s = none) (uses : i.UsesCell l s)
      (hi : i.opcode = .storeCell) (completes : (Exec.step.run l).1 = .ok .next)
      (stack : l.frame.stack = value :: l'.frame.stack) (hvalue : l'.heap.cell? cell = some value)

theorem Local.Starts.value {l l' : Local} {i : Instruction} {s : Nat} {cell : Ref .cell}
    (H : l.Starts i s l' cell) : ∃ value, l'.heap.cell? cell = some value := by
  cases H with
  | renewed _ _ _ _ hvalue => exact ⟨_, hvalue⟩
  | opened _ _ hvalue => exact ⟨_, hvalue⟩
  | stored _ _ _ _ _ hvalue => exact ⟨_, hvalue⟩

/-- What comes after an instruction leaves its frame alone if it leads on to the next one. -/
theorem Local.Starts.mono {l l' l'' : Local} {i : Instruction} {s : Nat} {cell : Ref .cell}
    (H : l.Starts i s l' cell) (hcell : l''.heap.cell? cell = l'.heap.cell? cell)
    (hnext : (Exec.step.run l).1 = .ok .next → l''.frame = l'.frame) : l.Starts i s l'' cell := by
  cases H with
  | renewed hi operand completes stack hvalue =>
    exact .renewed hi operand completes (hnext completes ▸ stack) (hcell.trans hvalue)
  | opened first uses hvalue => exact .opened first uses (hcell.trans hvalue)
  | stored first uses hi completes stack hvalue =>
    exact .stored first uses hi completes (hnext completes ▸ stack) (hcell.trans hvalue)

/-- The cell that an instruction reads or writes. -/
def Instruction.cell? (i : Instruction) (f : Frame) : Option (Ref .cell) :=
  match i.opcode with
  | .loadCell | .storeCell => f.cell? i.operand.toNat
  | .loadCapture | .storeCapture => f.captures[i.operand.toNat]?
  | _ => none

/-- Whether the instruction reads a cell. -/
def Opcode.loadsCell : Opcode → Bool
  | .loadCell | .loadCapture => true
  | _ => false

/-- Whether the instruction gives a cell another value. -/
def Opcode.storesCell : Opcode → Bool
  | .storeCell | .storeCapture => true
  | _ => false

theorem Opcode.weaves_of_storesCell {o : Opcode} (h : o.storesCell) : o.weaves := by
  cases o <;> first | rfl | cases h

theorem Opcode.not_storesCell_of_loadsCell {o : Opcode} (h : o.loadsCell) :
    o.storesCell = false := by
  cases o <;> first | rfl | cases h

namespace Local.Opens

variable {l l' : Local} {slots : Nat → Prop}

theorem function? (H : l.Opens slots l') (r : Ref .function) :
    l'.heap.function? r = l.heap.function? r := by
  rw [H.heap]
  rfl

theorem stack (H : l.Opens slots l') : l'.frame.stack = l.frame.stack := by
  rw [H.frame]

/-- A slot has the cell that it had, or its first one. -/
theorem cell?_cases (H : l.Opens slots l') (s : Nat) : l'.frame.cell? s = l.frame.cell? s ∨
    ∃ cell, l'.frame.cell? s = some cell ∧ slots s ∧ l.frame.cell? s = none ∧
      l.heap.cell? cell = none ∧ l'.heap.cell? cell = some (l.frame.slot s) := by
  cases hcell : l'.frame.cell? s with
  | none =>
    cases hold : l.frame.cell? s with
    | none => exact .inl rfl
    | some old => cases hcell.symm.trans (H.kept s old hold)
  | some cell =>
    rcases H.opened s cell hcell with hold | hopened
    · exact .inl hold.symm
    · exact .inr ⟨cell, rfl, hopened⟩

end Local.Opens

namespace Local.Weaves

variable {l l' : Local} {i : Instruction} {result : Except Fault Action}

/-- How a slot comes by its cell. -/
theorem cell?_cases (H : l.Weaves i (Exec.step.run l).1 l') (s : Nat) :
    l'.frame.cell? s = l.frame.cell? s ∨ ∃ cell, l'.frame.cell? s = some cell ∧
      l.heap.cell? cell = none ∧ l.Starts i s l' cell := by
  generalize hresult : (Exec.step.run l).1 = result at H
  cases H with
  | retains _ H => exact .inl (by rw [Frame.cell?, Frame.cell?, H.cells])
  | load _ opens =>
    refine (opens.cell?_cases s).imp_right ?_
    rintro ⟨cell, hcell, huses, hfirst, hfresh, hvalue⟩
    exact ⟨cell, hcell, hfresh, .opened hfirst huses hvalue⟩
  | @store m cell value rest hi stack opens hcell =>
    refine (opens.cell?_cases s).imp_right ?_
    rintro ⟨new, hnew, huses, hfirst, hfresh, hvalue⟩
    have hs : s = i.operand.toNat := by
      rcases huses with ⟨-, rfl⟩ | ⟨hmake, -⟩
      · rfl
      · cases hi.symm.trans hmake
    subst hs
    cases hcell.symm.trans hnew
    have hstack : l.frame.stack = value :: m.frame.stack := by rw [stack, opens.stack]
    refine ⟨cell, hcell, hfresh, .stored hfirst huses hi hresult hstack ?_⟩
    rw [Heap.cell?_setCell, if_pos rfl, hvalue]
    rfl
  | @new value rest hi stack =>
    have hcell := l.frame.cell?_setCell i.operand.toNat s ⟨l.heap.cells.size⟩
    by_cases hs : s = i.operand.toNat
    · rw [if_pos hs] at hcell
      refine .inr ⟨_, hcell, Heap.cell?_size, .renewed hi hs.symm hresult stack ?_⟩
      simp [Heap.cell?_newCell]
    · rw [if_neg hs] at hcell
      exact .inl hcell
  | storeCapture => exact .inl rfl
  | closure _ _ _ opens =>
    refine (opens.cell?_cases s).imp_right ?_
    rintro ⟨cell, hcell, huses, hfirst, hfresh, hvalue⟩
    exact ⟨cell, hcell, hfresh, .opened hfirst huses hvalue⟩
  | refused opens =>
    refine (opens.cell?_cases s).imp_right ?_
    rintro ⟨cell, hcell, huses, hfirst, hfresh, hvalue⟩
    exact ⟨cell, hcell, hfresh, .opened hfirst huses hvalue⟩

/-- A cell has the value that it had, unless the instruction stores another one in it. -/
theorem contents (H : l.Weaves i result l') {cell : Ref .cell} {v : Value}
    (hv : l.heap.cell? cell = some v) :
    l'.heap.cell? cell = some v ∨ ∃ v', result = .ok .next ∧ i.opcode.storesCell ∧
      i.cell? l'.frame = some cell ∧ l.frame.stack = v' :: l'.frame.stack ∧
        l'.heap.cell? cell = some v' := by
  cases H with
  | retains _ H => exact .inl (by rwa [Heap.cell?, H.heap.cells])
  | load _ opens => exact .inl (opens.contents cell v hv)
  | @store m stored value rest hi stack opens hcell =>
    have hm := opens.contents cell v hv
    by_cases heq : cell = stored
    · subst heq
      refine .inr ⟨value, rfl, by rw [hi]; rfl, ?_, by rw [stack, opens.stack], ?_⟩
      · simp only [Instruction.cell?, hi]
        exact hcell
      · rw [Heap.cell?_setCell, if_pos rfl, hm]
        rfl
    · exact .inl (by rwa [Heap.cell?_setCell, if_neg heq])
  | new =>
    have hlt : cell.index < l.heap.cells.size := (Array.getElem?_eq_some_iff.mp hv).1
    exact .inl (by rwa [Heap.cell?_newCell, if_neg (Nat.ne_of_lt hlt)])
  | @storeCapture stored value rest hi stack hcell =>
    by_cases heq : cell = stored
    · subst heq
      refine .inr ⟨value, rfl, by rw [hi]; rfl, ?_, stack, ?_⟩
      · simp only [Instruction.cell?, hi]
        exact hcell
      · rw [Heap.cell?_setCell, if_pos rfl, hv]
        rfl
    · exact .inl (by rwa [Heap.cell?_setCell, if_neg heq])
  | closure _ _ _ opens => exact .inl (opens.contents cell v hv)
  | refused opens => exact .inl (opens.contents cell v hv)

theorem isSome_cell? (H : l.Weaves i result l') {cell : Ref .cell}
    (h : (l.heap.cell? cell).isSome) : (l'.heap.cell? cell).isSome := by
  obtain ⟨v, hv⟩ := Option.isSome_iff_exists.mp h
  rcases H.contents hv with hv' | ⟨v', -, -, -, -, hv'⟩ <;> simp [hv']

/-- A store takes an operand, and its cell holds nothing else afterwards. -/
theorem stored (H : l.Weaves i (.ok .next) l') (hi : i.opcode.storesCell) :
    ∃ cell v, i.cell? l'.frame = some cell ∧ l.frame.stack = v :: l'.frame.stack ∧
      ∀ u, l'.heap.cell? cell = some u → u = v := by
  have hset : ∀ (h : Heap) (cell : Ref .cell) (v u : Value),
      (h.setCell cell v).cell? cell = some u → u = v := by
    intro h cell v u hu
    rw [Heap.cell?_setCell, if_pos rfl] at hu
    obtain ⟨_, -, rfl⟩ := Option.map_eq_some_iff.mp hu
    rfl
  cases H with
  | retains hplain =>
    rcases hplain with hplain | ⟨fault, hfault⟩
    · cases hplain.symm.trans (Opcode.weaves_of_storesCell hi)
    · cases hfault
  | @store m cell value rest hopcode stack opens hcell =>
    refine ⟨cell, value, ?_, by rw [stack, opens.stack], hset _ _ _⟩
    simp only [Instruction.cell?, hopcode]
    exact hcell
  | @storeCapture cell value rest hopcode stack hcell =>
    refine ⟨cell, value, ?_, stack, hset _ _ _⟩
    simp only [Instruction.cell?, hopcode]
    exact hcell
  | load hopcode | new hopcode | closure hopcode =>
    rw [hopcode] at hi
    cases hi

theorem renewed (H : l.Weaves i (.ok .next) l') (hi : i.opcode = .newCell) :
    ∃ cell, l'.frame.cell? i.operand.toNat = some cell ∧ l.heap.cell? cell = none := by
  cases H with
  | retains hplain =>
    rcases hplain with hplain | ⟨fault, hfault⟩
    · rw [hi] at hplain
      cases hplain
    · cases hfault
  | new =>
    refine ⟨⟨l.heap.cells.size⟩, ?_, Heap.cell?_size⟩
    exact (l.frame.cell?_setCell ..).trans (if_pos rfl)
  | load hother | store hother | storeCapture hother | closure hother =>
    cases hi.symm.trans hother

/-! ## What functions have captured -/

theorem functions (H : l.Weaves i result l') {r : Ref .function} {f : FunctionObject}
    (hf : l.heap.function? r = some f) : l'.heap.function? r = some f := by
  cases H with
  | retains _ H => exact H.heap.functions r f hf
  | load _ opens => exact (opens.function? r).trans hf
  | store _ _ opens => exact (opens.function? r).trans hf
  | new | storeCapture => exact hf
  | closure _ _ _ opens => exact Heap.function?_newFunction_of_some ((opens.function? r).trans hf) _
  | refused opens => exact (opens.function? r).trans hf

/-- A closure of a code constant captures what the capture list stands for. -/
theorem closed (H : l.Weaves i (.ok .next) l') (hi : i.opcode = .makeFunction) :
    ∃ r f constant code, l'.frame.stack = .function r :: l.frame.stack ∧
      l'.heap.function? r = some f ∧
      l.frame.scope.constants[i.operand.toNat]? = some (.code constant) ∧
      l.heap.code? constant = some code ∧ f.body = .interpreted code f.captures ∧
        code.captures.map l'.frame.resolve? = f.captures.map some := by
  cases H with
  | retains hplain =>
    rcases hplain with hplain | ⟨fault, hfault⟩
    · rw [hi] at hplain
      cases hplain
    · cases hfault
  | closure _ hconstant hcode opens hcells =>
    refine ⟨_, _, _, _, ?_, Heap.function?_newFunction_self _, hconstant, hcode, rfl, hcells⟩
    exact congrArg _ opens.stack
  | load hopcode | store hopcode | new hopcode | storeCapture hopcode =>
    cases hi.symm.trans hopcode

/-- A function with cells that no function has captured before is a closure just made. -/
theorem origin (H : l.Weaves i result l') {r : Ref .function} {f : FunctionObject}
    (hf : l'.heap.function? r = some f) : l.heap.Captured f.captures ∨
      result = .ok .next ∧ i.opcode = .makeFunction ∧
        l'.frame.stack = .function r :: l.frame.stack := by
  have hold (hf : l.heap.function? r = some f) : l.heap.Captured f.captures := .inr ⟨r, f, hf, rfl⟩
  cases H with
  | retains _ H => exact .inl (H.heap.origin r f hf)
  | load _ opens => exact .inl (hold ((opens.function? r).symm.trans hf))
  | store _ _ opens => exact .inl (hold ((opens.function? r).symm.trans hf))
  | new | storeCapture => exact .inl (hold hf)
  | @closure m constant code cells hi _ _ opens =>
    rw [Heap.function?_newFunction] at hf
    split at hf
    · rename_i hr
      refine .inr ⟨rfl, hi, ?_⟩
      obtain ⟨index⟩ := r
      cases hr
      exact congrArg _ opens.stack
    · exact .inl (hold ((opens.function? r).symm.trans hf))
  | refused opens => exact .inl (hold ((opens.function? r).symm.trans hf))

end Local.Weaves

/-- An instruction that reads a cell pushes what the cell holds. -/
theorem Exec.loaded {l l' : Local} {i : Instruction}
    (hi : l.frame.code.instructions[l.frame.instruction]? = some i) (hload : i.opcode.loadsCell)
    (hrun : step.run l = (.ok .next, l')) :
    ∃ cell v, i.cell? l'.frame = some cell ∧ l'.heap.cell? cell = some v ∧
      l'.frame.stack = v :: l.frame.stack := by
  cases hopcode : i.opcode
  case loadCell =>
    have H := weaves_step hi
    rw [hrun] at H
    cases H with
    | load _ opens hcell hvalue =>
      refine ⟨_, _, ?_, hvalue, congrArg _ opens.stack⟩
      simp only [Instruction.cell?, hopcode]
      exact hcell
    | retains hplain =>
      rcases hplain with hplain | ⟨fault, hfault⟩
      · rw [hopcode] at hplain
        cases hplain
      · cases hfault
    | store hother | new hother | storeCapture hother | closure hother =>
      cases hopcode.symm.trans hother
  case loadCapture =>
    rw [step_of_some hi] at hrun
    simp only [instruction, hopcode, capture, bind_assoc] at hrun
    rw [run_frame_bind] at hrun
    cases hcell : l.frame.captures[i.operand.toNat]? with
    | none =>
      rw [hcell] at hrun
      cases hrun
    | some cell =>
      rw [hcell] at hrun
      simp only [orElseFault, pure_bind] at hrun
      rw [run_heap_bind] at hrun
      cases hvalue : l.heap.cell? cell with
      | none =>
        rw [hvalue] at hrun
        cases hrun
      | some value =>
        rw [hvalue] at hrun
        cases hrun
        refine ⟨cell, value, ?_, hvalue, rfl⟩
        simp only [Instruction.cell?, hopcode]
        exact hcell
  all_goals
    rw [hopcode] at hload
    cases hload

/-! ## Cells that are there -/

/-- The cells of the frame are in the heap. -/
structure Frame.Tied (f : Frame) (h : Heap) : Prop where
  captures : ∀ cell ∈ f.captures, (h.cell? cell).isSome
  cells : ∀ s cell, f.cell? s = some cell → (h.cell? cell).isSome

/-- The cells that functions have captured are in the heap. -/
def Heap.Tied (h : Heap) : Prop :=
  ∀ r f, h.function? r = some f → ∀ cell ∈ f.captures, (h.cell? cell).isSome

theorem Heap.Tied.captured {h : Heap} (H : h.Tied) {cells : List (Ref .cell)}
    (hcells : h.Captured cells) : ∀ cell ∈ cells, (h.cell? cell).isSome := by
  rcases hcells with rfl | ⟨r, f, hf, rfl⟩
  · intro cell hcell
    cases hcell
  · exact H r f hf

theorem Heap.Retains.cell? {h h' : Heap} (H : h.Retains h') (cell : Ref .cell) :
    h'.cell? cell = h.cell? cell := by
  rw [Heap.cell?, H.cells, Heap.cell?]

theorem Heap.Tied.retains {h h' : Heap} (hh : h.Tied) (H : h.Retains h') : h'.Tied := by
  intro r f hf cell hcell
  rw [H.cell?]
  exact hh.captured (H.origin r f hf) cell hcell

/-- The cell of a capture is there. -/
theorem Frame.Tied.resolve? {f : Frame} {h : Heap} (H : f.Tied h) {c : Capture} {cell : Ref .cell}
    (hcell : f.resolve? c = some cell) : (h.cell? cell).isSome := by
  cases c with
  | slot i => exact H.cells _ cell hcell
  | outer i => exact H.captures cell (List.mem_of_getElem? hcell)

/-- Executing an instruction leaves no cell without a place in the heap. -/
theorem Local.Weaves.tied {l l' : Local} {i : Instruction}
    (H : l.Weaves i (Exec.step.run l).1 l') (hcaptures : l'.frame.captures = l.frame.captures)
    (hheap : l.heap.Tied) (hframe : l.frame.Tied l.heap) :
    l'.heap.Tied ∧ l'.frame.Tied l'.heap := by
  have hframe' : l'.frame.Tied l'.heap := by
    refine ⟨fun cell hcell => ?_, fun s cell hcell => ?_⟩
    · rw [hcaptures] at hcell
      exact H.isSome_cell? (hframe.captures cell hcell)
    · rcases H.cell?_cases s with hold | ⟨new, hnew, -, hstarts⟩
      · exact H.isSome_cell? (hframe.cells s cell (hold.symm.trans hcell))
      · cases hcell.symm.trans hnew
        obtain ⟨value, hvalue⟩ := hstarts.value
        simp [hvalue]
  refine ⟨fun r f hf cell hcell => ?_, hframe'⟩
  rcases H.origin hf with hold | ⟨hresult, hi, hstack⟩
  · exact H.isSome_cell? (hheap.captured hold cell hcell)
  · rw [hresult] at H
    obtain ⟨r', f', constant, code, hstack', hf', -, -, -, hcells⟩ := H.closed hi
    cases hstack.symm.trans hstack'
    cases hf.symm.trans hf'
    have hmem : some cell ∈ f.captures.map some := List.mem_map_of_mem hcell
    rw [← hcells] at hmem
    obtain ⟨c, -, hc⟩ := List.mem_map.mp hmem
    exact hframe'.resolve? hc

end FiberMachine
