import FiberMachine.Proofs.Closure.Rebinding
import FiberMachine.Proofs.Closure.Transition
import FiberMachine.Proofs.World.History

/-!
# Closures and the cells they share

A cell is a variable of an activation. Along every run of an activation a slot keeps its cell until
an instruction gives it a new one (`World.cell?_run_iff`), so two closures that the activation makes
share the variable exactly if none did in between (`World.Makes.share_iff`). What else there is to
say of cells, in every reachable world, is `World.Lexical`: where the cells of closures and of
activations come from, that rebinding keeps them, and that a value stored in a cell is read through
this cell and no other (`World.lexical_run`).
-/

namespace FiberMachine

namespace World

variable {w w' : World} {f : FiberId} {d : Nat} {e : Event} {g g' : Frame} {fiber : Fiber}

/-! ## Activations -/

/-- The instruction that the frame with `d` frames below it executes in an event. -/
def executes? (w : World) (f : FiberId) (d : Nat) : Event → Option Instruction
  | .advance id =>
    (w.fiber? f).bind fun fiber =>
      if id = f ∧ fiber.frames.length = d + 1 then fiber.executes? else none
  | _ => none

/-- A frame with the same code and cells at the same depth. -/
theorem getElem?_of_suffix {frames frames' : List Frame}
    (h : frames'.map Frame.tie <:+ frames.map Frame.tie) (hg : frames'.reverse[d]? = some g') :
    ∃ g, frames.reverse[d]? = some g ∧ g'.tie = g.tie := by
  obtain ⟨front, hfront⟩ := h
  have htie : (frames'.map Frame.tie).reverse[d]? = some g'.tie := by
    rw [← List.map_reverse, List.getElem?_map, hg]
    rfl
  have hall : (frames.map Frame.tie).reverse[d]? = some g'.tie := by
    rw [← hfront, List.reverse_append, List.getElem?_append_left, htie]
    exact (List.getElem?_eq_some_iff.mp htie).1
  rw [← List.map_reverse, List.getElem?_map] at hall
  obtain ⟨g, hg, htie⟩ := Option.map_eq_some_iff.mp hall
  exact ⟨g, hg, htie.symm⟩

/-! ## Events -/

/--
No cell is made or changed. The frames that are left have what they had, and new ones have the
cells of the functions that they execute.
-/
structure Follows (w w' : World) : Prop where
  machine : w.machine.Retains w'.machine
  frames : ∀ f d g', w'.activation? f d = some g' →
    (∃ g, w.activation? f d = some g ∧ g'.tie = g.tie) ∨
      w.activation? f d = none ∧ g'.Fresh w'.machine.heap

theorem Follows.of_spares (hmachine : w.machine.Retains w'.machine) (hspares : w.Spares w') :
    w.Follows w' := by
  refine ⟨hmachine, fun f d g' hg' => .inl ⟨g', ?_, rfl⟩⟩
  obtain ⟨fiber', hfiber', hframe⟩ := Option.bind_eq_some_iff.mp hg'
  rcases hspares f fiber' hfiber' with rfl | ⟨fiber, hfiber, hframes, -⟩
  · simp at hframe
  · rw [activation?_of_fiber? hfiber, ← hframes]
    exact hframe

theorem Follows.of_update {c' : Context} (hf : w.fiber? f = some fiber)
    (H : Context.Retains ⟨w.machine, f, fiber⟩ c') : w.Follows (w.update f c') := by
  refine ⟨H.machine, fun other d g' hg' => ?_⟩
  obtain ⟨fiber', hfiber', hframe⟩ := Option.bind_eq_some_iff.mp hg'
  rcases fiber?_of_update hf hfiber' with ⟨rfl, rfl⟩ | ⟨-, hother⟩
  · rw [activation?_of_fiber? hf]
    rcases H.frames with hsuffix | ⟨top, rest, hframes, hrest, hfresh⟩
    · exact .inl (getElem?_of_suffix hsuffix hframe)
    · rw [hframes, getElem?_reverse_cons] at hframe
      split at hframe
      · rename_i hd
        cases hframe
        refine .inr ⟨?_, hfresh⟩
        have hlength := congrArg List.length hrest
        simp only [List.length_map] at hlength
        exact List.getElem?_eq_none (by rw [List.length_reverse]; omega)
      · exact .inl (getElem?_of_suffix (hrest ▸ List.suffix_rfl) hframe)
  · exact .inl ⟨g', by rwa [activation?_of_fiber? hother], rfl⟩

/-- A change of values by the host makes and changes no cell, and captures none. -/
def Discreet (w : World) (e : Event) : Prop :=
  ∀ change, e = .edit change → w.machine.heap.Retains (change w.machine.heap)

theorem retains_failAll (m : Machine) (modules : List ModuleId) :
    m.Retains (failAll m modules) := by
  induction modules generalizing m with
  | nil => exact .refl m
  | cons module rest ih =>
    exact (Machine.Retains.envelope m [] .moduleFailed).trans
      ((Machine.Retains.finishModule ..).trans (ih _))

/-- An event in which no instruction is executed. -/
theorem follows_perform (h : w.Discreet e) (hi : ∀ f d, w.executes? f d e = none) :
    w.Follows (w.perform e) := by
  cases e with
  | register linked => exact .of_spares (.register w.machine linked) (w.spares_machine _)
  | registerNative | relocate => exact .of_spares (.refl w.machine) (w.spares_machine _)
  | edit change => exact .of_spares (h change rfl) (w.spares_machine _)
  | spawn => exact .of_spares (.refl w.machine) w.spares_spawn
  | drop id =>
    exact .of_spares (retains_failAll (w.machine.setWait id none) (w.loadedBy id))
      (w.spares_drop id)
  | configure id setting => exact .of_spares (.refl w.machine) (w.spares_configure id setting)
  | start id entry =>
    rcases w.perform_start_cases id entry with heq | ⟨fiber, hf, -, -, heq⟩ <;> rw [heq]
    · exact .of_spares (.refl w.machine) (w.spares_machine _)
    · exact .of_update hf (.start ..)
  | advance id =>
    rcases w.perform_advance_cases id with heq | ⟨fiber, hf, -, -, heq⟩ <;> rw [heq]
    · exact .of_spares (.refl w.machine) (w.spares_machine _)
    · refine .of_update hf (Context.retains_advance ?_)
      cases hframes : fiber.frames with
      | nil =>
        cases hexecutes : fiber.executes? with
        | none => rfl
        | some i =>
          obtain ⟨top, rest, hcons, -⟩ := Fiber.frames_of_executes? hexecutes
          cases hframes.symm.trans hcons
      | cons top rest =>
        have hnone := hi id rest.length
        simpa [executes?, hf, hframes] using hnone
  | rouse id =>
    rcases w.perform_rouse_cases id with heq | ⟨fiber, hf, hwaiting, heq⟩ <;> rw [heq]
    · exact .of_spares (.refl w.machine) (w.spares_machine _)
    · obtain ⟨module, object, pending, hactivity⟩ := Activity.exists_of_isWaiting hwaiting
      refine .of_update hf (Context.retains_advance ?_)
      simp only [Fiber.executes?, hactivity]
  | expire id => exact .of_spares (.refl w.machine) (w.spares_expire id)

/-- An instruction is executed by the top frame of a fiber that makes a transition. -/
theorem of_executes? {i : Instruction} (hg : w.activation? f d = some g)
    (hi : w.executes? f d e = some i) :
    ∃ fiber rest, w.fiber? f = some fiber ∧ fiber.frames = g :: rest ∧ d = rest.length ∧
      fiber.executes? = some i ∧ e = .advance f := by
  cases e with
  | advance id =>
    obtain ⟨fiber, hf, hif⟩ := Option.bind_eq_some_iff.mp hi
    split at hif
    · rename_i hfits
      obtain ⟨rfl, hlength⟩ := hfits
      obtain ⟨top, rest, hframes, -⟩ := Fiber.frames_of_executes? hif
      have hd : d = rest.length := by
        rw [hframes, List.length_cons] at hlength
        omega
      rw [activation?_of_fiber? hf, hframes, getElem?_reverse_cons, if_pos hd] at hg
      cases hg
      exact ⟨fiber, rest, hf, hframes, hd, hif, rfl⟩
    · cases hif
  | _ => cases hi

theorem instruction_of_executes? {i : Instruction} (hg : w.activation? f d = some g)
    (hi : w.executes? f d e = some i) : g.code.instructions[g.instruction]? = some i := by
  obtain ⟨fiber, rest, -, hframes, -, hexecutes, -⟩ := of_executes? hg hi
  obtain ⟨top, rest', hframes', hcurrent⟩ := Fiber.frames_of_executes? hexecutes
  cases hframes.symm.trans hframes'
  exact hcurrent

theorem perform_advance_of_executes? {i : Instruction} (hf : w.fiber? f = some fiber)
    (hi : fiber.executes? = some i) :
    w.perform (.advance f) = w.update f (Context.advance ⟨w.machine, f, fiber⟩) := by
  rw [perform, drive_eq_update hf, Context.drive, if_neg, Context.drive]
  intro hsettled
  cases hactivity : fiber.activity with
  | running base caller => simp [Context.isSettled, hactivity] at hsettled
  | _ => simp [Fiber.executes?, hactivity] at hi

/-- The world after the top frame of a fiber has executed its instruction. -/
def woven (w : World) (f : FiberId) (fiber : Fiber) (l : Local) (rest : List Frame) : World :=
  w.update f (Context.woven ⟨w.machine, f, fiber⟩ l rest)

theorem activation?_woven {rest : List Frame} (hf : w.fiber? f = some fiber)
    (hframes : fiber.frames = g :: rest) (l : Local) (f' : FiberId) (d' : Nat) :
    (w.woven f fiber l rest).activation? f' d' =
      if f' = f ∧ d' = rest.length then some l.frame else w.activation? f' d' := by
  by_cases hne : f' = f
  · subst hne
    have hfiber : (w.woven f' fiber l rest).fiber? f' =
      some { fiber with frames := l.frame :: rest } := fiber?_update_self hf
    rw [activation?_of_fiber? hfiber, activation?_of_fiber? hf, hframes, getElem?_reverse_cons,
      getElem?_reverse_cons]
    by_cases hd : d' = rest.length <;> simp [hd]
  · have hfiber : (w.woven f fiber l rest).fiber? f' = w.fiber? f' := fiber?_update_of_ne hne
    rw [if_neg fun h => hne h.1, activation?, activation?, hfiber]

/-- An instruction of a frame, and what its event does after it. -/
theorem perform_of_executes? {i : Instruction} (hg : w.activation? f d = some g)
    (hi : w.executes? f d e = some i) :
    ∃ w₁ : World, w₁.machine.heap = (Exec.step.run ⟨w.machine.heap, g⟩).2.heap ∧
      (∀ f' d', w₁.activation? f' d' =
        if f' = f ∧ d' = d then some (Exec.step.run ⟨w.machine.heap, g⟩).2.frame
        else w.activation? f' d') ∧
      w₁.Follows (w.perform e) ∧
      ((Exec.step.run ⟨w.machine.heap, g⟩).1 = .ok .next →
        (w.perform e).machine.heap = (Exec.step.run ⟨w.machine.heap, g⟩).2.heap ∧
          (w.perform e).activation? f d = some (Exec.step.run ⟨w.machine.heap, g⟩).2.frame) := by
  obtain ⟨fiber, rest, hf, hframes, rfl, hexecutes, rfl⟩ := of_executes? hg hi
  obtain ⟨hretains, hnext⟩ := Context.retains_advance_of_executes
    (c := ⟨w.machine, f, fiber⟩) hframes hexecutes
  rw [perform_advance_of_executes? hf hexecutes]
  generalize Exec.step.run ⟨w.machine.heap, g⟩ = stepped at hretains hnext
  obtain ⟨result, l⟩ := stepped
  refine ⟨w.woven f fiber l rest, rfl, activation?_woven hf hframes l, ?_, fun hresult => ?_⟩
  · have hfollows :=
      Follows.of_update (w := w.woven f fiber l rest) (fiber?_update_self hf) hretains
    rwa [woven, update_update] at hfollows
  · obtain ⟨hmachine, hframes'⟩ := hnext l (Prod.ext hresult rfl)
    refine ⟨congrArg Machine.heap hmachine, ?_⟩
    rw [activation?_of_fiber? (fiber?_update_self hf), hframes', getElem?_reverse_cons, if_pos rfl]

/-- The frame at a depth completes an instruction, which makes `g'` of `g`. -/
structure Completes (w : World) (f : FiberId) (d : Nat) (e : Event) (i : Instruction)
    (g g' : Frame) : Prop where
  before : w.activation? f d = some g
  after : (w.perform e).activation? f d = some g'
  executes : w.executes? f d e = some i
  completes : (Exec.step.run ⟨w.machine.heap, g⟩).1 = .ok .next

/-- Completing an instruction is all that happens in its event. -/
theorem Completes.run {i : Instruction} (H : w.Completes f d e i g g') :
    Exec.step.run ⟨w.machine.heap, g⟩ = (.ok .next, ⟨(w.perform e).machine.heap, g'⟩) := by
  obtain ⟨-, -, -, -, hnext⟩ := perform_of_executes? H.before H.executes
  obtain ⟨hheap, hg'⟩ := hnext H.completes
  cases H.after.symm.trans hg'
  exact Prod.ext H.completes (by rw [hheap])

theorem Completes.weaves {i : Instruction} (H : w.Completes f d e i g g') :
    Local.Weaves ⟨w.machine.heap, g⟩ i (.ok .next) ⟨(w.perform e).machine.heap, g'⟩ := by
  have hcurrent := instruction_of_executes? H.before H.executes
  have hweaves := Exec.weaves_step (l := ⟨w.machine.heap, g⟩) hcurrent
  rwa [H.run] at hweaves

/-- A slot gets a new cell by an instruction of its frame. -/
def Renews (w : World) (f : FiberId) (d s : Nat) (e : Event) : Prop :=
  ∃ i g g', w.Completes f d e i g g' ∧ i.opcode = .newCell ∧ i.operand.toNat = s

/-- An instruction of some frame stores a value in a cell. -/
def Stores (w : World) (e : Event) (cell : Ref .cell) (value : Value) : Prop :=
  ∃ f d i g g', w.Completes f d e i g g' ∧ i.opcode.storesCell ∧ i.cell? g' = some cell ∧
    g.stack = value :: g'.stack

/-- An instruction of some frame reads a cell and pushes what it holds. -/
def Loads (w : World) (e : Event) (cell : Ref .cell) (value : Value) : Prop :=
  ∃ f d i g g', w.Completes f d e i g g' ∧ i.opcode.loadsCell ∧ i.cell? g' = some cell ∧
    g'.stack = value :: g.stack

/-- An instruction of a frame makes a closure with the given cells. -/
def Makes (w : World) (f : FiberId) (d : Nat) (e : Event) (code : Code) (cells : List (Ref .cell)) :
    Prop :=
  ∃ i g g' r closure, w.Completes f d e i g g' ∧ i.opcode = .makeFunction ∧
    g'.stack = .function r :: g.stack ∧ (w.perform e).machine.heap.function? r = some closure ∧
      closure.body = .interpreted code cells

/-! ## What an event does to cells -/

/-- What an instruction that is executed in an event does to its frame and to the heap. -/
theorem weaves_perform {i : Instruction} (hg : w.activation? f d = some g)
    (hi : w.executes? f d e = some i) :
    Local.Weaves ⟨w.machine.heap, g⟩ i (Exec.step.run ⟨w.machine.heap, g⟩).1
        (Exec.step.run ⟨w.machine.heap, g⟩).2 ∧
      (Exec.step.run ⟨w.machine.heap, g⟩).2.heap.Retains (w.perform e).machine.heap := by
  obtain ⟨w₁, hheap, -, hfollows, -⟩ := perform_of_executes? hg hi
  have hcurrent := instruction_of_executes? hg hi
  exact ⟨Exec.weaves_step (l := ⟨w.machine.heap, g⟩) hcurrent, hheap ▸ hfollows.machine⟩

/-- In an event no instruction is executed, or one is, by the top frame of a fiber. -/
theorem executes?_cases (w : World) (e : Event) : (∀ f d, w.executes? f d e = none) ∨
    ∃ f d g i, w.activation? f d = some g ∧ w.executes? f d e = some i := by
  by_cases h : ∃ f d i, w.executes? f d e = some i
  · obtain ⟨f, d, i, hi⟩ := h
    cases e with
    | advance id =>
      obtain ⟨fiber, hf, hif⟩ := Option.bind_eq_some_iff.mp hi
      split at hif
      · rename_i hfits
        obtain ⟨rfl, hlength⟩ := hfits
        obtain ⟨top, rest, hframes, -⟩ := Fiber.frames_of_executes? hif
        refine .inr ⟨id, d, top, i, ?_, hi⟩
        rw [hframes, List.length_cons] at hlength
        rw [activation?_of_fiber? hf, hframes, getElem?_reverse_cons, if_pos (by omega)]
      · cases hif
    | _ => cases hi
  · refine .inl fun f d => Option.eq_none_iff_forall_ne_some.mpr fun i hi => h ⟨f, d, i, hi⟩

/-- A cell has the value that it had, unless an instruction stores another one in it. -/
theorem contents_perform (h : w.Discreet e) {cell : Ref .cell} {v : Value}
    (hv : w.machine.heap.cell? cell = some v) :
    (w.perform e).machine.heap.cell? cell = some v ∨
      ∃ v', w.Stores e cell v' ∧ (w.perform e).machine.heap.cell? cell = some v' := by
  rcases w.executes?_cases e with hnone | ⟨f, d, g, i, hg, hi⟩
  · left
    rwa [(follows_perform h hnone).machine.cell?]
  · obtain ⟨hweaves, hretains⟩ := weaves_perform hg hi
    rw [hretains.cell?]
    refine (hweaves.contents hv).imp_right ?_
    rintro ⟨v', hresult, hstores, hcell, hstack, hv'⟩
    obtain ⟨-, -, -, -, hnext⟩ := perform_of_executes? hg hi
    refine ⟨v', ⟨f, d, i, g, _, ⟨hg, (hnext hresult).2, hi, hresult⟩, hstores, hcell, hstack⟩, hv'⟩

theorem isSome_cell?_perform (h : w.Discreet e) {cell : Ref .cell}
    (hcell : (w.machine.heap.cell? cell).isSome) :
    ((w.perform e).machine.heap.cell? cell).isSome := by
  obtain ⟨v, hv⟩ := Option.isSome_iff_exists.mp hcell
  rcases contents_perform h hv with hv' | ⟨v', -, hv'⟩ <;> simp [hv']

/-- A function stays what it is. -/
theorem function?_perform (h : w.Discreet e) {r : Ref .function} {closure : FunctionObject}
    (hr : w.machine.heap.function? r = some closure) :
    (w.perform e).machine.heap.function? r = some closure := by
  rcases w.executes?_cases e with hnone | ⟨f, d, g, i, hg, hi⟩
  · exact (follows_perform h hnone).machine.functions r closure hr
  · obtain ⟨hweaves, hretains⟩ := weaves_perform hg hi
    exact hretains.functions r closure (hweaves.functions hr)

/-- A frame keeps its code and its captured cells, and its slots come by their cells as follows. -/
theorem cell?_perform (h : w.Discreet e) (hg : w.activation? f d = some g)
    (hg' : (w.perform e).activation? f d = some g') :
    (g'.code = g.code ∧ g'.captures = g.captures) ∧ ∀ s, g'.cell? s = g.cell? s ∨
      ∃ i cell, w.executes? f d e = some i ∧ g'.cell? s = some cell ∧
        w.machine.heap.cell? cell = none ∧
          Local.Starts ⟨w.machine.heap, g⟩ i s ⟨(w.perform e).machine.heap, g'⟩ cell := by
  -- a frame that executes nothing is as it was
  have hidle (htie : g'.tie = g.tie) : (g'.code = g.code ∧ g'.captures = g.captures) ∧
      ∀ s, g'.cell? s = g.cell? s := by
    simp only [Frame.tie, Prod.mk.injEq] at htie
    exact ⟨⟨htie.1, htie.2.1⟩, fun s => by rw [Frame.cell?, Frame.cell?, htie.2.2]⟩
  rcases w.executes?_cases e with hnone | ⟨f₀, d₀, g₀, i, hg₀, hi⟩
  · rcases (follows_perform h hnone).frames f d g' hg' with ⟨old, hold, htie⟩ | ⟨hold, -⟩
    · cases hg.symm.trans hold
      exact ⟨(hidle htie).1, fun s => .inl ((hidle htie).2 s)⟩
    · cases hg.symm.trans hold
  · obtain ⟨w₁, hheap, hactivation, hfollows, hnext⟩ := perform_of_executes? hg₀ hi
    rcases hfollows.frames f d g' hg' with ⟨old, hold, htie⟩ | ⟨hold, -⟩
    · rw [hactivation] at hold
      split at hold
      · rename_i hsame
        obtain ⟨rfl, rfl⟩ := hsame
        cases hg.symm.trans hg₀
        have hsame := Exec.keeps_step.same ⟨w.machine.heap, g⟩
        have hstep := (weaves_perform hg hi).1
        obtain rfl := Option.some.inj hold
        simp only [Frame.tie, Prod.mk.injEq] at htie
        refine ⟨⟨htie.1.trans hsame.code, htie.2.1.trans hsame.captures⟩, fun s => ?_⟩
        rw [Frame.cell?, htie.2.2]
        refine (hstep.cell?_cases s).imp_right ?_
        rintro ⟨cell, hnew, hfresh, hstarts⟩
        refine ⟨i, cell, hi, hnew, hfresh, hstarts.mono ?_ fun hresult => ?_⟩
        · rw [← hheap]
          exact hfollows.machine.cell? cell
        · exact Option.some.inj (hg'.symm.trans (hnext hresult).2)
      · cases hg.symm.trans hold
        exact ⟨(hidle htie).1, fun s => .inl ((hidle htie).2 s)⟩
    · rw [hactivation] at hold
      split at hold
      · cases hold
      · cases hg.symm.trans hold

/-! ## Cells that are there -/

/-- Every cell that a frame or a function has is in the heap. -/
structure Tied (w : World) : Prop where
  heap : w.machine.heap.Tied
  frames : ∀ f d g, w.activation? f d = some g → g.Tied w.machine.heap

theorem tied_empty : ({} : World).Tied := by
  refine ⟨fun r closure hr => ?_, fun f d g hg => ?_⟩
  · simp [Heap.function?] at hr
  · simp [activation?, fiber?] at hg

theorem Follows.tied (H : w.Follows w') (hw : w.Tied) : w'.Tied := by
  have hheap : w'.machine.heap.Tied := hw.heap.retains H.machine
  refine ⟨hheap, fun f d g' hg' => ?_⟩
  rcases H.frames f d g' hg' with ⟨g, hg, htie⟩ | ⟨-, hfresh⟩
  · have hold := hw.frames f d g hg
    simp only [Frame.tie, Prod.mk.injEq] at htie
    refine ⟨fun cell hcell => ?_, fun s cell hcell => ?_⟩ <;> rw [H.machine.cell?]
    · exact hold.captures cell (htie.2.1 ▸ hcell)
    · refine hold.cells s cell ?_
      rwa [Frame.cell?, htie.2.2] at hcell
  · obtain ⟨r, closure, -, hr, hbody⟩ := hfresh.executes
    refine ⟨fun cell hcell => hheap r closure hr cell ?_, fun s cell hcell => ?_⟩
    · rwa [FunctionObject.captures, hbody]
    · simp [Frame.cell?, hfresh.cells] at hcell

theorem tied_perform (h : w.Discreet e) (hw : w.Tied) : (w.perform e).Tied := by
  rcases w.executes?_cases e with hnone | ⟨f, d, g, i, hg, hi⟩
  · exact (follows_perform h hnone).tied hw
  · obtain ⟨w₁, hheap, hactivation, hfollows, -⟩ := perform_of_executes? hg hi
    obtain ⟨hweaves, -⟩ := weaves_perform hg hi
    have hcaptures := (Exec.keeps_step.same ⟨w.machine.heap, g⟩).captures
    obtain ⟨hheap₁, hframe⟩ := hweaves.tied hcaptures hw.heap (hw.frames f d g hg)
    refine hfollows.tied ⟨hheap ▸ hheap₁, fun f' d' g' hg' => ?_⟩
    rw [hactivation] at hg'
    rw [hheap]
    split at hg'
    · cases hg'
      exact hframe
    · have hold := hw.frames f' d' g' hg'
      exact ⟨fun cell hcell => hweaves.isSome_cell? (hold.captures cell hcell),
        fun s cell hcell => hweaves.isSome_cell? (hold.cells s cell hcell)⟩

/-! ## Histories -/

theorem tied_run {events : List Event} (h : w.Throughout Discreet events) (hw : w.Tied) :
    (w.run events).Tied := by
  induction events generalizing w with
  | nil => exact hw
  | cons e rest ih => exact ih h.2 (tied_perform h.1 hw)

theorem isSome_cell?_run {events : List Event} (h : w.Throughout Discreet events)
    {cell : Ref .cell} (hcell : (w.machine.heap.cell? cell).isSome) :
    ((w.run events).machine.heap.cell? cell).isSome := by
  induction events generalizing w with
  | nil => exact hcell
  | cons e rest ih => exact ih h.2 (isSome_cell?_perform h.1 hcell)

/-! ## Contents -/

/-- A cell that is stored to holds the operand afterwards. -/
theorem cell?_of_stores (hw : w.Tied) {cell : Ref .cell} {v : Value} (h : w.Discreet e)
    (H : w.Stores e cell v) : (w.perform e).machine.heap.cell? cell = some v := by
  obtain ⟨f, d, i, g, g', hcompletes, hstores, hcell, hstack⟩ := H
  obtain ⟨cell', v', hcell', hstack', hholds⟩ := hcompletes.weaves.stored hstores
  cases hcell.symm.trans hcell'
  cases hstack.symm.trans hstack'
  -- the frame has the cell, so it is in the heap
  have hframe := (tied_perform h hw).frames f d g' hcompletes.after
  have hsome : ((w.perform e).machine.heap.cell? cell).isSome := by
    simp only [Instruction.cell?] at hcell
    split at hcell
    · exact hframe.cells _ _ hcell
    · exact hframe.cells _ _ hcell
    · exact hframe.captures _ (List.mem_of_getElem? hcell)
    · exact hframe.captures _ (List.mem_of_getElem? hcell)
    · cases hcell
  obtain ⟨u, hu⟩ := Option.isSome_iff_exists.mp hsome
  rw [hu, hholds u hu]

/-- At most one instruction is executed in an event. -/
theorem Completes.unique {f' : FiberId} {d' : Nat} {i i' : Instruction} {h h' : Frame}
    (H : w.Completes f d e i g g') (H' : w.Completes f' d' e i' h h') :
    i = i' ∧ g = h ∧ g' = h' := by
  obtain ⟨fiber, rest, hf, hframes, hd, hexecutes, rfl⟩ := of_executes? H.before H.executes
  obtain ⟨fiber', rest', hf', hframes', hd', hexecutes', he⟩ := of_executes? H'.before H'.executes
  cases he
  cases hf.symm.trans hf'
  cases hframes.symm.trans hframes'
  subst hd hd'
  cases hexecutes.symm.trans hexecutes'
  exact ⟨rfl, rfl, Option.some.inj (H.after.symm.trans H'.after)⟩

theorem Stores.unique {cell cell' : Ref .cell} {v v' : Value} (H : w.Stores e cell v)
    (H' : w.Stores e cell' v') : cell = cell' := by
  obtain ⟨f, d, i, g, g', hcompletes, -, hcell, -⟩ := H
  obtain ⟨f', d', i', h, h', hcompletes', -, hcell', -⟩ := H'
  obtain ⟨rfl, rfl, rfl⟩ := hcompletes.unique hcompletes'
  exact Option.some.inj (hcell.symm.trans hcell')

theorem cell?_of_loads {cell : Ref .cell} {v : Value} (H : w.Loads e cell v) :
    (w.perform e).machine.heap.cell? cell = some v := by
  obtain ⟨f, d, i, g, g', hcompletes, hloads, hcell, hstack⟩ := H
  have hcurrent := instruction_of_executes? hcompletes.before hcompletes.executes
  obtain ⟨cell', v', hcell', hv', hstack'⟩ := Exec.loaded (l := ⟨w.machine.heap, g⟩) hcurrent
    hloads hcompletes.run
  cases hcell.symm.trans hcell'
  cases hstack.symm.trans hstack'
  exact hv'

theorem not_stores_of_loads {cell : Ref .cell} {v : Value} (H : w.Loads e cell v)
    (cell' : Ref .cell) (v' : Value) : ¬ w.Stores e cell' v' := by
  rintro ⟨f, d, i, g, g', hcompletes, hstores, -⟩
  obtain ⟨f', d', i', h, h', hcompletes', hloads, -⟩ := H
  obtain ⟨rfl, -, -⟩ := hcompletes.unique hcompletes'
  cases hstores.symm.trans (Opcode.not_storesCell_of_loadsCell hloads)

/-- A cell that nothing is stored to keeps its value. -/
theorem cell?_run {events : List Event} {cell : Ref .cell} {v : Value}
    (h : w.Throughout Discreet events)
    (hstores : w.Throughout (fun w e => ∀ u, ¬ w.Stores e cell u) events)
    (hv : w.machine.heap.cell? cell = some v) :
    (w.run events).machine.heap.cell? cell = some v := by
  induction events generalizing w with
  | nil => exact hv
  | cons e rest ih =>
    refine ih h.2 hstores.2 ?_
    rcases contents_perform h.1 hv with hv' | ⟨u, hu, -⟩
    · exact hv'
    · exact absurd hu (hstores.1 u)

/-! ## Sharing -/

theorem cell?_of_renews {s : Nat} (H : w.Renews f d s e) :
    ∃ g' cell, (w.perform e).activation? f d = some g' ∧ g'.cell? s = some cell ∧
      w.machine.heap.cell? cell = none := by
  obtain ⟨i, g, g', hcompletes, hi, rfl⟩ := H
  obtain ⟨cell, hcell, hfresh⟩ := hcompletes.weaves.renewed hi
  exact ⟨g', cell, hcompletes.after, hcell, hfresh⟩

/-- A slot keeps its cell as long as it gets no new one. -/
theorem cell?_perform_of_not_renews {s : Nat} {cell : Ref .cell} (h : w.Discreet e)
    (hg : w.activation? f d = some g) (hg' : (w.perform e).activation? f d = some g')
    (hrenews : ¬ w.Renews f d s e) (hcell : g.cell? s = some cell) : g'.cell? s = some cell := by
  rcases (cell?_perform h hg hg').2 s with hold | ⟨i, new, hi, -, -, hstarts⟩
  · exact hold.trans hcell
  · cases hstarts with
    | renewed hopcode operand completes =>
      exact absurd ⟨i, g, g', ⟨hg, hg', hi, completes⟩, hopcode, operand⟩ hrenews
    | opened first => cases hcell.symm.trans first
    | stored first => cases hcell.symm.trans first

/-- A cell that a slot does not have is never given to it. -/
theorem cell?_perform_ne {s : Nat} {cell : Ref .cell} (h : w.Discreet e)
    (hg : w.activation? f d = some g) (hg' : (w.perform e).activation? f d = some g')
    (hsome : (w.machine.heap.cell? cell).isSome) (hcell : g.cell? s ≠ some cell) :
    g'.cell? s ≠ some cell := by
  intro heq
  rcases (cell?_perform h hg hg').2 s with hold | ⟨i, new, -, hnew, hfresh, -⟩
  · exact hcell (hold.symm.trans heq)
  · cases hnew.symm.trans heq
    rw [hfresh] at hsome
    cases hsome

/-- The frame at a depth is there before each event. -/
abbrev Lasts (f : FiberId) (d : Nat) : World → List Event → Prop :=
  Throughout fun w _ => (w.activation? f d).isSome

theorem Lasts.next {events : List Event} (h : w.Lasts f d (e :: events))
    (hg' : (w.run (e :: events)).activation? f d = some g') :
    ∃ next, (w.perform e).activation? f d = some next := by
  cases events with
  | nil => exact ⟨g', hg'⟩
  | cons e' rest => exact Option.isSome_iff_exists.mp h.2.1

/-- Once a slot has another cell, it stays so. -/
theorem cell?_run_ne {events : List Event} {s : Nat} {cell : Ref .cell}
    (h : w.Throughout Discreet events) (hlasts : w.Lasts f d events)
    (hg : w.activation? f d = some g) (hg' : (w.run events).activation? f d = some g')
    (hsome : (w.machine.heap.cell? cell).isSome) (hcell : g.cell? s ≠ some cell) :
    g'.cell? s ≠ some cell := by
  induction events generalizing w g with
  | nil =>
    cases hg.symm.trans hg'
    exact hcell
  | cons e rest ih =>
    obtain ⟨next, hnext⟩ := hlasts.next hg'
    exact ih h.2 hlasts.2 hnext hg' (isSome_cell?_perform h.1 hsome)
      (cell?_perform_ne h.1 hg hnext hsome hcell)

/-- Along a run of a frame a slot keeps its cell if and only if it gets no new one. -/
theorem cell?_run_iff {events : List Event} {s : Nat} {cell : Ref .cell}
    (h : w.Throughout Discreet events) (hlasts : w.Lasts f d events)
    (hg : w.activation? f d = some g) (hg' : (w.run events).activation? f d = some g')
    (hsome : (w.machine.heap.cell? cell).isSome) (hcell : g.cell? s = some cell) :
    g'.cell? s = some cell ↔ w.Throughout (fun w e => ¬ w.Renews f d s e) events := by
  induction events generalizing w g with
  | nil =>
    cases hg.symm.trans hg'
    exact ⟨fun _ => trivial, fun _ => hcell⟩
  | cons e rest ih =>
    obtain ⟨next, hnext⟩ := hlasts.next hg'
    have hsome' := isSome_cell?_perform h.1 hsome
    by_cases hrenews : w.Renews f d s e
    · refine ⟨fun heq => absurd heq ?_, fun hnever => absurd hrenews hnever.1⟩
      obtain ⟨next', new, hnext', hnew, hfresh⟩ := cell?_of_renews hrenews
      cases hnext.symm.trans hnext'
      refine cell?_run_ne h.2 hlasts.2 hnext hg' hsome' fun heq => ?_
      cases hnew.symm.trans heq
      rw [hfresh] at hsome
      cases hsome
    · have hcell' := cell?_perform_of_not_renews h.1 hg hnext hrenews hcell
      refine (ih h.2 hlasts.2 hnext hg' hsome' hcell').trans ?_
      exact ⟨fun hrest => ⟨hrenews, hrest⟩, fun hall => hall.2⟩

/-- The cells of a closure are those that its capture list stands for in the frame. -/
theorem Makes.resolve? {code : Code} {cells : List (Ref .cell)} (H : w.Makes f d e code cells) :
    ∃ g g', w.activation? f d = some g ∧ (w.perform e).activation? f d = some g' ∧
      code.captures.map g'.resolve? = cells.map some := by
  obtain ⟨i, g, g', r, closure, hcompletes, hi, hstack, hr, hbody⟩ := H
  obtain ⟨r', closure', constant, code', hstack', hr', -, -, hbody', hcells⟩ :=
    hcompletes.weaves.closed hi
  cases hstack.symm.trans hstack'
  cases hr.symm.trans hr'
  cases hbody.symm.trans hbody'
  exact ⟨g, g', hcompletes.before, hcompletes.after, hcells⟩

/-- An instruction that makes a closure gives no slot a new cell. -/
theorem Makes.not_renews {code : Code} {cells : List (Ref .cell)} (H : w.Makes f d e code cells)
    (s : Nat) : ¬ w.Renews f d s e := by
  rintro ⟨i, g, g', hcompletes, hi, -⟩
  obtain ⟨i', h, h', r, closure, hcompletes', hi', -⟩ := H
  obtain ⟨rfl, -, -⟩ := hcompletes.unique hcompletes'
  cases hi.symm.trans hi'

theorem getElem?_of_map_resolve? {captures : List Capture} {cells : List (Ref .cell)} {j : Nat}
    {c : Capture} (h : captures.map g.resolve? = cells.map some) (hc : captures[j]? = some c) :
    cells[j]? = g.resolve? c ∧ (cells[j]?).isSome := by
  have hj := congrArg (·[j]?) h
  simp only [List.getElem?_map, hc, Option.map_some] at hj
  obtain ⟨cell, hcell, heq⟩ := Option.map_eq_some_iff.mp hj.symm
  rw [hcell]
  exact ⟨heq, rfl⟩

/-- Two closures of an activation share the cell of a slot if and only if it got no new one. -/
theorem Makes.share_iff {e₁ e₂ : Event} {between : List Event} {code₁ code₂ : Code}
    {cells₁ cells₂ : List (Ref .cell)} {j₁ j₂ : Nat} {s : UInt32} (hw : w.Tied)
    (h : w.Throughout Discreet (e₁ :: between ++ [e₂])) (H₁ : w.Makes f d e₁ code₁ cells₁)
    (hlasts : (w.perform e₁).Lasts f d between)
    (H₂ : ((w.perform e₁).run between).Makes f d e₂ code₂ cells₂)
    (h₁ : code₁.captures[j₁]? = some (.slot s)) (h₂ : code₂.captures[j₂]? = some (.slot s)) :
    cells₁[j₁]? = cells₂[j₂]? ↔
      (w.perform e₁).Throughout (fun w e => ¬ w.Renews f d s.toNat e) between := by
  obtain ⟨hbefore, hlast⟩ := throughout_append.mp h
  obtain ⟨-, g₁, -, hg₁, hcells₁⟩ := H₁.resolve?
  obtain ⟨g₂, g₂', hg₂, hg₂', hcells₂⟩ := H₂.resolve?
  obtain ⟨hcell₁, hsome₁⟩ := getElem?_of_map_resolve? hcells₁ h₁
  obtain ⟨hcell₂, -⟩ := getElem?_of_map_resolve? hcells₂ h₂
  obtain ⟨cell, hcell⟩ := Option.isSome_iff_exists.mp hsome₁
  rw [hcell] at hcell₁ ⊢
  rw [hcell₂]
  have hsome := ((tied_perform hbefore.1 hw).frames f d g₁ hg₁).cells _ _ hcell₁.symm
  refine Iff.trans ?_ (cell?_run_iff hbefore.2 hlasts hg₁ hg₂ hsome hcell₁.symm)
  constructor
  · intro heq
    refine Classical.not_not.mp fun hne => ?_
    exact cell?_perform_ne hlast.1 hg₂ hg₂' (isSome_cell?_run hbefore.2 hsome) hne heq.symm
  · intro heq
    exact (cell?_perform_of_not_renews hlast.1 hg₂ hg₂' (H₂.not_renews _) heq).symm

/-! ## Cells are variables -/

/-- What happens to cells next in a world, in any event and in any run of an activation. -/
structure Lexical (w : World) : Prop where
  /--
  An activation keeps its code and its captured cells. The cell of a slot changes only to a new
  one: `newCell` makes one for an operand, and the first one is made from the slot's value.
  -/
  slots : ∀ f d e g g', w.Discreet e → w.activation? f d = some g →
    (w.perform e).activation? f d = some g' →
    (g'.code = g.code ∧ g'.captures = g.captures) ∧ ∀ s, g'.cell? s = g.cell? s ∨
      ∃ i cell, w.executes? f d e = some i ∧ g'.cell? s = some cell ∧
        w.machine.heap.cell? cell = none ∧
          Local.Starts ⟨w.machine.heap, g⟩ i s ⟨(w.perform e).machine.heap, g'⟩ cell
  /-- Two closures of an activation share the cell of a slot exactly if it got no new one. -/
  shared : ∀ f d e₁ between e₂ (code₁ code₂ : Code) (cells₁ cells₂ : List (Ref .cell))
    (j₁ j₂ : Nat) (s : UInt32), w.Throughout Discreet (e₁ :: between ++ [e₂]) →
    w.Makes f d e₁ code₁ cells₁ → (w.perform e₁).Lasts f d between →
    ((w.perform e₁).run between).Makes f d e₂ code₂ cells₂ →
    code₁.captures[j₁]? = some (.slot s) → code₂.captures[j₂]? = some (.slot s) →
    (cells₁[j₁]?.isSome ∧ cells₂[j₂]?.isSome) ∧ (cells₁[j₁]? = cells₂[j₂]? ↔
      (w.perform e₁).Throughout (fun w e => ¬ w.Renews f d s.toNat e) between)
  /--
  A closure has the cells that its capture list stands for in the activation that makes it, cells
  of slots and captured ones, in the same order. An activation of a function has its cells.
  -/
  captured : (∀ f d e (code : Code) cells, w.Makes f d e code cells →
      ∃ g', (w.perform e).activation? f d = some g' ∧
        code.captures.map g'.resolve? = cells.map some) ∧
    ∀ f d e g', w.Discreet e → w.activation? f d = none →
      (w.perform e).activation? f d = some g' → g'.Fresh (w.perform e).machine.heap
  /-- No function changes, and one that is bound to another receiver keeps its body and cells. -/
  rebound : (∀ e r closure, w.Discreet e → w.machine.heap.function? r = some closure →
      (w.perform e).machine.heap.function? r = some closure) ∧
    (∀ f d e i g g', w.Completes f d e i g g' → i.opcode = .bind →
      ∃ receiver r r' rest, g.stack = receiver :: .function r :: rest ∧
        g'.stack = .function r' :: rest ∧ (w.perform e).machine.heap.Rebound r r') ∧
    (∀ r args caller value m, w.machine.prepareInvoke (.function r) "bind" args caller =
      (.complete value, m) → ∃ r', value = .function r' ∧ m.heap.Rebound r r') ∧
    ∀ f d e i g g', w.Completes f d e i g g' → i.opcode = .newObject →
      ∃ self args rest, g.args = args :: rest ∧ g'.stack = .object self :: g.stack ∧
        Local.Binds ⟨(w.perform e).machine.heap, g'⟩ self args.keywords.entries
  /-- A store changes its cell and no other one. -/
  written : ∀ e cell v, w.Discreet e → w.Stores e cell v →
    (w.perform e).machine.heap.cell? cell = some v ∧
      ∀ other u, other ≠ cell → w.machine.heap.cell? other = some u →
        (w.perform e).machine.heap.cell? other = some u
  /-- A load pushes what its cell holds, which is what it held before the last store to it. -/
  read : ∀ events e cell u v, w.Throughout Discreet (events ++ [e]) →
    w.machine.heap.cell? cell = some u →
    w.Throughout (fun w e => ∀ v, ¬ w.Stores e cell v) events →
    (w.run events).Loads e cell v → v = u

/-- A frame that is new has the cells of the function that it executes. -/
theorem fresh_perform (h : w.Discreet e) (hg : w.activation? f d = none)
    (hg' : (w.perform e).activation? f d = some g') : g'.Fresh (w.perform e).machine.heap := by
  have hfollows : ∃ w₁ : World, w₁.Follows (w.perform e) ∧ w₁.activation? f d = none := by
    rcases w.executes?_cases e with hnone | ⟨f₀, d₀, g₀, i, hg₀, hi⟩
    · exact ⟨w, follows_perform h hnone, hg⟩
    · obtain ⟨w₁, -, hactivation, hfollows, -⟩ := perform_of_executes? hg₀ hi
      refine ⟨w₁, hfollows, ?_⟩
      rw [hactivation, if_neg, hg]
      rintro ⟨rfl, rfl⟩
      cases hg.symm.trans hg₀
  obtain ⟨w₁, H, hw₁⟩ := hfollows
  rcases H.frames f d g' hg' with ⟨g, hold, -⟩ | ⟨-, hfresh⟩
  · cases hw₁.symm.trans hold
  · exact hfresh

theorem Completes.run_instruction {i : Instruction} (H : w.Completes f d e i g g') :
    (Exec.instruction i).run ⟨w.machine.heap, g⟩ =
      (.ok .next, ⟨(w.perform e).machine.heap, g'⟩) := by
  have hcurrent := instruction_of_executes? H.before H.executes
  rw [← Exec.step_of_some (l := ⟨w.machine.heap, g⟩) hcurrent]
  exact H.run

/-- **Cells are variables.** In every world that a host which leaves cells alone can reach. -/
theorem lexical_run {events : List Event} (h : ({} : World).Throughout Discreet events) :
    (({} : World).run events).Lexical := by
  have hw := tied_run h tied_empty
  generalize ({} : World).run events = w at hw
  refine ⟨?_, ?_, ⟨?_, ?_⟩, ⟨?_, ?_, ?_, ?_⟩, ?_, ?_⟩
  · exact fun f d e g g' he hg hg' => cell?_perform he hg hg'
  · intro f d e₁ between e₂ code₁ code₂ cells₁ cells₂ j₁ j₂ s he H₁ hlasts H₂ h₁ h₂
    refine ⟨?_, H₁.share_iff hw he hlasts H₂ h₁ h₂⟩
    obtain ⟨-, g₁, -, -, hcells₁⟩ := H₁.resolve?
    obtain ⟨-, g₂, -, -, hcells₂⟩ := H₂.resolve?
    exact ⟨(getElem?_of_map_resolve? hcells₁ h₁).2, (getElem?_of_map_resolve? hcells₂ h₂).2⟩
  · intro f d e code cells H
    obtain ⟨-, g', -, hg', hcells⟩ := H.resolve?
    exact ⟨g', hg', hcells⟩
  · exact fun f d e g' he hg hg' => fresh_perform he hg hg'
  · exact fun e r closure he hr => function?_perform he hr
  · exact fun f d e i g g' H hi => Exec.rebound_bind hi H.run_instruction
  · exact fun r args caller value m hm => Machine.rebound_prepareInvoke hm
  · exact fun f d e i g g' H hi => Exec.rebound_newObject hi H.run_instruction
  · intro e cell v he H
    refine ⟨cell?_of_stores hw he H, fun other u hne hu => ?_⟩
    rcases contents_perform he hu with hu' | ⟨v', H', -⟩
    · exact hu'
    · exact absurd (H'.unique H) hne
  · intro events e cell u v he hu hstores H
    obtain ⟨hbefore, hlast⟩ := throughout_append.mp he
    have hu' := cell?_run hbefore hstores hu
    rcases contents_perform hlast.1 hu' with hkept | ⟨v', H', -⟩
    · exact Option.some.inj ((cell?_of_loads H).symm.trans hkept)
    · exact absurd H' (not_stores_of_loads H cell v')

/-- A function that captures a slot. -/
def counting : Code :=
  { name := none, signature := {}, captures := [.slot 2], instructions := #[] }

/-- A module that makes two closures of a slot, gives the slot a new cell and makes a third. -/
def looping : LinkedModule where
  name := "looping"
  pool := #[.code counting, .code {
    name := none, signature := {}, captures := []
    instructions := #[{ opcode := .makeFunction }, { opcode := .makeFunction },
      { opcode := .pushNull }, { opcode := .newCell, operand := 2 }, { opcode := .makeFunction }] }]

/-- The module is about to make its first closure. -/
def opening : List Event :=
  [.spawn, .start ⟨0⟩ (.execute looping .unlimited), .advance ⟨0⟩]

/-- Whether the instruction of the frame at a depth leads on to the next one. -/
def leadsOn (w : World) (f : FiberId) (d : Nat) : Bool :=
  (w.activation? f d).any fun g =>
    match (Exec.step.run ⟨w.machine.heap, g⟩).1 with
    | .ok .next => true
    | _ => false

/-- The code constant at an index, for the frame at a depth. -/
def constant? (w : World) (f : FiberId) (d i : Nat) : Option Code :=
  (w.activation? f d).bind fun g =>
    match g.scope.constants[i]? with
    | some (.code r) => w.machine.heap.code? r
    | _ => none

theorem completes_of_leadsOn {i : Instruction} (hi : w.executes? f d e = some i)
    (h : w.leadsOn f d) : ∃ g g', w.Completes f d e i g g' := by
  cases hg : w.activation? f d with
  | none => simp [leadsOn, hg] at h
  | some g =>
    simp only [leadsOn, hg, Option.any_some] at h
    split at h
    · rename_i hnext
      obtain ⟨-, -, -, -, hafter⟩ := perform_of_executes? hg hi
      exact ⟨g, _, hg, (hafter hnext).2, hi, hnext⟩
    · cases h

theorem makes_of_leadsOn {i : Instruction} {code : Code} (hi : w.executes? f d e = some i)
    (h : w.leadsOn f d) (hmake : i.opcode = .makeFunction)
    (hcode : w.constant? f d i.operand.toNat = some code) : ∃ cells, w.Makes f d e code cells := by
  obtain ⟨g, g', H⟩ := completes_of_leadsOn hi h
  obtain ⟨r, closure, constant, code', hstack, hr, hconstant, hcode', hbody, -⟩ :=
    H.weaves.closed hmake
  simp only [constant?, H.before, Option.bind_some, hconstant, hcode'] at hcode
  cases hcode
  exact ⟨closure.captures, i, g, g', r, closure, H, hmake, hstack, hr, hbody⟩

/-- The first two closures share the cell of the slot, and the third one has another. -/
theorem lexical_looping :
    let w := run {} opening
    let w₃ := (w.perform (.advance ⟨0⟩)).run (List.replicate 3 (.advance ⟨0⟩))
    ∃ cells₁ cells₂ cells₃, w.Makes ⟨0⟩ 0 (.advance ⟨0⟩) counting cells₁ ∧
      (w.perform (.advance ⟨0⟩)).Makes ⟨0⟩ 0 (.advance ⟨0⟩) counting cells₂ ∧
      w₃.Makes ⟨0⟩ 0 (.advance ⟨0⟩) counting cells₃ ∧
      cells₁[0]? = cells₂[0]? ∧ cells₁[0]? ≠ cells₃[0]? := by
  intro w w₃
  have hstep (w : World) : w.Discreet (.advance ⟨0⟩) := by rintro _ ⟨⟩
  have hlexical : w.Lexical :=
    lexical_run ⟨by rintro _ ⟨⟩, by rintro _ ⟨⟩, hstep _, trivial⟩
  have hmakes (w : World) (hi : w.executes? ⟨0⟩ 0 (.advance ⟨0⟩) = some { opcode := .makeFunction })
      (h : w.leadsOn ⟨0⟩ 0) (hcode : w.constant? ⟨0⟩ 0 0 = some counting) :
      ∃ cells, w.Makes ⟨0⟩ 0 (.advance ⟨0⟩) counting cells := makes_of_leadsOn hi h rfl hcode
  obtain ⟨cells₁, H₁⟩ := hmakes w (by decide +kernel) (by decide +kernel) (by decide +kernel)
  obtain ⟨cells₂, H₂⟩ := hmakes (w.perform (.advance ⟨0⟩)) (by decide +kernel) (by decide +kernel)
    (by decide +kernel)
  obtain ⟨cells₃, H₃⟩ := hmakes w₃ (by decide +kernel) (by decide +kernel) (by decide +kernel)
  obtain ⟨g, g', hrenews⟩ := completes_of_leadsOn (f := ⟨0⟩) (d := 0) (e := .advance ⟨0⟩)
    (w := ((w.perform (.advance ⟨0⟩)).perform (.advance ⟨0⟩)).perform (.advance ⟨0⟩))
    (i := { opcode := .newCell, operand := 2 }) (by decide +kernel) (by decide +kernel)
  have hlasts : (w.perform (.advance ⟨0⟩)).Lasts ⟨0⟩ 0 (List.replicate 3 (.advance ⟨0⟩)) := by
    simp only [List.replicate, Throughout]
    refine ⟨?_, ?_, ?_, trivial⟩ <;> decide +kernel
  refine ⟨cells₁, cells₂, cells₃, H₁, H₂, H₃, ?_, fun heq => ?_⟩
  · rw [← run_nil (w := w.perform _)] at H₂
    obtain ⟨-, hshared⟩ := hlexical.shared ⟨0⟩ 0 (.advance ⟨0⟩) [] (.advance ⟨0⟩) counting counting
      cells₁ cells₂ 0 0 2 ⟨hstep _, hstep _, trivial⟩ H₁ trivial H₂ rfl rfl
    exact hshared.mpr trivial
  · obtain ⟨-, hshared⟩ := hlexical.shared ⟨0⟩ 0 (.advance ⟨0⟩) (List.replicate 3 (.advance ⟨0⟩))
      (.advance ⟨0⟩) counting counting cells₁ cells₃ 0 0 2
      ⟨hstep _, hstep _, hstep _, hstep _, hstep _, trivial⟩ H₁ hlasts H₃ rfl rfl
    obtain ⟨-, -, hnever, -⟩ := hshared.mp heq
    exact hnever ⟨_, g, g', hrenews, rfl, rfl⟩

end World

end FiberMachine
