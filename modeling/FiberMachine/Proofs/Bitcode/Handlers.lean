import FiberMachine.Proofs.Bitcode.Linking

/-!
# Which region handles an instruction

Try regions may nest, overlap and be declared in any order. `Region.Decides regions i k r` says that
`r`, the region declared at position `k`, is the narrowest of those that cover instruction `i`, and
the last declared of these. There is one if and only if any region covers `i`, and it gives the
instruction its handler in every function that links (`linkFunction_handlers`).
-/

namespace FiberMachine.Bitcode

namespace Region

variable {regions : List Region} {i k : Nat} {r : Region}

/-- The instruction lies between the ends of the region. -/
def Spans (r : Region) (i : Nat) : Prop := r.start ≤ i ∧ i < r.stop

theorem covers_iff : r.covers i ↔ r.Spans i := by
  simp [covers, Spans]

/-- The region at position `k` is the narrowest that spans `i`, and the last of these. -/
structure Decides (regions : List Region) (i k : Nat) (r : Region) : Prop where
  declared : regions[k]? = some r
  spans : r.Spans i
  narrowest : ∀ s ∈ regions, s.Spans i → r.stop - r.start ≤ s.stop - s.start
  last : ∀ (j : Nat) s, regions[j]? = some s → s.Spans i →
    s.stop - s.start = r.stop - r.start → j ≤ k

/-- Every instruction of the one region is in the other, but not the other way round. -/
def StrictlyWithin (inner outer : Region) : Prop :=
  outer.start ≤ inner.start ∧ inner.stop ≤ outer.stop ∧
    (outer.start < inner.start ∨ inner.stop < outer.stop)

namespace Decides

theorem mem (h : Decides regions i k r) : r ∈ regions := List.mem_of_getElem? h.declared

theorem unique (h : Decides regions i k r) {k' : Nat} {r' : Region}
    (h' : Decides regions i k' r') : k = k' ∧ r = r' := by
  have hle := h.narrowest r' h'.mem h'.spans
  have hge := h'.narrowest r h.mem h.spans
  have hk : k = k' := Nat.le_antisymm
    (h'.last k r h.declared h.spans (by omega)) (h.last k' r' h'.declared h'.spans (by omega))
  subst hk
  exact ⟨rfl, Option.some.inj (h.declared.symm.trans h'.declared)⟩

/-- A region that ends where it starts or before decides nothing. -/
theorem start_lt_stop (h : Decides regions i k r) : r.start < r.stop :=
  Nat.lt_of_le_of_lt h.spans.1 h.spans.2

/-- A region does not decide where one that is nested in it spans the instruction too. -/
theorem not_strictlyWithin (h : Decides regions i k r) {inner : Region} (hmem : inner ∈ regions)
    (hspans : inner.Spans i) : ¬ inner.StrictlyWithin r := by
  rintro ⟨hstart, hstop, hstrict⟩
  have hle := h.narrowest inner hmem hspans
  have hlt := Nat.lt_of_le_of_lt hspans.1 hspans.2
  omega

/-- Declaring one more region first leaves the decision, unless that region is narrower. -/
theorem cons (h : Decides regions i k r) {first : Region}
    (hfirst : first.Spans i → r.stop - r.start ≤ first.stop - first.start) :
    Decides (first :: regions) i (k + 1) r where
  declared := h.declared
  spans := h.spans
  narrowest := List.forall_mem_cons.mpr ⟨hfirst, h.narrowest⟩
  last j s hs hspans hwidth := by
    cases j with
    | zero => exact Nat.zero_le _
    | succ j => exact Nat.succ_le_succ (h.last j s hs hspans hwidth)

/-- A region that is declared first decides if all others that span the instruction are wider. -/
theorem head {first : Region} (hspans : first.Spans i)
    (hwider : ∀ s ∈ regions, s.Spans i → first.stop - first.start < s.stop - s.start) :
    Decides (first :: regions) i 0 first where
  declared := rfl
  spans := hspans
  narrowest := List.forall_mem_cons.mpr ⟨fun _ => Nat.le_refl _, fun s hs hi =>
    Nat.le_of_lt (hwider s hs hi)⟩
  last j s hs hi hwidth := by
    cases j with
    | zero => exact Nat.le_refl _
    | succ j => exact absurd hwidth (Nat.ne_of_gt (hwider s (List.mem_of_getElem? hs) hi))

end Decides

/-! ## Sorted regions -/

theorem width_le_trans (a b c : Region) :
    decide (b.width ≤ a.width) → decide (c.width ≤ b.width) → decide (c.width ≤ a.width) := by
  simp only [decide_eq_true_eq]
  omega

theorem width_le_total (a b : Region) :
    (decide (b.width ≤ a.width) || decide (a.width ≤ b.width)) = true := by
  simp only [Bool.or_eq_true, decide_eq_true_eq]
  omega

/-- The region declared first is sorted in behind those that are wider, and before all others. -/
theorem sort_cons (first : Region) (regions : List Region) :
    ∃ wider others, sort (first :: regions) = wider ++ first :: others ∧
      sort regions = wider ++ others ∧ (∀ s ∈ wider, first.width < s.width) ∧
      ∀ s ∈ others, s.width ≤ first.width := by
  obtain ⟨wider, others, hcons, hsort, hwider⟩ :=
    List.mergeSort_cons width_le_trans width_le_total first regions
  have hsorted := List.pairwise_mergeSort width_le_trans width_le_total (first :: regions)
  rw [hcons, List.pairwise_append, List.pairwise_cons] at hsorted
  refine ⟨wider, others, hcons, hsort, fun s hs => ?_, fun s hs => ?_⟩
  · simpa using hwider s hs
  · simpa using hsorted.2.1.1 s hs

/-- The last of the sorted regions that cover an instruction is the one that decides. -/
theorem exists_decides (h : ((sort regions).filter (·.covers i)).getLast? = some r) :
    ∃ k, Decides regions i k r := by
  induction regions generalizing r with
  | nil => simp [sort] at h
  | cons first regions ih =>
    obtain ⟨wider, others, hcons, hsort, hwider, hothers⟩ := sort_cons first regions
    rw [hsort, List.filter_append, List.getLast?_append] at ih
    rw [hcons, List.filter_append, List.filter_cons] at h
    cases hlast : (others.filter (·.covers i)).getLast? with
    | some s =>
      -- Something that is at most as wide as `first` covers `i`, so `first` makes no difference.
      obtain rfl : s = r := by
        split at h <;> simpa [List.getLast?_append, List.getLast?_cons, hlast] using h
      obtain ⟨k, hk⟩ := ih (by rw [hlast, Option.some_or])
      have hmem : s ∈ others := List.mem_of_mem_filter (List.mem_of_getLast? hlast)
      exact ⟨k + 1, hk.cons fun _ => hothers s hmem⟩
    | none =>
      have hnone := List.getLast?_eq_none_iff.mp hlast
      rw [hnone] at h
      split at h
      · rename_i hfirst
        obtain rfl : first = r := by simpa [List.getLast?_append] using h
        refine ⟨0, .head (covers_iff.mp hfirst) fun s hs hspans => ?_⟩
        have hmem : s ∈ wider ++ others := hsort ▸ List.mem_mergeSort.mpr hs
        rcases List.mem_append.mp hmem with hs | hs
        · exact hwider s hs
        · exact absurd (covers_iff.mpr hspans) (List.filter_eq_nil_iff.mp hnone s hs)
      · rename_i hfirst
        rw [List.append_nil] at h
        obtain ⟨k, hk⟩ := ih (by rw [hlast, Option.none_or, h])
        exact ⟨k + 1, hk.cons fun hspans => absurd (covers_iff.mpr hspans) hfirst⟩

theorem lastHandler?_eq_none_iff :
    lastHandler? (sort regions) i = none ↔ ∀ r ∈ regions, ¬ r.Spans i := by
  rw [lastHandler?, Option.map_eq_none_iff, List.getLast?_eq_none_iff, List.filter_eq_nil_iff]
  simp only [covers_iff, sort, List.mem_mergeSort]

theorem lastHandler?_eq_some_iff {handler : UInt32} :
    lastHandler? (sort regions) i = some handler ↔
      ∃ k r, Decides regions i k r ∧ r.handler = handler := by
  constructor
  · intro h
    obtain ⟨r, hr, hhandler⟩ := Option.map_eq_some_iff.mp h
    obtain ⟨k, hk⟩ := exists_decides hr
    exact ⟨k, r, hk, hhandler⟩
  · rintro ⟨k, r, hk, rfl⟩
    cases hlast : ((sort regions).filter (·.covers i)).getLast? with
    | none =>
      have hnone : lastHandler? (sort regions) i = none := by
        rw [lastHandler?, hlast, Option.map_none]
      exact absurd hk.spans (lastHandler?_eq_none_iff.mp hnone r hk.mem)
    | some s =>
      obtain ⟨k', hk'⟩ := exists_decides hlast
      rw [lastHandler?, hlast, (hk.unique hk').2, Option.map_some]

end Region

/-! ## Linked functions -/

variable {pool pool' : Pool}

/-- The region lies between the instructions that the labels of the try region mark. -/
structure Function.Places (f : Function) (region : TryRegion) (r : Region) : Prop where
  start : f.MarkedAt region.start r.start
  stop : f.MarkedAt region.stop r.stop
  handler : f.MarkedAt region.handler r.handler.toNat

theorem places_of_resolveRegion {f : Function} {labels : Labels}
    (hlabels : labelsOf f.ops = .ok labels) {region : TryRegion} {r : Region}
    (h : resolveRegion labels region = .ok r) : f.Places region r := by
  have hhandler := resolveRegion_handler h
  obtain ⟨start, hstart, h⟩ := bind_eq_ok h
  obtain ⟨stop, hstop, h⟩ := bind_eq_ok h
  obtain ⟨_, _, h⟩ := bind_eq_ok h
  obtain ⟨_, _, h⟩ := bind_eq_ok h
  cases h
  exact ⟨markedAt_of_resolve hlabels hstart, markedAt_of_resolve hlabels hstop,
    markedAt_of_resolve hlabels hhandler⟩

theorem forall₂_of_mapM {α β : Type} {g : α → Except LinkError β} {as : List α} {bs : List β}
    (h : as.mapM g = .ok bs) : List.Forall₂ (fun a b => g a = .ok b) as bs := by
  induction as generalizing bs with
  | nil =>
    cases h
    exact .nil
  | cons a as ih =>
    rw [List.mapM_cons] at h
    obtain ⟨b, hb, h⟩ := bind_eq_ok h
    obtain ⟨rest, hrest, h⟩ := bind_eq_ok h
    cases h
    exact .cons hb (ih hrest)

theorem regions_of_layoutOf {f : Function} {layout : Layout} (h : layoutOf f = .ok layout) :
    ∃ regions, List.Forall₂ f.Places f.regions regions ∧
      layout.handlers = handlersOf (f.ops.countP Op.isInstruction) (Region.sort regions) := by
  obtain ⟨labels, hlabels, h⟩ := bind_eq_ok h
  obtain ⟨regions, hregions, h⟩ := bind_eq_ok h
  cases h
  exact ⟨regions, (forall₂_of_mapM hregions).imp fun _ _ => places_of_resolveRegion hlabels, rfl⟩

/-- Instructions are numbered in order, whatever labels stand between them. -/
theorem linkOps_handler {layout : Layout} {ops : List Op} {index : Nat} {ranges : List SourceRange}
    {instructions : List Instruction}
    (h : (linkOps layout index ranges ops).run pool = .ok (instructions, pool')) {k : Nat}
    {i : Instruction} (hi : instructions[k]? = some i) :
    i.handler = layout.handlerAt (index + k) := by
  induction ops generalizing index ranges instructions k pool with
  | nil =>
    unfold linkOps at h
    cases h
    cases hi
  | cons op rest ih =>
    cases hop : op.isInstruction with
    | false =>
      obtain ⟨l, rfl⟩ := Op.eq_label_of_not_isInstruction hop
      rw [linkOps] at h
      exact ih h hi
    | true =>
      rw [linkOps_cons hop] at h
      obtain ⟨⟨opcode, operand⟩, _, _, h⟩ := Linker.run_bind_eq_ok h
      obtain ⟨others, _, hrest, h⟩ := Linker.run_bind_eq_ok h
      cases h
      cases k with
      | zero =>
        cases hi
        rfl
      | succ k =>
        rw [ih hrest hi]
        congr 1
        omega

/--
An instruction of a linked function has no handler exactly if no try region spans it, and otherwise
that of the narrowest region that does, the last declared one if there are several. So a nested
region wins over those around it, in whatever order they are declared, and a region that is empty
or inverted handles nothing.
-/
theorem linkFunction_handlers {f : Function} {code : Code}
    (h : (linkFunction f).run pool = .ok (code, pool')) :
    ∃ regions, List.Forall₂ f.Places f.regions regions ∧
      ∀ (i : Nat) instruction, code.instructions[i]? = some instruction →
        (instruction.handler = none ↔ ∀ r ∈ regions, ¬ r.Spans i) ∧
        (∀ handler, instruction.handler = some handler ↔
          ∃ k r, Region.Decides regions i k r ∧ r.handler = handler) ∧
        (∀ inner ∈ regions, inner.Spans i → ∀ outer, inner.StrictlyWithin outer →
          ∀ k, ¬ Region.Decides regions i k outer) ∧
        ∀ r, r.stop ≤ r.start → ∀ k, ¬ Region.Decides regions i k r := by
  have hsize := (linkFunction_linkedAs f h).2.size_eq
  obtain ⟨name, signature, captures, ops, ranges, declared⟩ := f
  unfold linkFunction at h
  obtain ⟨layout, hlayout, h⟩ := Linker.run_lift_bind_eq_ok h
  obtain ⟨instructions, _, hops, h⟩ := Linker.run_bind_eq_ok h
  cases h
  obtain ⟨regions, hplaces, hhandlers⟩ := regions_of_layoutOf hlayout
  refine ⟨regions, hplaces, fun i instruction hi => ?_⟩
  have hhandler : instruction.handler = Region.lastHandler? (Region.sort regions) i := by
    have hlt := hsize ▸ (Array.getElem?_eq_some_iff.mp hi).1
    rw [linkOps_handler hops (List.getElem?_toArray ▸ hi), Nat.zero_add, Layout.handlerAt,
      hhandlers, getElem?_handlersOf, if_pos hlt, Option.getD_some]
  rw [hhandler]
  refine ⟨Region.lastHandler?_eq_none_iff, fun _ => Region.lastHandler?_eq_some_iff, ?nested,
    ?empty⟩
  case nested =>
    intro inner hinner hspans outer hwithin k hdecides
    exact hdecides.not_strictlyWithin hinner hspans hwithin
  case empty =>
    intro r hempty k hdecides
    exact absurd hdecides.start_lt_stop (Nat.not_lt.mpr hempty)

/--
Five instructions with a region around the second, one around the first three, two that are equally
wide and overlap, an inverted one and an empty one.
-/
def overlapping : Function :=
  ⟨none, {}, [],
    [.label 0, .constant (.bool true), .label 1, .constant (.bool true), .label 2,
      .constant (.bool true), .label 3, .constant (.bool true), .label 4, .constant (.bool true)],
    [], [⟨1, 2, 4⟩, ⟨0, 3, 0⟩, ⟨1, 3, 3⟩, ⟨2, 4, 2⟩, ⟨3, 0, 1⟩, ⟨2, 2, 1⟩]⟩

def overlappingCode : Code where
  name := none
  signature := {}
  captures := []
  instructions := #[
    { opcode := .loadConst, handler := some 0 }, { opcode := .loadConst, handler := some 4 },
    { opcode := .loadConst, handler := some 2 }, { opcode := .loadConst, handler := some 2 },
    { opcode := .loadConst }]

/-- Sorting is by well-founded recursion, so the sorted regions are computed by rewriting. -/
theorem layoutOf_overlapping :
    layoutOf overlapping = .ok
      { labels := [(0, 0), (1, 1), (2, 2), (3, 3), (4, 4)]
        handlers := #[some 0, some 4, some 2, some 2, none] } := by
  have hsort : Region.sort
      [⟨1, 2, 4⟩, ⟨0, 3, 0⟩, ⟨1, 3, 3⟩, ⟨2, 4, 2⟩, ⟨3, 0, 1⟩, ⟨2, 2, 1⟩] =
      [⟨0, 3, 0⟩, ⟨1, 3, 3⟩, ⟨2, 4, 2⟩, ⟨1, 2, 4⟩, ⟨3, 0, 1⟩, ⟨2, 2, 1⟩] := by
    simp [Region.sort, List.mergeSort, Region.width]
  have hhandlers : #[some 0, some 4, some 2, some 2, none] = handlersOf 5 (Region.sort
      [⟨1, 2, 4⟩, ⟨0, 3, 0⟩, ⟨1, 3, 3⟩, ⟨2, 4, 2⟩, ⟨3, 0, 1⟩, ⟨2, 2, 1⟩]) := by
    rw [hsort]
    rfl
  rw [hhandlers]
  rfl

theorem overlapping_handlers :
    ((linkFunction overlapping).run .empty).map Prod.fst = .ok overlappingCode ∧
      ∃ regions, List.Forall₂ overlapping.Places overlapping.regions regions ∧
        (∃ k r, Region.Decides regions 2 k r ∧ r.handler = 2) ∧ ∀ r ∈ regions, ¬ r.Spans 4 := by
  have hlink : ((linkFunction overlapping).run .empty).map Prod.fst = .ok overlappingCode := by
    rw [overlapping, linkFunction, ← overlapping, layoutOf_overlapping]
    decide +kernel
  refine ⟨hlink, ?_⟩
  cases hrun : (linkFunction overlapping).run .empty with
  | error e =>
    rw [hrun] at hlink
    cases hlink
  | ok result =>
    obtain ⟨code, pool⟩ := result
    obtain rfl : code = overlappingCode := Except.ok.inj (hrun ▸ hlink)
    obtain ⟨regions, hplaces, hhandlers⟩ := linkFunction_handlers hrun
    obtain ⟨-, hsome, -, -⟩ := hhandlers 2 _ rfl
    obtain ⟨hnone, -, -, -⟩ := hhandlers 4 _ rfl
    exact ⟨regions, hplaces, (hsome 2).mp rfl, hnone.mp rfl⟩

end FiberMachine.Bitcode
