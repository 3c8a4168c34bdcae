import FiberMachine.Proofs.Bitcode.Linking

/-!
# What keeps a module from being linked

`Function.Offends f e` says that something is wrong with `f` itself, and that the error `e` names
it: a label that is marked twice, a jump or a try region to a label that `f` does not mark, or a
template method that has no name or captures variables. Unless a module is too large, it fails to
link exactly if there is a function in it, at any depth, of which this is true, and then with the
error of such a function (`Module.link_error_iff`).

The proof is a calculus of exact failure: `Reports x P` says that `x` fails exactly if some error
satisfies `P`, and then with one that does. It is closed under sequencing, so there is one lemma for
each part of the linker. `Linker.Reports` also counts the constants that the part may add to the
pool, which is what keeps indices within 32 bits.
-/

namespace FiberMachine.Bitcode

/-! ## Functions within functions -/

/-- The functions that an operation holds. -/
def Op.functions : Op → List Function
  | .closure f | .constant (.function f) => [f]
  | .constant (.template ⟨_, _, methods⟩) => methods
  | _ => []

/-- The one function is the other, or lies in it at any depth. -/
inductive Function.Within : Function → Function → Prop where
  | refl (f : Function) : f.Within f
  | inner {f g outer : Function} {op : Op} : op ∈ outer.ops → g ∈ op.functions → f.Within g →
      f.Within outer

mutual

/-- The number of operations of a function and of all functions in it. -/
def Function.opCount : Function → Nat
  | ⟨_, _, _, ops, _, _⟩ => opCountAll ops

/-- The number of operations of a list, with those of the functions in them. -/
def opCountAll : List Op → Nat
  | [] => 0
  | op :: rest => op.opCountWithin + 1 + opCountAll rest

/-- The number of operations of the functions in an operation. -/
def Op.opCountWithin : Op → Nat
  | .constant literal => literal.opCount
  | .closure f => f.opCount
  | _ => 0

def Literal.opCount : Literal → Nat
  | .function f => f.opCount
  | .template ⟨_, _, methods⟩ => opCountMethods methods
  | _ => 0

def opCountMethods : List Function → Nat
  | [] => 0
  | method :: rest => method.opCount + opCountMethods rest

end

theorem length_le_opCountAll (ops : List Op) : ops.length ≤ opCountAll ops := by
  induction ops with
  | nil => exact Nat.le_refl 0
  | cons op rest ih =>
    rw [List.length_cons, opCountAll]
    omega

theorem Function.length_ops_le (f : Function) : f.ops.length ≤ f.opCount := by
  obtain ⟨name, signature, captures, ops, ranges, regions⟩ := f
  rw [Function.opCount]
  exact length_le_opCountAll ops

/-! ## Offences -/

/-- The labels that a function marks itself. -/
def Function.marks (f : Function) : List Label := f.ops.filterMap Op.marked?

/-- What is wrong with a template method. -/
inductive Function.Unfit (method : Function) : LinkError → Prop where
  | anonymous : method.name = none → method.Unfit .anonymousMethod
  | capturing {name : String} : method.name = some name → method.captures ≠ [] →
      method.Unfit (.capturingMethod name)

/-- What is wrong with an operation of `f`. -/
inductive Op.Offends (f : Function) : Op → LinkError → Prop where
  | jump {opcode kind target} : target ∉ f.marks →
      Op.Offends f (.jump opcode kind target) (.unresolvedLabel target)
  | method {name sealed methods} {method : Function} {e : LinkError} : method ∈ methods →
      method.Unfit e → Op.Offends f (.constant (.template ⟨name, sealed, methods⟩)) e

/-- What is wrong with `f` itself, whatever the functions around it and in it are. -/
inductive Function.Offends (f : Function) : LinkError → Prop where
  | repeated {l : Label} : 1 < f.marks.count l → f.Offends (.duplicateLabel l)
  | region {region : TryRegion} {l : Label} : region ∈ f.regions →
      l ∈ [region.start, region.stop, region.handler] → l ∉ f.marks →
      f.Offends (.unresolvedLabel l)
  | operation {op : Op} {e : LinkError} : op ∈ f.ops → op.Offends f e → f.Offends e

/-- Something is wrong with the function or with one in it. -/
def Function.Faulty (f : Function) (e : LinkError) : Prop :=
  ∃ g : Function, g.Within f ∧ g.Offends e

/-- Something is wrong with an operation of `f` or with a function in it. -/
def Op.Faulty (f : Function) (op : Op) (e : LinkError) : Prop :=
  op.Offends f e ∨ ∃ g ∈ op.functions, g.Faulty e

/-- Something is wrong with the labels of `f`, as far as its operations do not name them. -/
def Function.Mislaid (f : Function) (e : LinkError) : Prop :=
  (∃ l, 1 < f.marks.count l ∧ e = .duplicateLabel l) ∨
    ∃ region ∈ f.regions, ∃ l ∈ [region.start, region.stop, region.handler],
      l ∉ f.marks ∧ e = .unresolvedLabel l

theorem Function.faulty_iff {f : Function} {e : LinkError} :
    f.Faulty e ↔ f.Mislaid e ∨ ∃ op ∈ f.ops, op.Faulty f e := by
  constructor
  · rintro ⟨g, hwithin, hoffends⟩
    cases hwithin with
    | refl =>
      cases hoffends with
      | repeated hcount => exact .inl (.inl ⟨_, hcount, rfl⟩)
      | region hregion hl hmarks => exact .inl (.inr ⟨_, hregion, _, hl, hmarks, rfl⟩)
      | operation hop hoffends => exact .inr ⟨_, hop, .inl hoffends⟩
    | inner hop hg hwithin => exact .inr ⟨_, hop, .inr ⟨_, hg, g, hwithin, hoffends⟩⟩
  · rintro ((⟨l, hcount, rfl⟩ | ⟨region, hregion, l, hl, hmarks, rfl⟩) |
      ⟨op, hop, hoffends | ⟨g, hg, k, hwithin, hoffends⟩⟩)
    · exact ⟨f, .refl f, .repeated hcount⟩
    · exact ⟨f, .refl f, .region hregion hl hmarks⟩
    · exact ⟨f, .refl f, .operation hop hoffends⟩
    · exact ⟨k, .inner hop hg hwithin, hoffends⟩

/-! ## Exact failure -/

/-- The result is an error exactly if one satisfies `P`, and then it is one that does. -/
structure Reports {α : Type} (x : Except LinkError α) (P : LinkError → Prop) : Prop where
  ok : ∀ a, x = .ok a → ∀ e, ¬ P e
  error : ∀ e, x = .error e → P e

namespace Reports

variable {α β : Type} {P Q : LinkError → Prop}

theorem pure (a : α) : Reports (.ok a) fun _ => False where
  ok _ _ _ := id
  error e h := by cases h

theorem bind {x : Except LinkError α} {next : α → Except LinkError β} (hx : Reports x P)
    (hnext : ∀ a, x = .ok a → Reports (next a) Q) :
    Reports (x >>= next) fun e => P e ∨ Q e := by
  cases x with
  | error e =>
    refine ⟨fun b h => ?_, fun e' h => ?_⟩
    · cases h
    · cases h
      exact .inl (hx.error e rfl)
  | ok a =>
    have hnext := hnext a rfl
    exact ⟨fun b h e => not_or.mpr ⟨hx.ok a rfl e, hnext.ok b h e⟩,
      fun e h => .inr (hnext.error e h)⟩

theorem congr {x : Except LinkError α} (hx : Reports x P) (h : ∀ e, P e ↔ Q e) : Reports x Q where
  ok a ha e he := hx.ok a ha e ((h e).mpr he)
  error e he := (h e).mp (hx.error e he)

theorem mapM {g : α → Except LinkError β} {P : α → LinkError → Prop} {as : List α}
    (h : ∀ a ∈ as, Reports (g a) (P a)) : Reports (as.mapM g) fun e => ∃ a ∈ as, P a e := by
  induction as with
  | nil => exact (Reports.pure []).congr (by simp)
  | cons a as ih =>
    obtain ⟨ha, has⟩ := List.forall_mem_cons.mp h
    rw [List.mapM_cons]
    refine (ha.bind fun b _ => (ih has).bind fun bs _ => .pure (b :: bs)).congr fun e => ?_
    simp

end Reports

/-! ## Labels -/

theorem map_fst_markedLabels (count : Nat) (ops : List Op) :
    (markedLabels count ops).map Prod.fst = ops.filterMap Op.marked? := by
  induction ops generalizing count with
  | nil => rfl
  | cons op rest ih =>
    cases op with
    | label l => rw [markedLabels, List.map_cons, ih, List.filterMap_cons_some (by rfl)]
    | _ => rw [markedLabels_cons rfl, ih, List.filterMap_cons_none (by rfl)]

/-- A label that is found to be repeated is there twice, counting those seen before. -/
theorem count_of_firstRepeated {seen : List Label} {labels : Labels} {l : Label}
    (h : firstRepeated seen labels = some l) : 1 < (seen ++ labels.map Prod.fst).count l := by
  induction labels generalizing seen with
  | nil => cases h
  | cons entry rest ih =>
    obtain ⟨l', n⟩ := entry
    rw [firstRepeated] at h
    split at h
    · rename_i hseen
      cases h
      have hcount := List.count_pos_iff.mpr hseen
      rw [List.count_append, List.map_cons, List.count_cons_self]
      omega
    · have hcount := ih h
      rw [List.cons_append] at hcount
      rwa [List.map_cons, List.perm_middle.count_eq]

variable {f : Function} {labels : Labels}

theorem labelsOf_reports (f : Function) :
    Reports (labelsOf f.ops) fun e => ∃ l, 1 < f.marks.count l ∧ e = .duplicateLabel l := by
  have hmarks := map_fst_markedLabels 0 f.ops
  rw [labelsOf]
  split
  · rename_i l hrepeated
    have hcount := count_of_firstRepeated hrepeated
    rw [List.nil_append, hmarks] at hcount
    refine ⟨fun a h => ?_, fun e h => ?_⟩
    · cases h
    · cases h
      exact ⟨l, hcount, rfl⟩
  · rename_i hrepeated
    have hnodup := (nodup_of_firstRepeated hrepeated).1
    rw [hmarks] at hnodup
    refine ⟨fun a h e => ?_, fun e h => ?_⟩
    · rintro ⟨l, hcount, -⟩
      exact absurd (List.nodup_iff_count_le_one.mp hnodup l) (Nat.not_le.mpr hcount)
    · cases h

theorem eq_markedLabels_of_labelsOf {ops : List Op} (h : labelsOf ops = .ok labels) :
    labels = markedLabels 0 ops := by
  rw [labelsOf] at h
  split at h
  · cases h
  · cases h
    rfl

theorem resolve_reports (hlabels : labelsOf f.ops = .ok labels) (l : Label) :
    Reports (resolve labels l) fun e => l ∉ f.marks ∧ e = .unresolvedLabel l := by
  have hmarks : labels.map Prod.fst = f.marks := by
    rw [eq_markedLabels_of_labelsOf hlabels, map_fst_markedLabels, Function.marks]
  refine ⟨fun n h e => ?_, fun e h => ?_⟩
  · rintro ⟨hl, -⟩
    exact hl (hmarks ▸ List.mem_map_of_mem (mem_of_resolve h))
  · unfold resolve at h
    split at h
    · cases h
    · rename_i hlookup
      cases h
      refine ⟨?_, rfl⟩
      rw [← hmarks]
      intro hl
      obtain ⟨entry, hentry, rfl⟩ := List.mem_map.mp hl
      exact absurd (beq_self_eq_true entry.1)
        (by simpa using List.lookup_eq_none_iff.mp hlookup entry hentry)

theorem le_of_resolve (hlabels : labelsOf f.ops = .ok labels) {l : Label} {n : Nat}
    (h : resolve labels l = .ok n) : n ≤ f.ops.length := by
  have hmarked := markedAt_of_resolve hlabels h
  obtain ⟨position, hposition⟩ := List.getElem?_of_mem hmarked.marked
  rw [hmarked.index position hposition]
  exact Nat.le_trans List.countP_le_length (List.take_sublist position f.ops).length_le

theorem encodable_of_lt {n : Nat} (h : n < UInt32.size) : encodable n = .ok n.toUInt32 := if_pos h

theorem encodable_reports {n : Nat} (h : n < UInt32.size) :
    Reports (encodable n) fun _ => False := by
  rw [encodable_of_lt h]
  exact .pure _

/-- A label as an operand. -/
theorem encodable_of_resolve (hlabels : labelsOf f.ops = .ok labels)
    (hsize : f.ops.length < UInt32.size) {l : Label} {n : Nat} (h : resolve labels l = .ok n) :
    Reports (encodable n) fun _ => False :=
  encodable_reports (Nat.lt_of_le_of_lt (le_of_resolve hlabels h) hsize)

theorem resolveRegion_reports (hlabels : labelsOf f.ops = .ok labels)
    (hsize : f.ops.length < UInt32.size) (region : TryRegion) :
    Reports (resolveRegion labels region) fun e =>
      ∃ l ∈ [region.start, region.stop, region.handler],
        l ∉ f.marks ∧ e = .unresolvedLabel l := by
  have hregion := (resolve_reports hlabels region.start).bind fun start _ =>
    (resolve_reports hlabels region.stop).bind fun stop _ =>
    (resolve_reports hlabels region.handler).bind fun n hn =>
    (encodable_of_resolve hlabels hsize hn).bind fun handler _ =>
    .pure { start, stop, handler : Region }
  refine hregion.congr fun e => ?_
  simp

theorem layoutOf_reports (hsize : f.ops.length < UInt32.size) :
    Reports (layoutOf f) f.Mislaid := by
  have hlayout := (labelsOf_reports f).bind fun labels hlabels =>
    (Reports.mapM fun region (_ : region ∈ f.regions) =>
      resolveRegion_reports hlabels hsize region).bind fun regions _ =>
    .pure (Layout.mk labels (handlersOf (f.ops.countP Op.isInstruction) (Region.sort regions)))
  refine hlayout.congr fun e => ?_
  simp [Function.Mislaid]

theorem labels_of_layoutOf {layout : Layout} (h : layoutOf f = .ok layout) :
    labelsOf f.ops = .ok layout.labels := by
  obtain ⟨labels, hlabels, h⟩ := bind_eq_ok h
  obtain ⟨regions, _, h⟩ := bind_eq_ok h
  cases h
  exact hlabels

/-! ## The linker -/

/--
As `Reports`, for a part of the linker that adds at most `cost` constants, from every pool that has
room for them.
-/
structure Linker.Reports {α : Type} (x : Linker α) (cost : Nat) (P : LinkError → Prop) : Prop where
  ok : ∀ {pool a pool'}, pool.constants.size + cost < UInt32.size → x.run pool = .ok (a, pool') →
    pool'.constants.size ≤ pool.constants.size + cost ∧ ∀ e, ¬ P e
  error : ∀ {pool e}, pool.constants.size + cost < UInt32.size → x.run pool = .error e → P e

namespace Linker.Reports

variable {α β : Type} {P Q : LinkError → Prop} {cost cost' : Nat}

theorem lift {x : Except LinkError α} (hx : Bitcode.Reports x P) :
    Linker.Reports (liftM x) 0 P where
  ok _ h := by
    obtain ⟨hx', rfl⟩ := run_lift_eq_ok h
    exact ⟨Nat.le_refl _, hx.ok _ hx'⟩
  error {_ e} _ h := by
    cases x with
    | ok a => cases h
    | error =>
      cases h
      exact hx.error e rfl

theorem pure (a : α) : Linker.Reports (Pure.pure a) 0 fun _ => False where
  ok _ h := by
    cases h
    exact ⟨Nat.le_refl _, fun _ => id⟩
  error _ h := by cases h

theorem throw {e : LinkError} (h : P e) : Linker.Reports (throw e : Linker α) cost P where
  ok _ hok := by cases hok
  error _ herror := by
    cases herror
    exact h

theorem bind {x : Linker α} {next : α → Linker β} (hx : Linker.Reports x cost P)
    (hnext : ∀ a, Linker.Reports (next a) cost' Q) :
    Linker.Reports (x >>= next) (cost + cost') fun e => P e ∨ Q e where
  ok hsize h := by
    obtain ⟨a, pool₁, ha, hb⟩ := run_bind_eq_ok h
    obtain ⟨hle, hP⟩ := hx.ok (by omega) ha
    obtain ⟨hle', hQ⟩ := (hnext a).ok (by omega) hb
    exact ⟨by omega, fun e => not_or.mpr ⟨hP e, hQ e⟩⟩
  error {pool e} hsize h := by
    rw [StateT.run_bind] at h
    cases ha : x.run pool with
    | error e' =>
      rw [ha] at h
      cases h
      exact .inl (hx.error (by omega) ha)
    | ok result =>
      rw [ha] at h
      have hle := (hx.ok (by omega) ha).1
      exact .inr ((hnext result.1).error (by omega) h)

/-- What follows may rely on what was computed without the pool. -/
theorem lift_bind {x : Except LinkError α} {next : α → Linker β} (hx : Bitcode.Reports x P)
    (hnext : ∀ a, x = .ok a → Linker.Reports (next a) cost Q) :
    Linker.Reports ((liftM x : Linker α) >>= next) cost fun e => P e ∨ Q e where
  ok hsize h := by
    obtain ⟨a, ha, hb⟩ := run_lift_bind_eq_ok h
    obtain ⟨hle, hQ⟩ := (hnext a ha).ok hsize hb
    exact ⟨hle, fun e => not_or.mpr ⟨hx.ok a ha e, hQ e⟩⟩
  error {_ e} hsize h := by
    cases x with
    | error =>
      cases h
      exact .inl (hx.error e rfl)
    | ok a => exact .inr ((hnext a rfl).error hsize h)

theorem congr {x : Linker α} (hx : Linker.Reports x cost P) (hcost : cost ≤ cost')
    (h : ∀ e, P e ↔ Q e) : Linker.Reports x cost' Q where
  ok hsize hok := by
    obtain ⟨hle, hP⟩ := hx.ok (by omega) hok
    exact ⟨by omega, fun e he => hP e ((h e).mpr he)⟩
  error hsize herror := (h _).mp (hx.error (by omega) herror)

/-- What follows cannot fail. -/
theorem bind_sure {x : Linker α} {next : α → Linker β} (hx : Linker.Reports x cost P)
    (hnext : ∀ a, Linker.Reports (next a) cost' fun _ => False) :
    Linker.Reports (x >>= next) (cost + cost') P :=
  (hx.bind hnext).congr (Nat.le_refl _) fun _ => or_iff_left id

/-- There is nothing to show of a part that no pool has room for. -/
theorem of_lt {x : Linker α} (hx : cost < UInt32.size → Linker.Reports x cost P) :
    Linker.Reports x cost P where
  ok hsize hok := (hx (by omega)).ok hsize hok
  error hsize herror := (hx (by omega)).error hsize herror

end Linker.Reports

theorem append_reports (c : Constant) (hc : ∀ key : Interned, key.constant ≠ c) :
    Linker.Reports (append c hc) 1 fun _ => False where
  ok _ h := by
    obtain ⟨_, hpool⟩ := append_run h
    rw [hpool]
    exact ⟨Nat.le_of_eq (Array.size_push _), fun _ => id⟩
  error {pool e} hsize h := by
    have happend : (append c hc).run pool = .ok _ := dif_pos (by omega)
    rw [happend] at h
    cases h

theorem intern_reports (key : Interned) : Linker.Reports (intern key) 1 fun _ => False where
  ok {pool a pool'} hsize h := by
    rcases intern_run h with ⟨rfl, _⟩ | ⟨_, _, hpool⟩
    · exact ⟨Nat.le_succ _, fun _ => id⟩
    · rw [hpool]
      exact ⟨Nat.le_of_eq (Array.size_push _), fun _ => id⟩
  error {pool e} hsize h := by
    unfold intern at h
    simp only [StateT.run] at h
    split at h
    · cases h
    · rw [dif_pos (by omega)] at h
      cases h

/-- Nothing is wrong with an operation that names no label and holds no functions. -/
theorem Op.not_faulty {op : Op} (hoffends : ∀ e, ¬ op.Offends f e) (hfunctions : op.functions = [])
    (e : LinkError) : False ↔ op.Faulty f e := by
  rw [Op.Faulty, hfunctions]
  simp [hoffends e]

/-- All that can be wrong with an operation that holds one function is wrong with that function. -/
theorem Op.faulty_iff_of_functions {op : Op} {g : Function} (hoffends : ∀ e, ¬ op.Offends f e)
    (hfunctions : op.functions = [g]) (e : LinkError) : g.Faulty e ↔ op.Faulty f e := by
  rw [Op.Faulty, hfunctions]
  simp [hoffends e]

mutual

/-- Linking a function fails exactly if something is wrong with it or with a function in it. -/
theorem linkFunction_reports (f : Function) :
    Linker.Reports (linkFunction f) f.opCount f.Faulty := by
  refine .of_lt fun hcount => ?_
  have hsize : f.ops.length < UInt32.size := Nat.lt_of_le_of_lt f.length_ops_le hcount
  obtain ⟨name, signature, captures, ops, ranges, regions⟩ := f
  rw [linkFunction, Function.opCount]
  refine (Linker.Reports.lift_bind (layoutOf_reports hsize) fun layout hlayout =>
    (linkOps_reports ops 0 ranges (labels_of_layoutOf hlayout) hsize).bind_sure fun _ =>
    .pure _).congr (Nat.le_refl _) fun e => ?_
  exact Function.faulty_iff.symm

theorem linkOps_reports (ops : List Op) (index : Nat) (ranges : List SourceRange) {f : Function}
    {layout : Layout} (hlabels : labelsOf f.ops = .ok layout.labels)
    (hsize : f.ops.length < UInt32.size) :
    Linker.Reports (linkOps layout index ranges ops) (opCountAll ops) fun e =>
      ∃ op ∈ ops, op.Faulty f e := by
  cases ops with
  | nil =>
    rw [linkOps, opCountAll]
    exact (Linker.Reports.pure []).congr (Nat.le_refl 0) (by simp)
  | cons op rest =>
    cases hop : op.isInstruction with
    | false =>
      obtain ⟨l, rfl⟩ := Op.eq_label_of_not_isInstruction hop
      rw [linkOps, opCountAll]
      refine (linkOps_reports rest index ranges.tail hlabels hsize).congr (by omega) fun e => ?_
      have hlabel : False ↔ (Op.label l).Faulty f e := Op.not_faulty (by rintro _ ⟨⟩) rfl e
      rw [List.exists_mem_cons_iff, ← hlabel, false_or]
    | true =>
      rw [linkOps_cons hop, opCountAll]
      refine ((linkOp_reports op hlabels hsize hop).bind fun _ =>
        (linkOps_reports rest (index + 1) ranges.tail hlabels hsize).bind_sure fun _ =>
        .pure _).congr (by omega) fun e => ?_
      rw [List.exists_mem_cons_iff]

theorem linkOp_reports (op : Op) {f : Function} {labels : Labels}
    (hlabels : labelsOf f.ops = .ok labels) (hsize : f.ops.length < UInt32.size)
    (hop : op.isInstruction) :
    Linker.Reports (linkOp labels op) (op.opCountWithin + 1) (op.Faulty f) := by
  cases op with
  | label l => cases hop
  | plain _ _ | slot _ _ _ | capture _ _ _ =>
    rw [linkOp]
    exact (Linker.Reports.pure _).congr (Nat.zero_le _) (Op.not_faulty (by rintro _ ⟨⟩) rfl)
  | name _ _ name =>
    rw [linkOp]
    exact ((intern_reports (.string name)).bind_sure fun _ => .pure _).congr
      (Nat.le_add_left ..) (Op.not_faulty (by rintro _ ⟨⟩) rfl)
  | jump opcode kind target =>
    rw [linkOp]
    refine (Linker.Reports.lift_bind (resolve_reports hlabels target) fun n hn =>
      (Linker.Reports.lift (encodable_of_resolve hlabels hsize hn)).bind_sure fun _ =>
      .pure _).congr (Nat.zero_le _) fun e => ?_
    constructor
    · rintro (⟨hmarks, rfl⟩ | hfalse)
      · exact .inl (.jump hmarks)
      · exact hfalse.elim
    · rintro (hoffends | ⟨g, hg, -⟩)
      · cases hoffends with
        | jump hmarks => exact .inl ⟨hmarks, rfl⟩
      · cases hg
  | constant literal =>
    rw [linkOp, Op.opCountWithin]
    exact (linkLiteral_reports literal f).bind_sure fun _ => .pure _
  | closure g =>
    rw [linkOp, Op.opCountWithin]
    exact ((linkFunction_reports g).bind_sure fun code =>
      (append_reports (.code code) _).bind_sure fun _ => .pure _).congr (Nat.le_refl _)
      (Op.faulty_iff_of_functions (by rintro _ ⟨⟩) rfl)

theorem linkLiteral_reports (literal : Literal) (f : Function) :
    Linker.Reports (linkLiteral literal) (literal.opCount + 1)
      ((Op.constant literal).Faulty f) := by
  cases literal with
  | bool _ | int _ | float _ | string _ =>
    rw [linkLiteral]
    exact (intern_reports _).congr (Nat.le_add_left ..) (Op.not_faulty (by rintro _ ⟨⟩) rfl)
  | function g =>
    rw [linkLiteral, Literal.opCount]
    exact ((linkFunction_reports g).bind_sure fun code => append_reports (.code code) _).congr
      (Nat.le_refl _) (Op.faulty_iff_of_functions (by rintro _ ⟨⟩) rfl)
  | template template =>
    obtain ⟨name, «sealed», methods⟩ := template
    rw [linkLiteral, Literal.opCount]
    refine ((linkMethods_reports methods).bind_sure fun codes =>
      append_reports (.template ⟨name, «sealed», codes⟩) _).congr (Nat.le_refl _) fun e => ?_
    constructor
    · rintro ⟨method, hmethod, hunfit | hfaulty⟩
      · exact .inl (.method hmethod hunfit)
      · exact .inr ⟨method, hmethod, hfaulty⟩
    · rintro (hoffends | ⟨method, hmethod, hfaulty⟩)
      · cases hoffends with
        | method hmethod hunfit => exact ⟨_, hmethod, .inl hunfit⟩
      · exact ⟨method, hmethod, .inr hfaulty⟩

theorem linkMethods_reports (methods : List Function) :
    Linker.Reports (linkMethods methods) (opCountMethods methods) fun e =>
      ∃ method ∈ methods, method.Unfit e ∨ method.Faulty e := by
  cases methods with
  | nil =>
    rw [linkMethods, opCountMethods]
    exact (Linker.Reports.pure []).congr (Nat.le_refl 0) (by simp)
  | cons method rest =>
    rw [linkMethods, opCountMethods]
    split
    · rename_i hname
      exact .throw ⟨method, List.mem_cons_self, .inl (.anonymous hname)⟩
    · rename_i name hname
      split
      · rename_i hcaptures
        have hunfit := Function.Unfit.capturing hname (by simpa using hcaptures)
        exact .throw ⟨method, List.mem_cons_self, .inl hunfit⟩
      · rename_i hcaptures
        have hfit : ∀ e, ¬ method.Unfit e := by
          rintro _ (hanonymous | ⟨-, hcapturing⟩)
          · rw [hname] at hanonymous
            cases hanonymous
          · exact hcapturing (by simpa using hcaptures)
        refine ((linkFunction_reports method).bind fun _ =>
          (linkMethods_reports rest).bind_sure fun _ => .pure _).congr (Nat.le_refl _) fun e => ?_
        rw [List.exists_mem_cons_iff, or_iff_right (hfit e)]

end

/-! ## Modules -/

theorem link_reports (m : Module) (hsize : m.body.opCount < UInt32.size - 1) :
    Reports m.link m.body.Faulty := by
  have hbody := linkFunction_reports m.body
  have hroom : Pool.empty.constants.size + m.body.opCount < UInt32.size := by
    rw [Pool.empty, Array.size_empty]
    omega
  refine ⟨fun linked h => ?_, fun e h => ?_⟩
  · obtain ⟨⟨code, pool⟩, hrun, -⟩ := bind_eq_ok h
    exact (hbody.ok hroom hrun).2
  · unfold Module.link at h
    cases hrun : (linkFunction m.body).run .empty with
    | error e' =>
      rw [hrun] at h
      cases h
      exact hbody.error hroom hrun
    | ok result =>
      obtain ⟨code, pool⟩ := result
      have hle := (hbody.ok hroom hrun).1
      have happend : (append (.code code) (Interned.constant_ne_code code)).run pool = .ok _ :=
        dif_pos (by rw [Pool.empty, Array.size_empty] at hle; omega)
      rw [hrun] at h
      dsimp only [bind, Except.bind] at h
      rw [happend] at h
      cases h

/--
A module that is not too large fails to link exactly if a function in it, at any depth, marks a
label twice, jumps to or protects up to a label that it does not mark itself, or holds a template
with a method that has no name or captures variables. The error names one of these.
-/
theorem Module.link_error_iff (m : Module) (hsize : m.body.opCount < UInt32.size - 1) :
    ((∃ e, m.link = .error e) ↔ ∃ f : Function, f.Within m.body ∧ ∃ e, f.Offends e) ∧
      ∀ e, m.link = .error e → ∃ f : Function, f.Within m.body ∧ f.Offends e := by
  have hreports := link_reports m hsize
  refine ⟨⟨?failure, ?offence⟩, hreports.error⟩
  case failure =>
    rintro ⟨e, he⟩
    obtain ⟨f, hwithin, hoffends⟩ := hreports.error e he
    exact ⟨f, hwithin, e, hoffends⟩
  case offence =>
    rintro ⟨f, hwithin, e, hoffends⟩
    cases hlink : m.link with
    | error e' => exact ⟨e', rfl⟩
    | ok linked => exact absurd ⟨f, hwithin, hoffends⟩ (hreports.ok linked hlink e)

/-- A closure marks a label that the function around it marks too, and protects up to another. -/
def crossing : Module where
  name := "crossing"
  body := ⟨none, {}, [],
    [.label 0, .label 1,
      .closure ⟨some "inner", {}, [], [.label 1, .constant (.int 1)], [], [⟨1, 0, 1⟩]⟩], [], []⟩

theorem crossing_link :
    crossing.body.opCount < UInt32.size - 1 ∧ crossing.link = .error (.unresolvedLabel 0) ∧
      ∃ f : Function, f.Within crossing.body ∧ f.Offends (.unresolvedLabel 0) := by
  have hsize : crossing.body.opCount < UInt32.size - 1 := by decide +kernel
  have hlink : crossing.link = .error (.unresolvedLabel 0) := by decide +kernel
  exact ⟨hsize, hlink, (Module.link_error_iff crossing hsize).2 _ hlink⟩

end FiberMachine.Bitcode
