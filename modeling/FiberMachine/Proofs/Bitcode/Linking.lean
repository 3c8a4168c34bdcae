import FiberMachine.Bitcode.Link
import Mathlib.Data.List.Forall2
import Mathlib.Data.List.Induction
import Mathlib.Data.List.Nodup

/-!
# What linking makes of a function

`Function.LinkedAs pool f code` says, instruction by instruction, that `code` is the function `f`
with its literals, names and nested functions in `pool`. It stays true when the pool grows, so what
was linked early holds in the final pool (`Module.link_linkedAs`): the last entry of a linked module
is the linking of its body, and no two entries are the same primitive constant.
-/

namespace FiberMachine.Bitcode

/-! ## The linking relation -/

/-- The operations that become instructions, each with its position among all operations. -/
def Function.instructionOps (f : Function) : List (Op × Nat) :=
  f.ops.zipIdx.filter (·.1.isInstruction)

/-- The number of instructions before a position. -/
def Function.instructionsBefore (f : Function) (position : Nat) : Nat :=
  (f.ops.take position).countP Op.isInstruction

/-- The index is that of the instruction at the mark of `l`. -/
structure Function.MarkedAt (f : Function) (l : Label) (index : Nat) : Prop where
  marked : Op.label l ∈ f.ops
  index : ∀ position, f.ops[position]? = some (.label l) → index = f.instructionsBefore position

mutual

/-- The code is the linking of the function, with its constants in `pool`. -/
inductive Function.LinkedAs (pool : Array Constant) : Function → Code → Prop where
  | intro {f : Function} {code : Code} (name : code.name = f.name)
      (signature : code.signature = f.signature) (captures : code.captures = f.captures)
      (size : code.instructions.size = f.instructionOps.length)
      (range : ∀ (k : Nat) op (position : Nat) (i : Instruction),
        f.instructionOps[k]? = some (op, position) → code.instructions[k]? = some i →
        i.range = f.ranges[position]?.getD {})
      (handler : ∀ i ∈ code.instructions, ∀ h, i.handler = some h →
        ∃ region ∈ f.regions, f.MarkedAt region.handler h.toNat)
      (operation : ∀ (k : Nat) op (position : Nat) (i : Instruction),
        f.instructionOps[k]? = some (op, position) → code.instructions[k]? = some i →
        Op.LinkedAs pool f op i.opcode i.operand) :
      Function.LinkedAs pool f code

/-- The operation of the function is linked as an opcode with an operand. -/
inductive Op.LinkedAs (pool : Array Constant) : Function → Op → Opcode → UInt32 → Prop where
  | plain {f opcode kind} : Op.LinkedAs pool f (.plain opcode kind) opcode 0
  | slot {f opcode kind slot} : Op.LinkedAs pool f (.slot opcode kind slot) opcode slot
  | capture {f opcode kind index} : Op.LinkedAs pool f (.capture opcode kind index) opcode index
  | name {f opcode kind name operand} : pool[operand.toNat]? = some (.string name) →
      Op.LinkedAs pool f (.name opcode kind name) opcode operand
  | jump {f opcode kind target operand} : f.MarkedAt target operand.toNat →
      Op.LinkedAs pool f (.jump opcode kind target) opcode operand
  | constant {f literal c operand} : pool[operand.toNat]? = some c →
      Literal.LinkedAs pool literal c → Op.LinkedAs pool f (.constant literal) .loadConst operand
  | closure {f g code operand} : pool[operand.toNat]? = some (.code code) →
      Function.LinkedAs pool g code → Op.LinkedAs pool f (.closure g) .makeFunction operand

/-- The constant is the linking of the literal. -/
inductive Literal.LinkedAs (pool : Array Constant) : Literal → Constant → Prop where
  | bool {value} : Literal.LinkedAs pool (.bool value) (.bool value)
  | int {value} : Literal.LinkedAs pool (.int value) (.int value)
  | float {value} : Literal.LinkedAs pool (.float value) (.float value)
  | string {value} : Literal.LinkedAs pool (.string value) (.string value)
  | function {f code} : Function.LinkedAs pool f code →
      Literal.LinkedAs pool (.function f) (.code code)
  | template {name sealed} {methods : List Function} {codes : List Code}
      (length : codes.length = methods.length)
      (plain : ∀ method ∈ methods, method.name.isSome ∧ method.captures = [])
      (linked : ∀ (k : Nat) method code, methods[k]? = some method → codes[k]? = some code →
        Function.LinkedAs pool method code) :
      Literal.LinkedAs pool (.template ⟨name, sealed, methods⟩) (.template ⟨name, sealed, codes⟩)

end

theorem Function.length_instructionOps (f : Function) :
    f.instructionOps.length = f.ops.countP Op.isInstruction := by
  have hmap : f.ops.zipIdx.map Prod.fst = f.ops := List.zipIdx_map_fst ..
  rw [Function.instructionOps, ← List.countP_eq_length_filter]
  conv => rhs; rw [← hmap, List.countP_map]
  rfl

/-- Every operation but the labels becomes one instruction. -/
theorem Function.LinkedAs.size_eq {pool : Array Constant} {f : Function} {code : Code}
    (h : Function.LinkedAs pool f code) :
    code.instructions.size = f.ops.countP Op.isInstruction := by
  obtain ⟨_, _, _, hsize, _, _, _⟩ := h
  rw [hsize, f.length_instructionOps]

/-! ## Pools that grow -/

/-- Everything in the one pool is at the same index of the other. -/
def Keeps (pool pool' : Array Constant) : Prop :=
  ∀ (index : Nat) c, pool[index]? = some c → pool'[index]? = some c

theorem Keeps.push (pool : Array Constant) (c : Constant) : Keeps pool (pool.push c) := by
  intro index d hd
  have hlt := (Array.getElem?_eq_some_iff.mp hd).1
  rwa [Array.getElem?_push, if_neg (Nat.ne_of_lt hlt)]

section Mono

variable {pool pool' : Array Constant}

mutual

/-- What was linked stays linked when the pool grows. -/
theorem Function.LinkedAs.mono (h : Keeps pool pool') {f : Function} {code : Code} :
    Function.LinkedAs pool f code → Function.LinkedAs pool' f code
  | .intro name signature captures size range handler operation =>
    .intro name signature captures size range handler fun k op position i ho hi =>
      (operation k op position i ho hi).mono h

theorem Op.LinkedAs.mono (h : Keeps pool pool') {f : Function} {op : Op} {opcode : Opcode}
    {operand : UInt32} :
    Op.LinkedAs pool f op opcode operand → Op.LinkedAs pool' f op opcode operand
  | .plain => .plain
  | .slot => .slot
  | .capture => .capture
  | .name hname => .name (h _ _ hname)
  | .jump hmarked => .jump hmarked
  | .constant hc H => .constant (h _ _ hc) (H.mono h)
  | .closure hc H => .closure (h _ _ hc) (H.mono h)

theorem Literal.LinkedAs.mono (h : Keeps pool pool') {literal : Literal} {c : Constant} :
    Literal.LinkedAs pool literal c → Literal.LinkedAs pool' literal c
  | .bool => .bool
  | .int => .int
  | .float => .float
  | .string => .string
  | .function H => .function (H.mono h)
  | .template length plain linked =>
    .template length plain fun k method code hm hc => (linked k method code hm hc).mono h

end

end Mono

/-- Whether the constant is one that linking shares. -/
def isPrimitive : Constant → Bool
  | .bool _ | .int _ | .float _ | .string _ => true
  | .code _ | .template _ => false

/-- Every entry is the linking of a literal, and primitive constants have one entry each. -/
structure WellLinked (pool : Array Constant) : Prop where
  entries : ∀ c ∈ pool, ∃ literal, Literal.LinkedAs pool literal c
  distinct : ∀ (i j : Nat) c, isPrimitive c → pool[i]? = some c → pool[j]? = some c → i = j

/-- What linking does to the pool. -/
structure Grows (pool pool' : Array Constant) : Prop where
  keeps : Keeps pool pool'
  wellLinked : WellLinked pool → WellLinked pool'

namespace Grows

variable {pool pool' pool'' : Array Constant}

theorem refl (pool : Array Constant) : Grows pool pool := ⟨fun _ _ => id, id⟩

theorem trans (H : Grows pool pool') (H' : Grows pool' pool'') : Grows pool pool'' :=
  ⟨fun index c h => H'.keeps index c (H.keeps index c h), fun h => H'.wellLinked (H.wellLinked h)⟩

/-- A new entry that is the linking of a literal, and that is not a primitive constant again. -/
theorem push {literal : Literal} {c : Constant} (H : Literal.LinkedAs pool literal c)
    (hnew : isPrimitive c → c ∉ pool) : Grows pool (pool.push c) := by
  have keeps := Keeps.push pool c
  refine ⟨keeps, fun h => ⟨fun d hd => ?entries, fun i j d hd hi hj => ?distinct⟩⟩
  case entries =>
    rcases Array.mem_push.mp hd with hd | rfl
    · obtain ⟨literal, H⟩ := h.entries d hd
      exact ⟨literal, H.mono keeps⟩
    · exact ⟨literal, H.mono keeps⟩
  case distinct =>
    rw [Array.getElem?_push] at hi hj
    split at hi <;> split at hj
    · omega
    · cases hi
      exact absurd (Array.mem_of_getElem? hj) (hnew hd)
    · cases hj
      exact absurd (Array.mem_of_getElem? hi) (hnew hd)
    · exact h.distinct i j d hd hi hj

end Grows

/-! ## Labels -/

theorem Op.eq_label_of_not_isInstruction {op : Op} (h : op.isInstruction = false) :
    ∃ l, op = .label l := by
  cases op with
  | label l => exact ⟨l, rfl⟩
  | _ => exact nomatch h

theorem markedLabels_cons {op : Op} (h : op.isInstruction) (count : Nat) (rest : List Op) :
    markedLabels count (op :: rest) = markedLabels (count + 1) rest := by
  cases op with
  | label l => exact nomatch h
  | _ => rfl

theorem mem_markedLabels {count : Nat} {ops : List Op} {l : Label} {n : Nat} :
    (l, n) ∈ markedLabels count ops ↔
      ∃ position : Nat, ops[position]? = some (.label l) ∧
        n = count + (ops.take position).countP Op.isInstruction := by
  induction ops generalizing count with
  | nil => simp [markedLabels]
  | cons op rest ih =>
    cases hop : op.isInstruction with
    | true =>
      rw [markedLabels_cons hop, ih]
      constructor
      · rintro ⟨position, hl, rfl⟩
        refine ⟨position + 1, hl, ?_⟩
        rw [List.take_succ_cons, List.countP_cons_of_pos hop]
        omega
      · rintro ⟨position, hl, rfl⟩
        cases position with
        | zero =>
          cases hl
          exact nomatch hop
        | succ position =>
          refine ⟨position, hl, ?_⟩
          rw [List.take_succ_cons, List.countP_cons_of_pos hop]
          omega
    | false =>
      obtain ⟨l', rfl⟩ := Op.eq_label_of_not_isInstruction hop
      rw [markedLabels, List.mem_cons, ih]
      constructor
      · rintro (h | ⟨position, hl, rfl⟩)
        · cases h
          exact ⟨0, rfl, rfl⟩
        · refine ⟨position + 1, hl, ?_⟩
          rw [List.take_succ_cons, List.countP_cons_of_neg (by simp [hop])]
      · rintro ⟨position, hl, rfl⟩
        cases position with
        | zero =>
          cases hl
          exact .inl rfl
        | succ position =>
          refine .inr ⟨position, hl, ?_⟩
          rw [List.take_succ_cons, List.countP_cons_of_neg (by simp [hop])]

/-- No label is marked twice, nor is one of those seen before. -/
theorem nodup_of_firstRepeated {seen : List Label} {labels : Labels}
    (h : firstRepeated seen labels = none) :
    (labels.map Prod.fst).Nodup ∧ ∀ l ∈ labels.map Prod.fst, l ∉ seen := by
  induction labels generalizing seen with
  | nil => exact ⟨List.nodup_nil, nofun⟩
  | cons entry rest ih =>
    obtain ⟨l, n⟩ := entry
    rw [firstRepeated] at h
    split at h
    · exact nomatch h
    · rename_i hl
      obtain ⟨hnodup, hrest⟩ := ih h
      refine ⟨List.nodup_cons.mpr ⟨fun hmem => hrest l hmem (List.mem_cons_self ..), hnodup⟩, ?_⟩
      intro l' hl'
      rcases List.mem_cons.mp hl' with rfl | hl'
      · exact hl
      · exact fun hseen => hrest l' hl' (List.mem_cons_of_mem _ hseen)

theorem mem_of_resolve {labels : Labels} {l : Label} {n : Nat} (h : resolve labels l = .ok n) :
    (l, n) ∈ labels := by
  unfold resolve at h
  split at h
  · cases h
    rename_i h
    obtain ⟨before, after, rfl, _⟩ := List.lookup_eq_some_iff.mp h
    simp
  · exact nomatch h

theorem markedAt_of_resolve {f : Function} {labels : Labels} (hlabels : labelsOf f.ops = .ok labels)
    {l : Label} {n : Nat} (h : resolve labels l = .ok n) : f.MarkedAt l n := by
  unfold labelsOf at hlabels
  dsimp only at hlabels
  split at hlabels
  · exact nomatch hlabels
  · rename_i hrepeated
    cases hlabels
    have hmem := mem_of_resolve h
    obtain ⟨position, hmark, _⟩ := mem_markedLabels.mp hmem
    refine ⟨List.mem_of_getElem? hmark, fun position' hmark' => ?_⟩
    have hmem' : (l, f.instructionsBefore position') ∈ markedLabels 0 f.ops :=
      mem_markedLabels.mpr ⟨position', hmark', (Nat.zero_add _).symm⟩
    have heq := List.inj_on_of_nodup_map (nodup_of_firstRepeated hrepeated).1 hmem hmem' rfl
    exact (Prod.mk.inj heq).2

/-! ## Linking functions -/

namespace Linker

variable {α β : Type} {pool pool' : Pool}

theorem run_bind_eq_ok {x : Linker α} {next : α → Linker β} {b : β}
    (h : (x >>= next).run pool = .ok (b, pool')) :
    ∃ a pool₁, x.run pool = .ok (a, pool₁) ∧ (next a).run pool₁ = .ok (b, pool') := by
  rw [StateT.run_bind] at h
  cases hx : x.run pool with
  | error e =>
    rw [hx] at h
    exact nomatch h
  | ok result =>
    rw [hx] at h
    exact ⟨result.1, result.2, rfl, h⟩

theorem run_lift_eq_ok {e : Except LinkError α} {a : α}
    (h : (liftM e : Linker α).run pool = .ok (a, pool')) : e = .ok a ∧ pool' = pool := by
  cases e with
  | error e => exact nomatch h
  | ok b =>
    cases h
    exact ⟨rfl, rfl⟩

theorem run_lift_bind_eq_ok {e : Except LinkError α} {next : α → Linker β} {b : β}
    (h : ((liftM e : Linker α) >>= next).run pool = .ok (b, pool')) :
    ∃ a, e = .ok a ∧ (next a).run pool = .ok (b, pool') := by
  obtain ⟨a, _, hlift, hnext⟩ := run_bind_eq_ok h
  obtain ⟨he, rfl⟩ := run_lift_eq_ok hlift
  exact ⟨a, he, hnext⟩

end Linker

open Linker (run_bind_eq_ok run_lift_eq_ok run_lift_bind_eq_ok)

variable {pool pool' : Pool} {operand : UInt32}

theorem toNat_of_encodable {n : Nat} (h : encodable n = .ok operand) : operand.toNat = n := by
  unfold encodable at h
  split at h
  · rename_i hlt
    cases h
    exact Nat.mod_eq_of_lt hlt
  · exact nomatch h

theorem append_run {c : Constant} {hc : ∀ key : Interned, key.constant ≠ c}
    (h : (append c hc).run pool = .ok (operand, pool')) :
    operand.toNat = pool.constants.size ∧ pool'.constants = pool.constants.push c := by
  unfold append at h
  simp only [StateT.run] at h
  split at h
  · rename_i hsize
    cases h
    exact ⟨Nat.mod_eq_of_lt hsize, rfl⟩
  · cases h

/-- A constant that is shared is in the pool, or is appended to it. -/
theorem intern_run {key : Interned} (h : (intern key).run pool = .ok (operand, pool')) :
    pool' = pool ∧ pool.constants[operand.toNat]? = some key.constant ∨
      key.constant ∉ pool.constants ∧ operand.toNat = pool.constants.size ∧
        pool'.constants = pool.constants.push key.constant := by
  unfold intern at h
  simp only [StateT.run] at h
  split at h
  · rename_i hkey
    cases h
    exact .inl ⟨rfl, (pool.lookup_iff key operand).mp hkey⟩
  · rename_i hkey
    split at h
    · rename_i hsize
      cases h
      refine .inr ⟨fun hmem => ?_, Nat.mod_eq_of_lt hsize, rfl⟩
      obtain ⟨i, hi⟩ := Array.getElem?_of_mem hmem
      have hlt := Nat.lt_of_lt_of_le (Array.getElem?_eq_some_iff.mp hi).1 pool.size_le
      have hindex : i.toUInt32.toNat = i := Nat.mod_eq_of_lt hlt
      rw [← hindex, ← pool.lookup_iff, hkey] at hi
      cases hi
    · cases h

/-- A new entry for the linking of a literal, found at the index that is returned. -/
theorem append_grows {literal : Literal} {c : Constant} {hc : ∀ key : Interned, key.constant ≠ c}
    (H : Literal.LinkedAs pool.constants literal c) (hnew : isPrimitive c → c ∉ pool.constants)
    (h : (append c hc).run pool = .ok (operand, pool')) :
    Grows pool.constants pool'.constants ∧ pool'.constants[operand.toNat]? = some c := by
  obtain ⟨hoperand, hpool⟩ := append_run h
  rw [hpool, hoperand]
  exact ⟨.push H hnew, Array.getElem?_push_size⟩

/-- A primitive constant is looked up or gets the one entry that it has. -/
theorem intern_grows {literal : Literal} {key : Interned}
    (H : Literal.LinkedAs pool.constants literal key.constant)
    (h : (intern key).run pool = .ok (operand, pool')) :
    Grows pool.constants pool'.constants ∧
      pool'.constants[operand.toNat]? = some key.constant := by
  rcases intern_run h with ⟨rfl, hfound⟩ | ⟨hnew, hoperand, hpool⟩
  · exact ⟨.refl _, hfound⟩
  · rw [hpool, hoperand]
    exact ⟨.push H fun _ => hnew, Array.getElem?_push_size⟩

/-! ### The layout of a function -/

/-- The handler of the last of the regions that covers an instruction. -/
def Region.lastHandler? (regions : List Region) (i : Nat) : Option UInt32 :=
  (regions.filter (·.covers i)).getLast?.map (·.handler)

/-- Of the regions that overwrite the handler of an instruction the last one counts. -/
theorem getElem?_handlersOf (count : Nat) (regions : List Region) (i : Nat) :
    (handlersOf count regions)[i]? =
      if i < count then some (Region.lastHandler? regions i) else none := by
  unfold handlersOf Region.lastHandler?
  induction regions using List.reverseRecOn with
  | nil => simp [Array.getElem?_replicate]
  | append_singleton regions r ih =>
    rw [List.foldl_append, List.foldl_cons, List.foldl_nil, Region.overwrite, Array.getElem?_mapIdx,
      ih, List.filter_append, List.filter_singleton]
    by_cases hi : i < count
    · rw [if_pos hi, if_pos hi, Option.map_some]
      cases r.covers i <;> simp
    · rw [if_neg hi, if_neg hi, Option.map_none]

/-- An instruction stands for an operation at a position of the function. -/
structure Function.Stands (pool : Array Constant) (f : Function) (op : Op × Nat)
    (i : Instruction) : Prop where
  range : i.range = f.ranges[op.2]?.getD {}
  handler : ∀ h, i.handler = some h → ∃ region ∈ f.regions, f.MarkedAt region.handler h.toNat
  operation : Op.LinkedAs pool f op.1 i.opcode i.operand

/-- What the operations of a function are linked against. -/
structure Function.LaidOut (f : Function) (layout : Layout) : Prop where
  labels : ∀ l n, resolve layout.labels l = .ok n → f.MarkedAt l n
  handlers : ∀ index h, layout.handlerAt index = some h →
    ∃ region ∈ f.regions, f.MarkedAt region.handler h.toNat

theorem bind_eq_ok {α β : Type} {x : Except LinkError α} {next : α → Except LinkError β} {b : β}
    (h : x >>= next = .ok b) : ∃ a, x = .ok a ∧ next a = .ok b := by
  cases x with
  | error e => exact nomatch h
  | ok a => exact ⟨a, rfl, h⟩

/-- The handler of a resolved region is that of the region. -/
theorem resolveRegion_handler {labels : Labels} {region : TryRegion} {r : Region}
    (h : resolveRegion labels region = .ok r) :
    resolve labels region.handler = .ok r.handler.toNat := by
  obtain ⟨start, _, h⟩ := bind_eq_ok h
  obtain ⟨stop, _, h⟩ := bind_eq_ok h
  obtain ⟨n, hn, h⟩ := bind_eq_ok h
  obtain ⟨handler, hhandler, h⟩ := bind_eq_ok h
  cases h
  rw [hn, toNat_of_encodable hhandler]

theorem exists_of_mem_mapM {labels : Labels} {regions : List TryRegion} {resolved : List Region}
    (h : regions.mapM (resolveRegion labels) = .ok resolved) {r : Region} (hr : r ∈ resolved) :
    ∃ region ∈ regions, resolveRegion labels region = .ok r := by
  induction regions generalizing resolved with
  | nil =>
    cases h
    exact nomatch hr
  | cons region rest ih =>
    rw [List.mapM_cons] at h
    obtain ⟨first, hfirst, h⟩ := bind_eq_ok h
    obtain ⟨others, hothers, h⟩ := bind_eq_ok h
    cases h
    rcases List.mem_cons.mp hr with rfl | hr
    · exact ⟨region, List.mem_cons_self .., hfirst⟩
    · obtain ⟨region', hmem, hregion⟩ := ih hothers hr
      exact ⟨region', List.mem_cons_of_mem _ hmem, hregion⟩

theorem laidOut_of_layoutOf {f : Function} {layout : Layout} (h : layoutOf f = .ok layout) :
    f.LaidOut layout := by
  obtain ⟨labels, hlabels, h⟩ := bind_eq_ok h
  obtain ⟨resolved, hregions, h⟩ := bind_eq_ok h
  cases h
  refine ⟨fun l n hn => markedAt_of_resolve hlabels hn, fun index handler hh => ?_⟩
  have hlast : Region.lastHandler? (Region.sort resolved) index = some handler := by
    rw [Layout.handlerAt, getElem?_handlersOf] at hh
    split at hh
    · exact hh
    · cases hh
  obtain ⟨r, hr, rfl⟩ := Option.map_eq_some_iff.mp hlast
  have hmem : r ∈ resolved :=
    List.mem_mergeSort.mp (List.mem_of_mem_filter (List.mem_of_getLast? hr))
  obtain ⟨region, hregion, hresolved⟩ := exists_of_mem_mapM hregions hmem
  exact ⟨region, hregion, markedAt_of_resolve hlabels (resolveRegion_handler hresolved)⟩

theorem linkOps_cons {op : Op} (h : op.isInstruction) (layout : Layout) (index : Nat)
    (ranges : List SourceRange) (rest : List Op) :
    linkOps layout index ranges (op :: rest) = (do
      let (opcode, operand) ← linkOp layout.labels op
      let instruction : Instruction :=
        { opcode, operand, handler := layout.handlerAt index, range := ranges.headD {} }
      return instruction :: (← linkOps layout (index + 1) ranges.tail rest)) := by
  cases op with
  | label l => exact nomatch h
  | _ => rw [linkOps]; exact nofun

section Related

variable {α β : Type} {R : α → β → Prop} {as : List α} {bs : List β} {k : Nat} {a : α} {b : β}

theorem related_at (h : List.Forall₂ R as bs) (ha : as[k]? = some a) (hb : bs[k]? = some b) :
    R a b := by
  obtain ⟨hk, rfl⟩ := List.getElem?_eq_some_iff.mp ha
  obtain ⟨hk', rfl⟩ := List.getElem?_eq_some_iff.mp hb
  exact h.get hk hk'

theorem related_before (h : List.Forall₂ R as bs) (hb : bs[k]? = some b) :
    ∃ a, as[k]? = some a := by
  obtain ⟨hk, _⟩ := List.getElem?_eq_some_iff.mp hb
  exact ⟨_, List.getElem?_eq_getElem (h.length_eq ▸ hk)⟩

end Related

mutual

/-- Linking a function makes its code and adds its constants to the pool. -/
theorem linkFunction_linkedAs (f : Function) {pool pool' : Pool} {code : Code}
    (h : (linkFunction f).run pool = .ok (code, pool')) :
    Grows pool.constants pool'.constants ∧ Function.LinkedAs pool'.constants f code := by
  obtain ⟨name, signature, captures, ops, ranges, regions⟩ := f
  unfold linkFunction at h
  obtain ⟨layout, hlayout, h₁⟩ := run_lift_bind_eq_ok h
  obtain ⟨instructions, _, hops, h₂⟩ := run_bind_eq_ok h₁
  cases h₂
  obtain ⟨hgrows, hstands⟩ := linkOps_stands ops 0 (laidOut_of_layoutOf hlayout) hops
  refine ⟨hgrows, .intro rfl rfl rfl hstands.length_eq.symm ?range ?handler ?operation⟩
  case range =>
    intro k op position i hop hi
    exact (related_at hstands hop (List.getElem?_toArray ▸ hi)).range
  case handler =>
    intro i hi
    obtain ⟨k, hk⟩ := List.getElem?_of_mem (List.mem_toArray.mp hi)
    obtain ⟨op, hop⟩ := related_before hstands hk
    exact (related_at hstands hop hk).handler
  case operation =>
    intro k op position i hop hi
    exact (related_at hstands hop (List.getElem?_toArray ▸ hi)).operation

theorem linkOps_stands (ops : List Op) {f : Function} {layout : Layout} {index : Nat} (start : Nat)
    {pool pool' : Pool} {instructions : List Instruction} (hlayout : f.LaidOut layout)
    (h : (linkOps layout index (f.ranges.drop start) ops).run pool = .ok (instructions, pool')) :
    Grows pool.constants pool'.constants ∧ List.Forall₂ (f.Stands pool'.constants)
      ((ops.zipIdx start).filter (·.1.isInstruction)) instructions := by
  cases ops with
  | nil =>
    unfold linkOps at h
    cases h
    exact ⟨.refl _, .nil⟩
  | cons op rest =>
    cases hop : op.isInstruction with
    | false =>
      -- A label takes up a range, but no instruction: `start` moves on and `index` does not.
      obtain ⟨l, rfl⟩ := Op.eq_label_of_not_isInstruction hop
      rw [linkOps, List.tail_drop] at h
      rw [List.zipIdx_cons, List.filter_cons_of_neg (by simp [hop])]
      exact linkOps_stands rest (start + 1) hlayout h
    | true =>
      rw [linkOps_cons hop, List.tail_drop] at h
      obtain ⟨⟨opcode, operand⟩, pool₁, hfirst, h₁⟩ := run_bind_eq_ok h
      obtain ⟨others, pool₂, hrest, h₂⟩ := run_bind_eq_ok h₁
      cases h₂
      obtain ⟨hgrows, hlinked⟩ := linkOp_linkedAs op hlayout.labels hop hfirst
      obtain ⟨hgrows', hstands⟩ := linkOps_stands rest (start + 1) hlayout hrest
      -- What `op` was linked against has grown since, by the constants of the other operations.
      rw [List.zipIdx_cons, List.filter_cons_of_pos (by exact hop)]
      refine ⟨hgrows.trans hgrows', .cons ⟨?_, hlayout.handlers index, ?_⟩ hstands⟩
      · simp [List.headD_eq_head?_getD]
      · exact hlinked.mono hgrows'.keeps

theorem linkOp_linkedAs (op : Op) {f : Function} {labels : Labels}
    (hlabels : ∀ l n, resolve labels l = .ok n → f.MarkedAt l n)
    {pool pool' : Pool} {opcode : Opcode} {operand : UInt32} (hop : op.isInstruction)
    (h : (linkOp labels op).run pool = .ok ((opcode, operand), pool')) :
    Grows pool.constants pool'.constants ∧ Op.LinkedAs pool'.constants f op opcode operand := by
  cases op with
  | label l => exact nomatch hop
  | plain _ kind | slot _ kind _ | capture _ kind _ =>
    unfold linkOp at h
    cases h
    exact ⟨.refl _, by constructor⟩
  | name _ kind name =>
    unfold linkOp at h
    obtain ⟨index, _, hindex, h₁⟩ := run_bind_eq_ok h
    cases h₁
    obtain ⟨hgrows, hname⟩ := intern_grows .string hindex
    exact ⟨hgrows, .name hname⟩
  | jump _ kind target =>
    unfold linkOp at h
    obtain ⟨n, hn, h₁⟩ := run_lift_bind_eq_ok h
    obtain ⟨index, hindex, h₂⟩ := run_lift_bind_eq_ok h₁
    cases h₂
    refine ⟨.refl _, .jump ?_⟩
    rw [toNat_of_encodable hindex]
    exact hlabels target n hn
  | constant literal =>
    unfold linkOp at h
    obtain ⟨index, _, hindex, h₁⟩ := run_bind_eq_ok h
    cases h₁
    obtain ⟨hgrows, c, hc, hlinked⟩ := linkLiteral_linkedAs literal hindex
    exact ⟨hgrows, .constant hc hlinked⟩
  | closure function =>
    unfold linkOp at h
    obtain ⟨code, _, hcode, h₁⟩ := run_bind_eq_ok h
    obtain ⟨index, _, hindex, h₂⟩ := run_bind_eq_ok h₁
    cases h₂
    obtain ⟨hgrows, hlinked⟩ := linkFunction_linkedAs function hcode
    obtain ⟨hgrows', hentry⟩ := append_grows (.function hlinked) nofun hindex
    exact ⟨hgrows.trans hgrows', .closure hentry (hlinked.mono hgrows'.keeps)⟩

theorem linkLiteral_linkedAs (literal : Literal) {pool pool' : Pool} {operand : UInt32}
    (h : (linkLiteral literal).run pool = .ok (operand, pool')) :
    Grows pool.constants pool'.constants ∧ ∃ c, pool'.constants[operand.toNat]? = some c ∧
      Literal.LinkedAs pool'.constants literal c := by
  cases literal with
  | bool value | int value | float value | string value =>
    unfold linkLiteral at h
    obtain ⟨hgrows, hentry⟩ := intern_grows (by constructor) h
    exact ⟨hgrows, _, hentry, by constructor⟩
  | function function =>
    unfold linkLiteral at h
    obtain ⟨code, _, hcode, h₁⟩ := run_bind_eq_ok h
    obtain ⟨hgrows, hlinked⟩ := linkFunction_linkedAs function hcode
    obtain ⟨hgrows', hentry⟩ := append_grows (.function hlinked) nofun h₁
    exact ⟨hgrows.trans hgrows', _, hentry, .function (hlinked.mono hgrows'.keeps)⟩
  | template template =>
    obtain ⟨name, «sealed», methods⟩ := template
    unfold linkLiteral at h
    obtain ⟨codes, _, hcodes, h₁⟩ := run_bind_eq_ok h
    obtain ⟨hgrows, hplain, hlinked⟩ := linkMethods_linkedAs methods hcodes
    have hmethods : Literal.LinkedAs _ (.template ⟨name, «sealed», methods⟩)
        (.template ⟨name, «sealed», codes⟩) :=
      .template hlinked.length_eq.symm hplain fun k method code hm hc => related_at hlinked hm hc
    obtain ⟨hgrows', hentry⟩ := append_grows hmethods nofun h₁
    exact ⟨hgrows.trans hgrows', _, hentry, hmethods.mono hgrows'.keeps⟩

/-- The methods of a template have names and capture nothing. -/
theorem linkMethods_linkedAs (methods : List Function) {pool pool' : Pool}
    {codes : List Code} (h : (linkMethods methods).run pool = .ok (codes, pool')) :
    Grows pool.constants pool'.constants ∧
      (∀ method ∈ methods, method.name.isSome ∧ method.captures = []) ∧
      List.Forall₂ (Function.LinkedAs pool'.constants) methods codes := by
  cases methods with
  | nil =>
    unfold linkMethods at h
    cases h
    exact ⟨.refl _, nofun, .nil⟩
  | cons method rest =>
    unfold linkMethods at h
    split at h
    · exact nomatch h
    · rename_i name hname
      split at h
      · exact nomatch h
      · rename_i hcaptures
        obtain ⟨code, _, hcode, h₁⟩ := run_bind_eq_ok h
        obtain ⟨codes, _, hcodes, h₂⟩ := run_bind_eq_ok h₁
        cases h₂
        obtain ⟨hgrows, hlinked⟩ := linkFunction_linkedAs method hcode
        obtain ⟨hgrows', hplain, hrest⟩ := linkMethods_linkedAs rest hcodes
        refine ⟨hgrows.trans hgrows', List.forall_mem_cons.mpr ⟨⟨?_, ?_⟩, hplain⟩,
          .cons (hlinked.mono hgrows'.keeps) hrest⟩
        · rw [hname, Option.isSome_some]
        · simpa using hcaptures

end

/-! ## Linking modules -/

theorem wellLinked_empty : WellLinked #[] := ⟨by simp, by simp⟩

/-- A linked module has the pool that linking its body made, and the body. -/
theorem link_eq_ok {m : Module} {linked : LinkedModule} (h : m.link = .ok linked) :
    ∃ pool code, Grows #[] pool ∧ Function.LinkedAs pool m.body code ∧
      linked = ⟨m.name, pool.push (.code code)⟩ := by
  obtain ⟨⟨code, pool⟩, hcode, h⟩ := bind_eq_ok h
  obtain ⟨⟨operand, pool'⟩, happend, h⟩ := bind_eq_ok h
  cases h
  obtain ⟨hgrows, hlinked⟩ := linkFunction_linkedAs m.body hcode
  exact ⟨pool.constants, code, hgrows, hlinked, congrArg _ (append_run happend).2⟩

theorem wellLinked_of_link {m : Module} {linked : LinkedModule} (h : m.link = .ok linked) :
    WellLinked linked.pool := by
  obtain ⟨pool, code, hgrows, hlinked, rfl⟩ := link_eq_ok h
  exact (hgrows.trans (.push (.function hlinked) nofun)).wellLinked wellLinked_empty

/--
Every literal, name and nested function of a linked module is found in its pool, which ends in the
body and repeats no primitive constant.
-/
theorem Module.link_linkedAs {m : Module} {linked : LinkedModule} (h : m.link = .ok linked) :
    linked.name = m.name ∧
      (∃ code, linked.pool.back? = some (.code code) ∧
        Function.LinkedAs linked.pool m.body code) ∧
      WellLinked linked.pool := by
  have hwell := wellLinked_of_link h
  obtain ⟨pool, code, -, hlinked, rfl⟩ := link_eq_ok h
  refine ⟨rfl, ⟨code, Array.back?_push, hlinked.mono ?_⟩, hwell⟩
  exact (Grows.push (.function hlinked) nofun).keeps

/-- A module with a jump back, a protected region, a closure and a template. -/
def nested : Module where
  name := "nested"
  body := ⟨none, {}, [],
    [.label 7, .constant (.int 1), .constant (.float ⟨0x3ff0000000000000⟩),
      .closure ⟨some "inner", {}, [.slot 0],
        [.capture .loadCapture rfl 0, .constant (.int 1), .plain .return (.refl OperandKind.none)],
        [], []⟩,
      .constant (.template ⟨"T", true, [⟨some "get", {}, [],
        [.constant (.float ⟨0⟩), .plain .return (.refl OperandKind.none)], [], []⟩]⟩),
      .label 8, .jump .jump rfl 7, .constant (.float ⟨0x8000000000000000⟩),
      .plain .return (.refl OperandKind.none)],
    [{ start := ⟨1, 1⟩, stop := ⟨1, 2⟩ }, { start := ⟨2, 1⟩, stop := ⟨2, 2⟩ }], [⟨7, 8, 8⟩]⟩

/-- Its pool: the integer is shared, and the numbers that compare equal to it or to zero are not. -/
def nestedLinked : LinkedModule where
  name := "nested"
  pool := #[
    .int 1,
    .float ⟨0x3ff0000000000000⟩,
    .code {
      name := some "inner", signature := {}, captures := [.slot 0]
      instructions := #[
        { opcode := .loadCapture }, { opcode := .loadConst }, { opcode := .return }] },
    .float ⟨0⟩,
    .template {
      name := "T", sealed := true
      methods := [{
        name := some "get", signature := {}, captures := []
        instructions := #[{ opcode := .loadConst, operand := 3 }, { opcode := .return }] }] },
    .float ⟨0x8000000000000000⟩,
    .code {
      name := none, signature := {}, captures := []
      instructions := #[
        { opcode := .loadConst, operand := 0, handler := some 4,
          range := { start := ⟨2, 1⟩, stop := ⟨2, 2⟩ } },
        { opcode := .loadConst, operand := 1, handler := some 4 },
        { opcode := .makeFunction, operand := 2, handler := some 4 },
        { opcode := .loadConst, operand := 4, handler := some 4 },
        { opcode := .jump, operand := 0 },
        { opcode := .loadConst, operand := 5 },
        { opcode := .return }] }]

theorem link_nested :
    nested.link = .ok nestedLinked ∧ nestedLinked.name = "nested" ∧
      (∃ code, nestedLinked.pool.back? = some (.code code) ∧
        Function.LinkedAs nestedLinked.pool nested.body code) ∧
      WellLinked nestedLinked.pool := by
  have hlink : nested.link = .ok nestedLinked := by decide +kernel
  exact ⟨hlink, Module.link_linkedAs hlink⟩

end FiberMachine.Bitcode
