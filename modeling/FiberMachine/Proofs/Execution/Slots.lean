import FiberMachine.Frame
import FiberMachine.Proofs.Object.Open

/-!
# The slots of a new frame

Functions of a signature give the slot of each parameter, of the array of excess positional
arguments and of the object of other keyword arguments. A call writes each of these slots at most
once, and all of them are slots of the new frame (`Signature.within_writes`). What is collected on
the way is held by new things, and everything that there was is kept (`Heap.Collects`).
-/

namespace FiberMachine

/-! ## Writing slots -/

namespace Frame

variable {slots : Array Value} {writes : List (Nat × Value)} {i : Nat} {v : Value}

@[simp] theorem size_fill (slots : Array Value) (writes : List (Nat × Value)) :
    (fill slots writes).size = slots.size := by
  induction writes generalizing slots with
  | nil => rfl
  | cons w rest ih => exact (ih _).trans Array.size_setIfInBounds

theorem getElem?_fill_of_notMem (hi : i ∉ writes.map Prod.fst) :
    (fill slots writes)[i]? = slots[i]? := by
  induction writes generalizing slots with
  | nil => rfl
  | cons w rest ih =>
    obtain ⟨hne, hrest⟩ := List.ne_and_not_mem_of_not_mem_cons hi
    exact (ih hrest).trans (Array.getElem?_setIfInBounds_ne (Ne.symm hne))

/-- A slot that is written once has the value that was written. -/
theorem getElem?_fill_of_mem (hnodup : (writes.map Prod.fst).Nodup) (hmem : (i, v) ∈ writes)
    (hi : i < slots.size) : (fill slots writes)[i]? = some v := by
  induction writes generalizing slots with
  | nil => cases hmem
  | cons w rest ih =>
    obtain ⟨hw, hrest⟩ := List.nodup_cons.mp hnodup
    rcases List.mem_cons.mp hmem with rfl | hmem
    · exact (getElem?_fill_of_notMem hw).trans (Array.getElem?_setIfInBounds_self_of_lt hi)
    · have hi' : i < (slots.setIfInBounds w.1 w.2).size := by rwa [Array.size_setIfInBounds]
      exact ih hrest hmem hi'

end Frame

/-! ## The slots of keywords -/

namespace Signature

variable {s : Signature} {name name' : String} {i : Nat}

/-- The last place of a name counts, in a list that starts at place `n`. -/
theorem get?_foldl_insert (first n : Nat) (names : List String) (d : Dict Nat) (name : String) :
    let slots := (names.zipIdx n).foldl (fun d k => d.insert k.1 (first + k.2)) d
    (name ∉ names → slots.get? name = d.get? name) ∧
      (name ∈ names → ∃ j, names[j]? = some name ∧ slots.get? name = some (first + (n + j))) := by
  induction names generalizing n d with
  | nil => exact ⟨fun _ => rfl, fun hmem => absurd hmem List.not_mem_nil⟩
  | cons head rest ih =>
    obtain ⟨hout, hin⟩ := ih (n + 1) (d.insert head (first + n))
    refine ⟨fun hname => ?_, fun hname => ?_⟩
    · obtain ⟨hne, hrest⟩ := List.ne_and_not_mem_of_not_mem_cons hname
      exact (hout hrest).trans ((Dict.get?_insert ..).trans (if_neg hne))
    · by_cases hrest : name ∈ rest
      · obtain ⟨j, hj, hslot⟩ := hin hrest
        exact ⟨j + 1, hj, hslot.trans (congrArg some (by omega))⟩
      · obtain rfl : name = head := (List.mem_cons.mp hname).resolve_right hrest
        exact ⟨0, rfl, (hout hrest).trans (Dict.get?_insert_self ..)⟩

theorem keywordSlot?_eq_none_iff : s.keywordSlot? name = none ↔ name ∉ s.keywords := by
  obtain ⟨hout, hin⟩ := get?_foldl_insert s.firstKeywordSlot 0 s.keywords {} name
  refine ⟨fun hnone hmem => ?_, hout⟩
  obtain ⟨j, -, hslot⟩ := hin hmem
  exact Option.some_ne_none _ (hslot.symm.trans hnone)

theorem keyword_of_keywordSlot? (h : s.keywordSlot? name = some i) :
    ∃ j, s.keywords[j]? = some name ∧ i = s.firstKeywordSlot + j := by
  obtain ⟨hout, hin⟩ := get?_foldl_insert s.firstKeywordSlot 0 s.keywords {} name
  by_cases hmem : name ∈ s.keywords
  · obtain ⟨j, hj, hslot⟩ := hin hmem
    refine ⟨j, hj, ?_⟩
    have := Option.some.inj (h.symm.trans hslot)
    omega
  · cases h.symm.trans (hout hmem)

theorem keywordSlot?_eq_some_iff (hs : s.keywords.Nodup) :
    s.keywordSlot? name = some i ↔
      ∃ j, s.keywords[j]? = some name ∧ i = s.firstKeywordSlot + j := by
  refine ⟨keyword_of_keywordSlot?, ?_⟩
  rintro ⟨j, hj, rfl⟩
  cases hslot : s.keywordSlot? name with
  | none => exact absurd (List.mem_of_getElem? hj) (keywordSlot?_eq_none_iff.mp hslot)
  | some i =>
    obtain ⟨k, hk, rfl⟩ := keyword_of_keywordSlot? hslot
    have hlt := (List.getElem?_eq_some_iff.mp hj).1
    rw [(List.getElem?_inj hlt hs).mp (hj.trans hk.symm)]

/-- No two names have the same slot. -/
theorem keywordSlot?_inj (h : s.keywordSlot? name = some i) (h' : s.keywordSlot? name' = some i) :
    name = name' := by
  obtain ⟨j, hj, rfl⟩ := keyword_of_keywordSlot? h
  obtain ⟨j', hj', heq⟩ := keyword_of_keywordSlot? h'
  obtain rfl : j = j' := Nat.add_left_cancel heq
  exact Option.some.inj (hj.symm.trans hj')

/-! ## Distinct slots -/

/-- Distinct slots from `a` on and below `b`. -/
structure Within (slots : List Nat) (a b : Nat) : Prop where
  nodup : slots.Nodup
  le : a ≤ b
  bounds : ∀ i ∈ slots, a ≤ i ∧ i < b

theorem Within.append {front back : List Nat} {a b c : Nat} (hfront : Within front a b)
    (hback : Within back b c) : Within (front ++ back) a c where
  nodup := by
    refine List.nodup_append.mpr ⟨hfront.nodup, hback.nodup, fun i hi j hj heq => ?_⟩
    have hlt := (hfront.bounds i hi).2
    have hle := (hback.bounds j hj).1
    omega
  le := Nat.le_trans hfront.le hback.le
  bounds i hi := by
    have ha := hfront.le
    have hb := hback.le
    rcases List.mem_append.mp hi with hi | hi
    · have := hfront.bounds i hi
      omega
    · have := hback.bounds i hi
      omega

theorem within_required (s : Signature) (args : Arguments) :
    Within (List.range' firstParameter (args.positional.take s.positional.toNat).length)
      firstParameter (firstParameter + s.positional.toNat) where
  nodup := List.nodup_range'
  le := Nat.le_add_right ..
  bounds i hi := by
    rw [List.mem_range'_1, List.length_take] at hi
    omega

theorem within_excess (s : Signature) :
    Within s.variadicPositionalSlot.toList (firstParameter + s.positional.toNat)
      s.firstKeywordSlot := by
  cases h : s.variadicPositional <;> simp [variadicPositionalSlot, firstKeywordSlot, h] <;>
    exact ⟨by simp, by simp, by simp⟩

theorem within_keywords (s : Signature) (args : Arguments) :
    Within (args.keywords.keys.filterMap s.keywordSlot?) s.firstKeywordSlot
      (s.firstKeywordSlot + s.keywords.length) where
  nodup := args.keywords.nodup.filterMap fun _ _ _ h h' => keywordSlot?_inj h h'
  le := Nat.le_add_right ..
  bounds i hi := by
    obtain ⟨name, -, hslot⟩ := List.mem_filterMap.mp hi
    obtain ⟨j, hj, rfl⟩ := keyword_of_keywordSlot? hslot
    exact ⟨Nat.le_add_right .., Nat.add_lt_add_left (List.getElem?_eq_some_iff.mp hj).1 _⟩

theorem within_others (s : Signature) :
    Within s.variadicKeywordSlot.toList (s.firstKeywordSlot + s.keywords.length)
      s.parameterSlots := by
  cases h : s.variadicKeyword <;> simp [variadicKeywordSlot, parameterSlots, h] <;>
    exact ⟨by simp, by simp, by simp⟩

theorem map_fst_writes (s : Signature) (function : Ref .function) (receiver : Value)
    (args : Arguments) (excess others : List (Nat × Value)) :
    (s.writes function receiver args excess others).map Prod.fst =
      [callableSlot, receiverSlot] ++
        List.range' firstParameter (args.positional.take s.positional.toNat).length ++
        excess.map Prod.fst ++ args.keywords.keys.filterMap s.keywordSlot? ++
        others.map Prod.fst := by
  have hkeywords (entries : List (String × Value)) :
      (entries.filterMap fun k => (s.keywordSlot? k.1).map (·, k.2)).map Prod.fst =
        (entries.map Prod.fst).filterMap s.keywordSlot? := by
    rw [List.map_filterMap, List.filterMap_map]
    refine List.filterMap_congr fun k _ => ?_
    cases hslot : s.keywordSlot? k.1 <;> simp [hslot]
  have hpositional (values : List Value) :
      ((values.zipIdx firstParameter).map Prod.swap).map Prod.fst =
        List.range' firstParameter values.length := by
    rw [List.map_map]
    exact List.zipIdx_map_snd ..
  simp only [writes, List.map_append, hkeywords, hpositional, Dict.keys, List.map_cons,
    List.map_nil]

section Writes

variable {s : Signature} {args : Arguments} {excess others : List (Nat × Value)} {name : String}
  {i : Nat} {v : Value}

theorem mem_writes_positional {function : Ref .function} {receiver : Value}
    (hi : i < s.positional.toNat) (hv : args.positional[i]? = some v) :
    (firstParameter + i, v) ∈ s.writes function receiver args excess others := by
  have hmem : (v, firstParameter + i) ∈
      (args.positional.take s.positional.toNat).zipIdx firstParameter := by
    rw [List.mk_add_mem_zipIdx_iff_getElem?, List.getElem?_take_of_lt hi, hv]
  simp only [writes, List.mem_append]
  exact .inl (.inl (.inl (.inr (List.mem_map.mpr ⟨_, hmem, rfl⟩))))

theorem mem_writes_keyword {function : Ref .function} {receiver : Value}
    (hi : s.keywordSlot? name = some i) (hv : args.keyword? name = some v) :
    (i, v) ∈ s.writes function receiver args excess others := by
  simp only [writes, List.mem_append]
  refine .inl (.inr (List.mem_filterMap.mpr ⟨(name, v), Dict.get?_eq_some_iff.mp hv, ?_⟩))
  rw [hi]
  rfl

/-- The slot of a keyword parameter is written for a keyword argument only. -/
theorem mem_keys_of_mem_writes {function : Ref .function} {receiver : Value}
    (hexcess : excess.map Prod.fst = s.variadicPositionalSlot.toList)
    (hothers : others.map Prod.fst = s.variadicKeywordSlot.toList)
    (hi : s.keywordSlot? name = some i)
    (hmem : i ∈ (s.writes function receiver args excess others).map Prod.fst) :
    name ∈ args.keywords.keys := by
  obtain ⟨j, hj, hslot⟩ := keyword_of_keywordSlot? hi
  have hlt := (List.getElem?_eq_some_iff.mp hj).1
  have hfirst : firstParameter + s.positional.toNat ≤ s.firstKeywordSlot := s.within_excess.le
  simp only [map_fst_writes, hexcess, hothers, List.mem_append] at hmem
  rcases hmem with (((hmem | hmem) | hmem) | hmem) | hmem
  · have : i < firstParameter := by
      rcases List.mem_pair.mp hmem with rfl | rfl <;> decide
    omega
  · have := (s.within_required args).bounds i hmem
    omega
  · have := s.within_excess.bounds i hmem
    omega
  · obtain ⟨name', hname', hi'⟩ := List.mem_filterMap.mp hmem
    rwa [keywordSlot?_inj hi hi']
  · have := s.within_others.bounds i hmem
    omega

end Writes

/-- Each part of the slots ends where the next one starts. -/
theorem within_writes {s : Signature} {excess others : List (Nat × Value)}
    (function : Ref .function) (receiver : Value) (args : Arguments)
    (hexcess : excess.map Prod.fst = s.variadicPositionalSlot.toList)
    (hothers : others.map Prod.fst = s.variadicKeywordSlot.toList) :
    Within ((s.writes function receiver args excess others).map Prod.fst) 0 s.parameterSlots := by
  have hfirst : Within [callableSlot, receiverSlot] 0 firstParameter :=
    ⟨by decide, Nat.zero_le _, by decide⟩
  rw [map_fst_writes, hexcess, hothers]
  exact (((hfirst.append (s.within_required args)).append s.within_excess).append
    (s.within_keywords args)).append s.within_others

end Signature

/-! ## What is collected -/

namespace Heap

/-- What is collected is held by new things, and everything that there was is kept. -/
structure Collects (s : Signature) (args : Arguments) (h h' : Heap)
    (excess others : List (Nat × Value)) : Prop where
  excess : s.variadicPositionalSlot = none ∧ excess = [] ∨
    ∃ slot r, s.variadicPositionalSlot = some slot ∧ excess = [(slot, .array r)] ∧
      h.array? r = none ∧ h'.array? r = some (.ofList (args.positional.drop s.positional.toNat))
  others : s.variadicKeywordSlot = none ∧ others = [] ∨
    ∃ slot r fields, s.variadicKeywordSlot = some slot ∧ others = [(slot, .object r)] ∧
      h.object? r = none ∧ h'.object? r = some { attributes := fields } ∧
      ∀ name, fields.get? name =
        if name ∈ s.keywords then none else (args.keyword? name).map fun value => { value }
  arrays : ∀ r a, h.array? r = some a → h'.array? r = some a
  objects : ∀ r o, h.object? r = some o → h'.object? r = some o
  rest : h' = { h with arrays := h'.arrays, objects := h'.objects }

/-- The keyword arguments without a parameter make an object. -/
theorem setAll_others (s : Signature) (args : Arguments) :
    ∃ fields : Dict Attribute,
      Object.setAll {} (args.keywords.entries.filter fun k => (s.keywordSlot? k.1).isNone) =
        .ok { attributes := fields } ∧
      ∀ name, fields.get? name =
        if name ∈ s.keywords then none else (args.keyword? name).map fun value => { value } := by
  let undeclared := args.keywords.entries.filter fun k => (s.keywordSlot? k.1).isNone
  have hmem (name : String) (value : Value) :
      (name, value) ∈ undeclared ↔ args.keyword? name = some value ∧ name ∉ s.keywords := by
    rw [List.mem_filter, Option.isNone_iff_eq_none, Signature.keywordSlot?_eq_none_iff]
    exact and_congr_left' Dict.get?_eq_some_iff.symm
  have hnodup : (undeclared.map Prod.fst).Nodup :=
    args.keywords.nodup.sublist (List.filter_sublist.map _)
  obtain ⟨o, hok, hframe, hset, hnone⟩ :=
    Object.setAll_of_isFree Object.isOpen_empty (Object.isFree_empty.mpr hnodup)
  have habsent {name : String} (h : ∀ value, (name, value) ∉ undeclared) :
      o.attributes.get? name = none := by
    refine hnone name fun hname => ?_
    obtain ⟨⟨_, value⟩, hvalue, rfl⟩ := List.mem_map.mp hname
    exact h value hvalue
  refine ⟨o.attributes, hframe ▸ hok, fun name => ?_⟩
  by_cases hname : name ∈ s.keywords
  · rw [if_pos hname, habsent fun value hvalue => ((hmem name value).mp hvalue).2 hname]
  · rw [if_neg hname]
    cases hkeyword : args.keyword? name with
    | none =>
      refine habsent fun value hvalue => ?_
      exact Option.some_ne_none value (((hmem name value).mp hvalue).1.symm.trans hkeyword)
    | some value => exact hset name value ((hmem name value).mpr ⟨hkeyword, hname⟩)

theorem collects_of_collect (h : Heap) (s : Signature) (args : Arguments) :
    ∃ others h', (h.collectExcess s args).2.collectOthers s args = (.ok others, h') ∧
      Collects s args h h' (h.collectExcess s args).1 others := by
  obtain ⟨fields, hset, hfields⟩ := setAll_others s args
  cases hexcess : s.variadicPositionalSlot <;> cases hothers : s.variadicKeywordSlot <;>
    simp only [collectExcess, collectOthers, hexcess, hothers, hset] <;>
    refine ⟨_, _, rfl, ?_⟩
  case none.none =>
    exact ⟨.inl ⟨hexcess, rfl⟩, .inl ⟨hothers, rfl⟩, fun _ _ => id, fun _ _ => id, rfl⟩
  case none.some slot =>
    exact ⟨.inl ⟨hexcess, rfl⟩,
      .inr ⟨slot, _, fields, hothers, rfl, object?_size, object?_newObject_self _, hfields⟩,
      fun _ _ => id, fun _ _ ho => object?_newObject ho _, rfl⟩
  case some.none slot =>
    exact ⟨.inr ⟨slot, _, hexcess, rfl, array?_size, array?_newArray_self _⟩,
      .inl ⟨hothers, rfl⟩, fun _ _ ha => array?_newArray ha _, fun _ _ => id, rfl⟩
  case some.some slot slot' =>
    exact ⟨.inr ⟨slot, _, hexcess, rfl, array?_size, array?_newArray_self _⟩,
      .inr ⟨slot', _, fields, hothers, rfl, object?_size, object?_newObject_self _, hfields⟩,
      fun _ _ ha => array?_newArray ha _, fun _ _ ho => object?_newObject ho _, rfl⟩

variable {s : Signature} {args : Arguments} {h h' : Heap} {excess others : List (Nat × Value)}

theorem Collects.map_fst_excess (H : Collects s args h h' excess others) :
    excess.map Prod.fst = s.variadicPositionalSlot.toList := by
  rcases H.excess with ⟨hslot, rfl⟩ | ⟨slot, r, hslot, rfl, -⟩ <;> rw [hslot] <;> rfl

theorem Collects.map_fst_others (H : Collects s args h h' excess others) :
    others.map Prod.fst = s.variadicKeywordSlot.toList := by
  rcases H.others with ⟨hslot, rfl⟩ | ⟨slot, r, fields, hslot, rfl, -⟩ <;> rw [hslot] <;> rfl

theorem Collects.within_writes (H : Collects s args h h' excess others) (function : Ref .function)
    (receiver : Value) :
    Signature.Within ((s.writes function receiver args excess others).map Prod.fst) 0
      s.parameterSlots :=
  Signature.within_writes function receiver args H.map_fst_excess H.map_fst_others

end Heap

namespace Frame

variable {s : Signature}

@[simp] theorem size_blank (s : Signature) : (blank s).size = s.parameterSlots := by
  have hle : Signature.firstParameter ≤ s.parameterSlots := by
    simp only [Signature.parameterSlots, Signature.firstKeywordSlot]
    omega
  rw [blank, Array.size_replicate, Nat.max_eq_left hle]

theorem getElem?_blank {i : Nat} (hi : i < s.parameterSlots) : (blank s)[i]? = some .null := by
  rw [Array.getElem?_eq_getElem (size_blank s ▸ hi)]
  simp [blank]

end Frame

namespace Heap

variable {s : Signature} {args : Arguments} {h h' : Heap} {excess others : List (Nat × Value)}
  {function : Ref .function} {receiver : Value} {i : Nat} {v : Value}

theorem Collects.slot_of_mem (H : Collects s args h h' excess others)
    (hmem : (i, v) ∈ s.writes function receiver args excess others) :
    (Frame.fill (Frame.blank s) (s.writes function receiver args excess others))[i]? = some v := by
  have hwithin := H.within_writes function receiver
  refine Frame.getElem?_fill_of_mem hwithin.nodup hmem ?_
  rw [Frame.size_blank]
  exact (hwithin.bounds i (List.mem_map.mpr ⟨_, hmem, rfl⟩)).2

theorem Collects.slot_callable (H : Collects s args h h' excess others) :
    (Frame.fill (Frame.blank s)
      (s.writes function receiver args excess others))[Signature.callableSlot]? =
        some (.function function) :=
  H.slot_of_mem (by simp [Signature.writes])

/-- The slot of a keyword parameter without an argument stays null. -/
theorem Collects.slot_of_keyword {name : String} (H : Collects s args h h' excess others)
    (hi : s.keywordSlot? name = some i) (hname : args.keyword? name = none) :
    (Frame.fill (Frame.blank s) (s.writes function receiver args excess others))[i]? =
      some .null := by
  obtain ⟨j, hj, rfl⟩ := Signature.keyword_of_keywordSlot? hi
  have hlt := (List.getElem?_eq_some_iff.mp hj).1
  have hle := s.within_others.le
  rw [Frame.getElem?_fill_of_notMem fun hmem => ?_, Frame.getElem?_blank (by omega)]
  exact Dict.get?_eq_none_iff.mp hname
    (Signature.mem_keys_of_mem_writes H.map_fst_excess H.map_fst_others hi hmem)

theorem assign_of_mismatch? {fault : Fault} (hfault : s.mismatch? args = some fault) (h : Heap)
    (function : Ref .function) (receiver : Value) :
    h.assign function s receiver args = (.error fault, h) := by
  rw [assign, hfault]

/-- Arguments that fit all find their slots. -/
theorem assign_of_fits (hfits : s.mismatch? args = none) (h : Heap) (function : Ref .function)
    (receiver : Value) :
    ∃ excess others h', Collects s args h h' excess others ∧
      h.assign function s receiver args =
        (.ok (s.writes function receiver args excess others), h') := by
  obtain ⟨others, h', hok, hcollects⟩ := collects_of_collect h s args
  refine ⟨_, others, h', hcollects, ?_⟩
  rw [assign, hfits]
  simp only [hok]

end Heap

/-! ## New frames -/

namespace Frame

variable (h : Heap) (function : Ref .function) (code : Code) (captures : List (Ref .cell))
  (scope : Scope) (receiver : Value) (args : Arguments)

/-- A frame is made of arguments that fit; other arguments leave no trace. -/
theorem bind_cases :
    (∃ fault, code.signature.mismatch? args = some fault ∧
      bind h function code captures scope receiver args = (.error fault, h)) ∨
    code.signature.mismatch? args = none ∧ ∃ excess others h',
      let writes := code.signature.writes function receiver args excess others
      Heap.Collects code.signature args h h' excess others ∧
      h.assign function code.signature receiver args = (.ok writes, h') ∧
      bind h function code captures scope receiver args =
        (.ok { code, scope, captures, slots := fill (blank code.signature) writes }, h') := by
  cases hfits : code.signature.mismatch? args with
  | some fault =>
    refine .inl ⟨fault, rfl, ?_⟩
    rw [bind, Heap.assign_of_mismatch? hfits]
  | none =>
    obtain ⟨excess, others, h', hcollects, hassign⟩ :=
      Heap.assign_of_fits hfits h function receiver
    refine .inr ⟨rfl, excess, others, h', hcollects, hassign, ?_⟩
    rw [bind, hassign]

end Frame

end FiberMachine
