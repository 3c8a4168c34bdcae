import FiberMachine.Proofs.Execution.Slots

/-!
# Where the arguments of a call end up

A signature lays out the slots of a frame: functions of it give the slot of each parameter, of the
array of excess positional arguments and of the object of other keyword arguments. Binding fills
exactly these slots (`Frame.Holds`), fails without a trace when the arguments do not fit, and loses
or duplicates nothing: of all places that take an argument, which are slots, elements of the array
and attributes of the object, exactly one takes each argument that is supplied
(`Frame.bind_exact`).
-/

namespace FiberMachine

/-! ## Which arguments fit -/

namespace Signature

variable {s : Signature} {args : Arguments}

/-- There are as many positional arguments as parameters, or more if these are collected. -/
def TakesCount (s : Signature) (args : Arguments) : Prop :=
  args.positional.length = s.positional.toNat ∨
    s.positional.toNat < args.positional.length ∧ s.variadicPositional

/-- Every keyword argument has a parameter, or those that have none are collected. -/
def TakesKeywords (s : Signature) (args : Arguments) : Prop :=
  (∀ name, (args.keyword? name).isSome → name ∈ s.keywords) ∨ s.variadicKeyword

theorem TakesCount.le (h : s.TakesCount args) : s.positional.toNat ≤ args.positional.length := by
  rcases h with h | h
  · exact Nat.le_of_eq h.symm
  · exact Nat.le_of_lt h.1

theorem mismatch?_of_not_takesCount (h : ¬ s.TakesCount args) :
    s.mismatch? args = some .argumentCount := by
  unfold TakesCount at h
  unfold mismatch?
  cases hvariadic : s.variadicPositional <;> grind

theorem mismatch?_of_takesCount (h : s.TakesCount args) :
    s.mismatch? args =
      if !s.variadicKeyword && args.keywords.keys.any fun name => (s.keywordSlot? name).isNone then
        some .unknownKeyword
      else none := by
  unfold TakesCount at h
  unfold mismatch?
  cases hvariadic : s.variadicPositional <;> grind

theorem takesKeywords_iff :
    s.TakesKeywords args ↔
      (!s.variadicKeyword && args.keywords.keys.any fun name => (s.keywordSlot? name).isNone) =
        false := by
  have hkeys (name : String) : (args.keyword? name).isSome ↔ name ∈ args.keywords.keys := by
    rw [Arguments.keyword?, ← not_iff_not, Bool.not_eq_true, Option.isSome_eq_false_iff,
      Option.isNone_iff_eq_none, Dict.get?_eq_none_iff]
  have hdeclared (name : String) : (s.keywordSlot? name).isNone = false ↔ name ∈ s.keywords := by
    rw [← Bool.not_eq_true, Option.isNone_iff_eq_none, keywordSlot?_eq_none_iff, not_not]
  simp only [TakesKeywords, hkeys]
  cases s.variadicKeyword with
  | false =>
    simp only [Bool.not_false, Bool.true_and, List.any_eq_false, Bool.not_eq_true, hdeclared,
      Bool.false_eq_true, or_false]
  | true => simp

theorem mismatch?_eq_none_iff :
    s.mismatch? args = none ↔ s.TakesCount args ∧ s.TakesKeywords args := by
  by_cases hcount : s.TakesCount args
  · rw [mismatch?_of_takesCount hcount, takesKeywords_iff]
    simp [hcount]
  · rw [mismatch?_of_not_takesCount hcount]
    simp [hcount]

end Signature

namespace Frame

section

variable (h : Heap) (function : Ref .function) {code : Code} (captures : List (Ref .cell))
  (scope : Scope) (receiver : Value) {args : Arguments}

theorem bind_of_mismatch? {fault : Fault} (hfault : code.signature.mismatch? args = some fault) :
    bind h function code captures scope receiver args = (.error fault, h) := by
  rw [bind, Heap.assign_of_mismatch? hfault]

theorem bind_of_not_takesCount (hcount : ¬ code.signature.TakesCount args) :
    bind h function code captures scope receiver args = (.error .argumentCount, h) :=
  bind_of_mismatch? _ _ _ _ _ (Signature.mismatch?_of_not_takesCount hcount)

theorem bind_of_not_takesKeywords (hcount : code.signature.TakesCount args)
    (hkeywords : ¬ code.signature.TakesKeywords args) :
    bind h function code captures scope receiver args = (.error .unknownKeyword, h) := by
  refine bind_of_mismatch? _ _ _ _ _ ?_
  rw [Signature.takesKeywords_iff, Bool.not_eq_false] at hkeywords
  rw [Signature.mismatch?_of_takesCount hcount, if_pos hkeywords]

end

end Frame

/-! ## Places of arguments -/

/-- One of the arguments of a call. -/
inductive Argument where
  | positional (index : Nat)
  | keyword (name : String)

/-- The value that is supplied for an argument. -/
def Arguments.value? (args : Arguments) : Argument → Option Value
  | .positional i => args.positional[i]?
  | .keyword name => args.keyword? name

/-- Where a frame can hold an argument. -/
inductive Place where
  | slot (index : Nat)
  /-- An element of the array of excess positional arguments. -/
  | excess (index : Nat)
  /-- An attribute of the object of other keyword arguments. -/
  | other (name : String)

namespace Signature

variable {s : Signature} {args : Arguments}

/-- The place is for the argument. -/
inductive Takes (s : Signature) : Place → Argument → Prop where
  | positional {i k : Nat} (hi : i < s.positional.toNat) (hk : k = firstParameter + i) :
    Takes s (.slot k) (.positional i)
  | excess {i k : Nat} (hvariadic : s.variadicPositional) (hk : k = s.positional.toNat + i) :
    Takes s (.excess i) (.positional k)
  | keyword {i : Nat} {name : String} (hi : s.keywordSlot? name = some i) :
    Takes s (.slot i) (.keyword name)
  | other {name : String} (hvariadic : s.variadicKeyword) (hname : name ∉ s.keywords) :
    Takes s (.other name) (.keyword name)

theorem Takes.argument_unique (hs : s.keywords.Nodup) {p : Place} {a b : Argument}
    (ha : s.Takes p a) (hb : s.Takes p b) : a = b := by
  have hapart {i k : Nat} {name : String} (hi : i < s.positional.toNat)
      (hk : k = firstParameter + i) : s.keywordSlot? name ≠ some k := by
    rw [Ne, keywordSlot?_eq_some_iff hs]
    rintro ⟨j, -, hj⟩
    simp only [firstKeywordSlot] at hj
    omega
  cases ha with
  | positional hi hk =>
    cases hb with
    | positional hi' hk' => exact congrArg _ (by omega)
    | keyword hslot => exact absurd hslot (hapart hi hk)
  | excess _ hk =>
    cases hb with
    | excess _ hk' => exact congrArg _ (hk.trans hk'.symm)
  | keyword hslot =>
    cases hb with
    | positional hi hk => exact absurd hslot (hapart hi hk)
    | keyword hslot' =>
      obtain ⟨j, hj, rfl⟩ := (keywordSlot?_eq_some_iff hs).mp hslot
      obtain ⟨j', hj', heq⟩ := (keywordSlot?_eq_some_iff hs).mp hslot'
      obtain rfl : j = j' := Nat.add_left_cancel heq
      exact congrArg _ (Option.some.inj (hj.symm.trans hj'))
  | other =>
    cases hb
    rfl

/-- Each supplied argument of a call that fits has one place. -/
theorem exists_takes_iff (hs : s.keywords.Nodup) (hcount : s.TakesCount args)
    (hkeywords : s.TakesKeywords args) {a : Argument} {v : Value} (ha : args.value? a = some v) :
    ∃ p, ∀ q, s.Takes q a ↔ q = p := by
  cases a with
  | positional k =>
    by_cases hk : k < s.positional.toNat
    · refine ⟨.slot (firstParameter + k), fun q => ⟨fun hq => ?_, ?_⟩⟩
      · cases hq with
        | positional _ hslot => exact congrArg _ hslot
        | excess => omega
      · rintro rfl
        exact .positional hk rfl
    · have hlt : k < args.positional.length := (List.getElem?_eq_some_iff.mp ha).1
      have hvariadic : s.variadicPositional := by
        rcases hcount with heq | ⟨-, hvariadic⟩
        · omega
        · exact hvariadic
      refine ⟨.excess (k - s.positional.toNat), fun q => ⟨fun hq => ?_, ?_⟩⟩
      · cases hq with
        | positional hi => exact absurd hi hk
        | excess _ heq => exact congrArg _ (by omega)
      · rintro rfl
        exact .excess hvariadic (by omega)
  | keyword name =>
    by_cases hname : name ∈ s.keywords
    · obtain ⟨j, hj⟩ := List.mem_iff_getElem?.mp hname
      have hslot := (keywordSlot?_eq_some_iff hs).mpr ⟨j, hj, rfl⟩
      refine ⟨.slot (s.firstKeywordSlot + j), fun q => ⟨fun hq => ?_, ?_⟩⟩
      · cases hq with
        | keyword hslot' => exact congrArg _ (Option.some.inj (hslot'.symm.trans hslot))
        | other _ hname' => exact absurd hname hname'
      · rintro rfl
        exact .keyword hslot
    · have hvariadic : s.variadicKeyword := by
        rcases hkeywords with hdeclared | hvariadic
        · exact absurd (hdeclared name (Option.isSome_of_eq_some ha)) hname
        · exact hvariadic
      refine ⟨.other name, fun q => ⟨fun hq => ?_, ?_⟩⟩
      · cases hq with
        | keyword hslot =>
          obtain ⟨j, hj, -⟩ := (keywordSlot?_eq_some_iff hs).mp hslot
          exact absurd (List.mem_of_getElem? hj) hname
        | other => rfl
      · rintro rfl
        exact .other hvariadic hname

end Signature

namespace Frame

/-- The value at a place of the frame. -/
def at? (f : Frame) (h : Heap) : Place → Option Value
  | .slot i => f.slots[i]?
  | .excess i =>
    match f.code.signature.variadicPositionalSlot.bind (f.slots[·]?) with
    | some (.array r) => (h.array? r).bind (·.values[i]?)
    | _ => none
  | .other name =>
    match f.code.signature.variadicKeywordSlot.bind (f.slots[·]?) with
    | some (.object r) => (h.object? r).bind (·.lookup? name)
    | _ => none

/--
The slots of the frame hold the callable, the receiver and the arguments, each where its signature
has it. What it collects is new: the heap was `h` before, and is kept in `h'`.
-/
structure Holds (f : Frame) (h h' : Heap) (function : Ref .function) (receiver : Value)
    (args : Arguments) : Prop where
  size : f.slots.size = f.code.signature.parameterSlots
  callable : f.slots[Signature.callableSlot]? = some (.function function)
  self : f.slots[Signature.receiverSlot]? = some receiver
  positional : ∀ i < f.code.signature.positional.toNat, ∃ v, args.positional[i]? = some v ∧
    f.slots[Signature.firstParameter + i]? = some v
  excess : ∀ i, f.code.signature.variadicPositionalSlot = some i →
    ∃ r, f.slots[i]? = some (.array r) ∧ h.array? r = none ∧
      h'.array? r = some (.ofList (args.positional.drop f.code.signature.positional.toNat))
  keyword : ∀ i name, f.code.signature.keywords[i]? = some name →
    f.code.signature.keywordSlot? name = some (f.code.signature.firstKeywordSlot + i) ∧
      f.slots[f.code.signature.firstKeywordSlot + i]? = some ((args.keyword? name).getD .null)
  others : ∀ i, f.code.signature.variadicKeywordSlot = some i →
    ∃ r fields, f.slots[i]? = some (.object r) ∧ h.object? r = none ∧
      h'.object? r = some { attributes := fields } ∧ ∀ name, fields.get? name =
        if name ∈ f.code.signature.keywords then none
        else (args.keyword? name).map fun value => { value }
  arrays : ∀ r a, h.array? r = some a → h'.array? r = some a
  objects : ∀ r o, h.object? r = some o → h'.object? r = some o
  rest : h' = { h with arrays := h'.arrays, objects := h'.objects }

theorem holds_of_collects {f : Frame} {h h' : Heap} {function : Ref .function} {receiver : Value}
    {args : Arguments} {excess others : List (Nat × Value)}
    (hs : f.code.signature.keywords.Nodup) (hcount : f.code.signature.TakesCount args)
    (H : Heap.Collects f.code.signature args h h' excess others)
    (hslots : f.slots = fill (blank f.code.signature)
      (f.code.signature.writes function receiver args excess others)) :
    f.Holds h h' function receiver args where
  size := by rw [hslots, size_fill, size_blank]
  callable := by
    rw [hslots]
    exact H.slot_callable
  self := by
    rw [hslots]
    exact H.slot_of_mem (by simp [Signature.writes])
  positional i hi := by
    have hlt : i < args.positional.length := Nat.lt_of_lt_of_le hi hcount.le
    refine ⟨_, List.getElem?_eq_getElem hlt, ?_⟩
    rw [hslots]
    exact H.slot_of_mem (Signature.mem_writes_positional hi (List.getElem?_eq_getElem hlt))
  excess i hi := by
    rcases H.excess with ⟨hnone, -⟩ | ⟨slot, r, hslot, rfl, hfresh, hr⟩
    · cases hnone.symm.trans hi
    · cases hslot.symm.trans hi
      refine ⟨r, ?_, hfresh, hr⟩
      rw [hslots]
      exact H.slot_of_mem (by simp [Signature.writes])
  keyword i name hi := by
    have hslot := (Signature.keywordSlot?_eq_some_iff hs).mpr ⟨i, hi, rfl⟩
    refine ⟨hslot, ?_⟩
    rw [hslots]
    cases hkeyword : args.keyword? name with
    | none => exact H.slot_of_keyword hslot hkeyword
    | some v => exact H.slot_of_mem (Signature.mem_writes_keyword hslot hkeyword)
  others i hi := by
    rcases H.others with ⟨hnone, -⟩ | ⟨slot, r, fields, hslot, rfl, hfresh, hr, hfields⟩
    · cases hnone.symm.trans hi
    · cases hslot.symm.trans hi
      refine ⟨r, fields, ?_, hfresh, hr, hfields⟩
      rw [hslots]
      exact H.slot_of_mem (by simp [Signature.writes])
  arrays := H.arrays
  objects := H.objects
  rest := H.rest

/-- A supplied argument is at the place that is for it. -/
theorem Holds.at?_eq_some {f : Frame} {h h' : Heap} {function : Ref .function} {receiver : Value}
    {args : Arguments} (H : f.Holds h h' function receiver args)
    (hs : f.code.signature.keywords.Nodup) {p : Place} {a : Argument} {v : Value}
    (hp : f.code.signature.Takes p a) (ha : args.value? a = some v) : f.at? h' p = some v := by
  cases hp with
  | positional hi hk =>
    obtain ⟨w, hw, hslot⟩ := H.positional _ hi
    rw [at?, hk, hslot, ← hw]
    exact ha
  | @excess i k hvariadic hk =>
    have hslot : f.code.signature.variadicPositionalSlot = _ := if_pos hvariadic
    obtain ⟨r, hr, -, harray⟩ := H.excess _ hslot
    rw [at?, hslot, Option.bind_some, hr]
    simp only [harray, Option.bind_some, Sequence.ofList, List.getElem?_toArray, List.getElem?_drop]
    rw [← hk]
    exact ha
  | keyword hi =>
    obtain ⟨j, hj, rfl⟩ := (Signature.keywordSlot?_eq_some_iff hs).mp hi
    have hkeyword : args.keyword? _ = some v := ha
    rw [at?, (H.keyword j _ hj).2, hkeyword, Option.getD_some]
  | other hvariadic hname =>
    have hslot : f.code.signature.variadicKeywordSlot = _ := if_pos hvariadic
    obtain ⟨r, fields, hr, -, hobject, hfields⟩ := H.others _ hslot
    have hkeyword : args.keyword? _ = some v := ha
    rw [at?, hslot, Option.bind_some, hr]
    simp [hobject, Object.lookup?, hfields, hname, hkeyword]

/--
Binding succeeds for the arguments that fit, and only for them. The number of positional arguments
is checked first, and arguments that do not fit leave the heap as it is. No slot is written twice or
is beyond the last one. The frame holds every argument, in the one place that is for it and for no
other argument.
-/
theorem bind_exact (h : Heap) (function : Ref .function) (code : Code) (captures : List (Ref .cell))
    (scope : Scope) (receiver : Value) (args : Arguments)
    (hs : code.signature.keywords.Nodup) :
    ((∃ f h', bind h function code captures scope receiver args = (.ok f, h')) ↔
      code.signature.TakesCount args ∧ code.signature.TakesKeywords args) ∧
    (¬ code.signature.TakesCount args →
      bind h function code captures scope receiver args = (.error .argumentCount, h)) ∧
    (code.signature.TakesCount args → ¬ code.signature.TakesKeywords args →
      bind h function code captures scope receiver args = (.error .unknownKeyword, h)) ∧
    ∀ f h', bind h function code captures scope receiver args = (.ok f, h') →
      f = { code, scope, captures, slots := f.slots } ∧
      (∃ writes, h.assign function code.signature receiver args = (.ok writes, h') ∧
        (writes.map Prod.fst).Nodup ∧ ∀ i ∈ writes.map Prod.fst, i < f.slots.size) ∧
      f.Holds h h' function receiver args ∧
      (∀ a v, args.value? a = some v →
        ∃ p, (∀ q, code.signature.Takes q a ↔ q = p) ∧ f.at? h' p = some v) ∧
      ∀ p a b, code.signature.Takes p a → code.signature.Takes p b → a = b := by
  refine ⟨?_, bind_of_not_takesCount h function captures scope receiver,
    bind_of_not_takesKeywords h function captures scope receiver, ?_⟩
  · rw [← Signature.mismatch?_eq_none_iff]
    rcases bind_cases h function code captures scope receiver args with
      ⟨fault, hfault, hbind⟩ | ⟨hfits, excess, others, h', -, -, hbind⟩
    · simp [hfault, hbind]
    · simp [hfits, hbind]
  · intro f h' hbind
    rcases bind_cases h function code captures scope receiver args with
      ⟨fault, hfault, hbound⟩ | ⟨hfits, excess, others, _, hcollects, hassign, hbound⟩
    · cases hbound.symm.trans hbind
    · cases hbound.symm.trans hbind
      obtain ⟨hcount, hkeywords⟩ := Signature.mismatch?_eq_none_iff.mp hfits
      have hwithin := hcollects.within_writes function receiver
      let writes := code.signature.writes function receiver args excess others
      have hholds : Holds { code, scope, captures, slots := fill (blank code.signature) writes }
          h h' function receiver args := holds_of_collects hs hcount hcollects rfl
      refine ⟨rfl, ⟨_, hassign, hwithin.nodup, fun i hi => ?_⟩, hholds, fun a v ha => ?_,
        fun p a b hp hp' => hp.argument_unique hs hp'⟩
      · rw [hholds.size]
        exact (hwithin.bounds i hi).2
      · obtain ⟨p, hp⟩ := Signature.exists_takes_iff hs hcount hkeywords ha
        exact ⟨p, hp, hholds.at?_eq_some hs ((hp p).mpr rfl) ha⟩

/-- A function of one positional and two keyword parameters that collects all other arguments. -/
def collecting : Code :=
  { name := none, captures := [],
    signature :=
      { positional := 1, keywords := ["a", "b"], variadicPositional := true,
        variadicKeyword := true },
    instructions := #[] }

/-- Arguments that leave one parameter of `collecting` without a value. -/
def collected : Arguments :=
  { positional := [.bool true, .null, .bool false],
    keywords := ⟨[("c", .bool true), ("b", .bool false)], by decide⟩ }

theorem bind_collecting :
    ∃ f h', bind {} ⟨0⟩ collecting [] default .null collected = (.ok f, h') ∧
      f.Holds {} h' ⟨0⟩ .null collected ∧ f.slots.size = 7 ∧
      f.at? h' (.slot 4) = some .null ∧ f.at? h' (.slot 5) = some (.bool false) ∧
      f.at? h' (.excess 1) = some (.bool false) ∧ f.at? h' (.other "c") = some (.bool true) ∧
      f.at? h' (.other "b") = none := by
  obtain ⟨-, -, -, hsuccess⟩ :=
    bind_exact {} ⟨0⟩ collecting [] default .null collected (by decide)
  exact ⟨_, _, rfl, (hsuccess _ _ rfl).2.2.1, rfl, rfl, rfl, rfl, rfl, rfl⟩

end Frame

end FiberMachine
