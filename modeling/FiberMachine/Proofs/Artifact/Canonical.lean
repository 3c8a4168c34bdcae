import FiberMachine.Proofs.Artifact.RoundTrip

/-!
# Canonical artifacts

What a reader accepts is what the writer makes of the value that was read, byte by byte, apart from
the bytes whose spelling is free: a version, and bytes that are read as truth values or flags.
`LinkedModule.leeway` marks these bytes, and `encode_decode_canonical` says that encoding a decoded
module changes no others. The encodings of modules are the canonical artifacts.
-/

namespace FiberMachine

/-! ## Bytes whose spelling is free -/

namespace Artifact

/-- For each byte of an encoding, whether it can be spelled in several ways. -/
abbrev Leeway := List Bool

/-- Bytes that have one spelling. -/
def strict (count : Nat) : Leeway := List.replicate count false

/-- The second bytes are the first in another spelling. -/
inductive Respells : Leeway → Bytes → Bytes → Prop where
  | nil : Respells [] [] []
  | strict {leeway : Leeway} {bytes bytes' : Bytes} (b : UInt8) :
      Respells leeway bytes bytes' → Respells (false :: leeway) (b :: bytes) (b :: bytes')
  | free {leeway : Leeway} {bytes bytes' : Bytes} (b b' : UInt8) :
      Respells leeway bytes bytes' → Respells (true :: leeway) (b :: bytes) (b' :: bytes')

namespace Respells

variable {leeway leeway' : Leeway} {bytes bytes' more more' : Bytes}

theorem append (H : Respells leeway bytes bytes') (H' : Respells leeway' more more') :
    Respells (leeway ++ leeway') (bytes ++ more) (bytes' ++ more') := by
  induction H with
  | nil => exact H'
  | strict b _ ih => exact .strict b ih
  | free b b' _ ih => exact .free b b' ih

theorem refl {count : Nat} (h : bytes.length = count) :
    Respells (Artifact.strict count) bytes bytes := by
  subst h
  induction bytes with
  | nil => exact .nil
  | cons b bytes ih => exact .strict b ih

/-- Bytes that are read over. -/
theorem skip {count : Nat} (h : bytes.length = count) (h' : bytes'.length = count) :
    Respells (List.replicate count true) bytes bytes' := by
  induction count generalizing bytes bytes' with
  | zero =>
    cases List.length_eq_zero_iff.mp h
    cases List.length_eq_zero_iff.mp h'
    exact .nil
  | succ count ih =>
    obtain ⟨b, bytes, rfl⟩ := List.exists_cons_of_length_eq_add_one h
    obtain ⟨b', bytes', rfl⟩ := List.exists_cons_of_length_eq_add_one h'
    exact .free b b' (ih (Nat.succ.inj h) (Nat.succ.inj h'))

theorem length_eq (H : Respells leeway bytes bytes') : bytes'.length = bytes.length := by
  induction H with
  | nil => rfl
  | strict _ _ ih | free _ _ _ ih => simp only [List.length_cons, ih]

theorem eq_of_strict {count : Nat} (H : Respells (Artifact.strict count) bytes bytes') :
    bytes' = bytes ∧ bytes.length = count := by
  induction count generalizing bytes bytes' with
  | zero => cases H; exact ⟨rfl, rfl⟩
  | succ count ih =>
    cases H with
    | strict b H =>
      obtain ⟨rfl, hlength⟩ := ih H
      exact ⟨rfl, congrArg Nat.succ hlength⟩

theorem getElem?_eq (H : Respells leeway bytes bytes') {i : Nat} (h : leeway[i]? ≠ some true) :
    bytes'[i]? = bytes[i]? := by
  induction H generalizing i with
  | nil => rfl
  | strict b _ ih =>
    cases i with
    | zero => rfl
    | succ i => exact ih h
  | free b b' _ ih =>
    cases i with
    | zero => exact absurd rfl h
    | succ i => exact ih h

end Respells

theorem flatMap_strict {α : Type} (size : α → Nat) (xs : List α) :
    xs.flatMap (fun x => strict (size x)) = strict (xs.map size).sum := by
  induction xs with
  | nil => rfl
  | cons x xs ih =>
    rw [List.flatMap_cons, ih, List.map_cons, List.sum_cons]
    exact List.replicate_append_replicate

end Artifact

open Artifact

/-- The flags byte is free. -/
def Code.leeway (c : Code) : Leeway :=
  strict (c.name.elim 4 stringSize + 4 + (c.signature.keywords.map stringSize).sum + 4) ++
    true :: strict ((4 + 4 * c.captures.length) +
      (4 + (c.instructions.toList.map Instruction.encodedSize).sum))

/-- The sealed byte is free, and so are the flags bytes of the methods. -/
def TemplateCode.leeway (t : TemplateCode) : Leeway :=
  strict (stringSize t.name) ++ true :: (strict 4 ++ t.methods.flatMap (strict 4 ++ ·.leeway))

/-- The payload of a truth value is free, and what is free in a code object or a template. -/
def Constant.leeway : Constant → Leeway
  | .bool _ => [false, true]
  | .int _ | .float _ => strict 9
  | .string s => strict (1 + stringSize s)
  | .code c => false :: c.leeway
  | .template t => false :: t.leeway

/-- The version is free, and what is free in the constants. -/
def LinkedModule.leeway (m : LinkedModule) : Leeway :=
  List.replicate 8 true ++ (strict 4 ++ m.pool.toList.flatMap Constant.leeway)

namespace Artifact

/-! ## Reading backwards -/

theorem wordBytes_wordOf (bytes : Bytes) : wordBytes bytes.length (wordOf bytes) = bytes := by
  induction bytes with
  | nil => rfl
  | cons b bytes ih =>
    have hb : (b.toNat + 256 * wordOf bytes).toUInt8 = b := by
      apply UInt8.toNat.inj
      have := b.toNat_lt
      simp only [Nat.toUInt8_eq, UInt8.toNat_ofNat']
      omega
    have hrest : (b.toNat + 256 * wordOf bytes) / 256 = wordOf bytes := by
      have := b.toNat_lt
      omega
    rw [List.length_cons, wordOf, wordBytes, hb, hrest, ih]

theorem wordOf_lt (bytes : Bytes) : wordOf bytes < 256 ^ bytes.length := by
  induction bytes with
  | nil => exact Nat.one_pos
  | cons b bytes ih =>
    have := b.toNat_lt
    rw [wordOf, List.length_cons, Nat.pow_succ]
    omega

theorem unsigned32_signed32 {n : Nat} (h : n < 2 ^ 32) :
    unsigned32 (signed32 n) = n ∧ -2 ^ 31 ≤ signed32 n ∧ signed32 n < 2 ^ 31 := by
  unfold unsigned32 signed32 signBit UInt32.size
  split <;> omega

theorem unsigned32_of_bounds {i : Int} (h : 0 ≤ i) (hlt : i < 2 ^ 31) : unsigned32 i = i.toNat := by
  unfold unsigned32 UInt32.size
  omega

theorem Written.length_of_lt {n : Nat} (h : n < 2 ^ 31) : length n = .ok (wordBytes 4 n) := if_pos h

namespace Reader

variable {α β : Type} {bytes rest : Bytes}

theorem bind_eq_ok {item : Reader α} {next : α → Reader β} {y : β}
    (h : (item >>= next) bytes = .ok (y, rest)) :
    ∃ x mid, item bytes = .ok (x, mid) ∧ next x mid = .ok (y, rest) := by
  change (item bytes >>= fun p => next p.1 p.2) = _ at h
  cases hitem : item bytes with
  | error e =>
    rw [hitem] at h
    cases h
  | ok p =>
    rw [hitem] at h
    exact ⟨p.1, p.2, rfl, h⟩

theorem map_eq_ok {item : Reader α} {f : α → β} {y : β}
    (h : (item >>= fun x => pure (f x)) bytes = .ok (y, rest)) :
    ∃ x, item bytes = .ok (x, rest) ∧ y = f x := by
  obtain ⟨x, mid, hitem, hpure⟩ := bind_eq_ok h
  cases hpure
  exact ⟨x, hitem, rfl⟩

theorem split_eq_some {count : Nat} {front : Bytes} (h : split count bytes = some (front, rest)) :
    bytes = front ++ rest ∧ front.length = count := by
  induction count generalizing bytes front with
  | zero =>
    cases h
    exact ⟨rfl, rfl⟩
  | succ count ih =>
    cases bytes with
    | nil => cases h
    | cons b bytes =>
      obtain ⟨⟨front, rest⟩, hsplit, heq⟩ := Option.map_eq_some_iff.1 h
      cases heq
      obtain ⟨rfl, hlength⟩ := ih hsplit
      exact ⟨rfl, congrArg Nat.succ hlength⟩

theorem take_eq_ok {count : Nat} {front : Bytes} (h : take count bytes = .ok (front, rest)) :
    bytes = front ++ rest ∧ front.length = count := by
  unfold take at h
  split at h
  · rename_i hsplit
    cases h
    exact split_eq_some hsplit
  · cases h

theorem word_eq_ok {width n : Nat} (h : word width bytes = .ok (n, rest)) :
    bytes = wordBytes width n ++ rest ∧ n < 256 ^ width := by
  obtain ⟨front, htake, rfl⟩ := map_eq_ok h
  obtain ⟨rfl, rfl⟩ := take_eq_ok htake
  rw [wordBytes_wordOf]
  exact ⟨rfl, wordOf_lt front⟩

theorem u8_eq_ok {b : UInt8} (h : u8 bytes = .ok (b, rest)) : bytes = b :: rest := by
  obtain ⟨n, hword, rfl⟩ := map_eq_ok h
  exact (word_eq_ok hword).1

theorem u16_eq_ok {n : UInt16} (h : u16 bytes = .ok (n, rest)) :
    bytes = wordBytes 2 n.toNat ++ rest := by
  obtain ⟨k, hword, rfl⟩ := map_eq_ok h
  obtain ⟨rfl, hlt⟩ := word_eq_ok hword
  rw [show k.toUInt16.toNat = k from Nat.mod_eq_of_lt hlt]

theorem u32_eq_ok {n : UInt32} (h : u32 bytes = .ok (n, rest)) :
    bytes = wordBytes 4 n.toNat ++ rest := by
  obtain ⟨k, hword, rfl⟩ := map_eq_ok h
  obtain ⟨rfl, hlt⟩ := word_eq_ok hword
  rw [show k.toUInt32.toNat = k from Nat.mod_eq_of_lt hlt]

theorem u64_eq_ok {n : UInt64} (h : u64 bytes = .ok (n, rest)) :
    bytes = wordBytes 8 n.toNat ++ rest := by
  obtain ⟨k, hword, rfl⟩ := map_eq_ok h
  obtain ⟨rfl, hlt⟩ := word_eq_ok hword
  rw [show k.toUInt64.toNat = k from Nat.mod_eq_of_lt hlt]

theorem i32_eq_ok {i : Int} (h : i32 bytes = .ok (i, rest)) :
    bytes = wordBytes 4 (unsigned32 i) ++ rest ∧ -2 ^ 31 ≤ i ∧ i < 2 ^ 31 := by
  obtain ⟨n, hword, rfl⟩ := map_eq_ok h
  obtain ⟨rfl, hlt⟩ := word_eq_ok hword
  obtain ⟨hunsigned, hbounds⟩ := unsigned32_signed32 hlt
  rw [hunsigned]
  exact ⟨rfl, hbounds⟩

end Reader

/-! ## Writing what was read -/

/-- The value that was read off the front of `bytes` is written as these bytes, respelled. -/
def Rewrites (w : Written) (leeway : Leeway) (bytes rest : Bytes) : Prop :=
  ∃ front front', bytes = front ++ rest ∧ w = .ok front' ∧ Respells leeway front front'

theorem Sized.length_eq {w : Written} {fits : Prop} {size : Nat} {bytes : Bytes}
    (H : Sized w fits size) (h : w = .ok bytes) : bytes.length = size := by
  cases H with
  | ok _ hw hs =>
    cases hw.symm.trans h
    exact hs
  | tooLarge _ hw => cases hw.symm.trans h

namespace Rewrites

variable {w : Written} {bytes rest : Bytes}

/-- A writer of a known size that yields the very bytes. -/
theorem exact {fits : Prop} {size : Nat} {front : Bytes} (hs : Sized w fits size)
    (hw : w = .ok front) : Rewrites w (strict size) (front ++ rest) rest :=
  ⟨front, front, rfl, hw, .refl (hs.length_eq hw)⟩

theorem of_strict {size : Nat} (H : Rewrites w (strict size) bytes rest) :
    ∃ front, w = .ok front ∧ bytes = front ++ rest ∧ front.length = size := by
  obtain ⟨front, front', rfl, hw, hr⟩ := H
  obtain ⟨rfl, hlength⟩ := hr.eq_of_strict
  exact ⟨front', hw, rfl, hlength⟩

end Rewrites

namespace Reader

variable {α : Type} {bytes rest : Bytes}

/-- Items that are written as they were read, with what else is known of each. -/
theorem rewrites_repeated {item : Reader α} {write : α → Written} {leeway : α → Leeway}
    {P : α → Prop} (H : ∀ bytes rest x, item bytes = .ok (x, rest) →
      Rewrites (write x) (leeway x) bytes rest ∧ P x)
    {count : Nat} {xs : List α} (h : repeated item count bytes = .ok (xs, rest)) :
    Rewrites (Written.all write xs) (xs.flatMap leeway) bytes rest ∧ xs.length = count ∧
      ∀ x ∈ xs, P x := by
  induction count generalizing bytes xs with
  | zero =>
    cases h
    exact ⟨⟨[], [], rfl, rfl, .nil⟩, rfl, nofun⟩
  | succ count ih =>
    obtain ⟨x, mid, hitem, hrest⟩ := bind_eq_ok h
    obtain ⟨xs, hxs, rfl⟩ := map_eq_ok hrest
    obtain ⟨⟨front, front', rfl, hw, hr⟩, hx⟩ := H _ _ _ hitem
    obtain ⟨⟨more, more', rfl, hw', hr'⟩, hlength, hP⟩ := ih hxs
    refine ⟨⟨front ++ more, front' ++ more', (List.append_assoc ..).symm, ?_, hr.append hr'⟩,
      congrArg Nat.succ hlength, List.forall_mem_cons.mpr ⟨hx, hP⟩⟩
    simp only [Written.all, hw, hw']
    rfl

/-- The count in front of items is written again. -/
theorem count_eq_ok {count : UInt32} {n : Nat} (hcount : u32 bytes = .ok (count, rest))
    (hn : n = count.toNat) :
    Written.count n = .ok (wordBytes 4 n) ∧ bytes = wordBytes 4 n ++ rest := by
  subst hn
  exact ⟨if_pos count.toNat_lt, u32_eq_ok hcount⟩

theorem map_eq_self {f : α → α} {xs : List α} (h : ∀ x ∈ xs, f x = x) : xs.map f = xs :=
  (List.map_congr_left h).trans (List.map_id' xs)

/-- A count and the items that it counts, when these have one spelling. -/
theorem counted_eq_ok {item : Reader α} {write : α → Written} {size : α → Nat}
    {P : α → Prop} (H : ∀ bytes rest x, item bytes = .ok (x, rest) →
      Rewrites (write x) (strict (size x)) bytes rest ∧ P x)
    {count : UInt32} {mid : Bytes} {xs : List α} (hcount : u32 bytes = .ok (count, mid))
    (h : repeated item count.toNat mid = .ok (xs, rest)) :
    ∃ counted front, Written.count xs.length = .ok counted ∧ Written.all write xs = .ok front ∧
      bytes = counted ++ (front ++ rest) ∧
      (counted ++ front).length = 4 + (xs.map size).sum ∧ ∀ x ∈ xs, P x := by
  obtain ⟨Hrewrites, hlength, hP⟩ := rewrites_repeated H h
  rw [flatMap_strict] at Hrewrites
  obtain ⟨front, hw, rfl, hfront⟩ := Hrewrites.of_strict
  obtain ⟨hwcount, rfl⟩ := count_eq_ok hcount hlength
  refine ⟨_, front, hwcount, hw, rfl, ?_, hP⟩
  rw [List.length_append, wordBytes_length, hfront]

/-! ### Strings -/

theorem toUTF8_of_fromUTF8? {s : String} (h : String.fromUTF8? bytes.toByteArray = some s) :
    s.toUTF8.toList = bytes := by
  unfold String.fromUTF8? at h
  split at h
  · cases h
    exact (toList_toUTF8 _).trans (congrArg Array.toList List.data_toByteArray)
  · cases h

theorem text_eq_ok {count : Nat} {s : String} (h : text count bytes = .ok (s, rest)) :
    bytes = s.toUTF8.toList ++ rest ∧ s.utf8ByteSize = count := by
  obtain ⟨front, mid, htake, hnext⟩ := bind_eq_ok h
  obtain ⟨rfl, hlength⟩ := take_eq_ok htake
  cases htext : String.fromUTF8? front.toByteArray with
  | none =>
    rw [htext] at hnext
    cases hnext
  | some s' =>
    rw [htext] at hnext
    cases hnext
    have hutf8 := toUTF8_of_fromUTF8? htext
    rw [← length_toUTF8, hutf8]
    exact ⟨rfl, hlength⟩

theorem rewrites_string? {s? : Option String} (h : string? bytes = .ok (s?, rest)) :
    Rewrites (Written.name s?) (strict (s?.elim 4 stringSize)) bytes rest := by
  obtain ⟨n, mid, hn, hnext⟩ := bind_eq_ok h
  obtain ⟨rfl, _, hlt⟩ := i32_eq_ok hn
  split at hnext
  · rename_i habsent
    cases hnext
    rw [habsent]
    exact .exact (Written.name_sized none) rfl
  · dsimp only at hnext
    split at hnext
    · cases hnext
    · obtain ⟨s, htext, rfl⟩ := map_eq_ok hnext
      obtain ⟨rfl, hsize⟩ := text_eq_ok htext
      have hn : unsigned32 n = s.utf8ByteSize := by
        rw [unsigned32_of_bounds (by omega) hlt]
        omega
      rw [hn, ← List.append_assoc]
      refine .exact (Written.name_sized (some s)) ?_
      have hlength : Written.length s.utf8ByteSize = .ok (wordBytes 4 s.utf8ByteSize) :=
        Written.length_of_lt (by omega)
      simp only [Written.name, Written.string, hlength]
      rfl

theorem rewrites_string {s : String} (h : string bytes = .ok (s, rest)) :
    Rewrites (Written.string s) (strict (stringSize s)) bytes rest := by
  obtain ⟨s?, mid, hs, hnext⟩ := bind_eq_ok h
  cases s? with
  | none => cases hnext
  | some s =>
    cases hnext
    exact rewrites_string? hs

theorem rewrites_keywords {bound : Nat} {keywords : List String}
    (h : Reader.keywords bound bytes = .ok (keywords, rest)) :
    ∃ front, Written.all Written.string keywords = .ok front ∧
      bytes = front ++ (Written.absent ++ rest) := by
  induction bound generalizing bytes keywords with
  | zero => cases h
  | succ bound ih =>
    obtain ⟨s?, mid, hs, hnext⟩ := bind_eq_ok h
    obtain ⟨front, hw, rfl, _⟩ := (rewrites_string? hs).of_strict
    cases s? with
    | none =>
      cases hnext
      cases hw
      exact ⟨[], rfl, rfl⟩
    | some s =>
      obtain ⟨keywords, hkeywords, rfl⟩ := map_eq_ok hnext
      obtain ⟨more, hmore, rfl⟩ := ih hkeywords
      refine ⟨front ++ more, ?_, (List.append_assoc ..).symm⟩
      have hs : Written.string s = .ok front := hw
      simp only [Written.all, hs, hmore]
      rfl

/-! ### Code -/

theorem rewrites_capture {c : Capture} (h : capture bytes = .ok (c, rest)) :
    Rewrites (Written.capture c) (strict 4) bytes rest := by
  obtain ⟨i, hi, rfl⟩ := map_eq_ok h
  obtain ⟨rfl, hge, hlt⟩ := i32_eq_ok hi
  refine .exact (Written.capture_sized _) ?_
  split
  · -- an outer capture is the complement of its index, so the least word is the largest index
    rename_i hneg
    have hindex : (-i - 1).toNat.toUInt32.toNat = (-i - 1).toNat := by
      rw [Nat.toUInt32_eq, UInt32.toNat_ofNat']
      omega
    simp only [Written.capture, hindex]
    rw [if_pos (by unfold signBit; omega), show -((-i - 1).toNat : Int) - 1 = i by omega]
  · have hindex : i.toNat.toUInt32.toNat = i.toNat := by
      rw [Nat.toUInt32_eq, UInt32.toNat_ofNat']
      omega
    rw [Written.capture, hindex, unsigned32_of_bounds (by omega) hlt]
    exact Written.length_of_lt (by omega)

theorem rewrites_handler {h? : Option UInt32} (h : handler bytes = .ok (h?, rest)) :
    Rewrites (Written.handler h?) (strict 4) bytes rest := by
  obtain ⟨i, mid, hi, hnext⟩ := bind_eq_ok h
  obtain ⟨rfl, hge, hlt⟩ := i32_eq_ok hi
  split at hnext
  · rename_i habsent
    cases hnext
    rw [habsent]
    exact .exact (Written.handler_sized none) rfl
  · dsimp only at hnext
    split at hnext
    · cases hnext
    · cases hnext
      refine .exact (Written.handler_sized _) ?_
      have hindex : i.toNat.toUInt32.toNat = i.toNat := by
        rw [Nat.toUInt32_eq, UInt32.toNat_ofNat']
        omega
      rw [Written.handler, hindex, unsigned32_of_bounds (by omega) hlt]
      exact Written.length_of_lt (by omega)

theorem ordinal_of_ofOrdinal? {n : UInt8} {op : Opcode} (h : Opcode.ofOrdinal? n = some op) :
    op.ordinal = n := by
  obtain ⟨hlt, rfl⟩ := List.getElem?_eq_some_iff.1 h
  have hnodup : Opcode.all.Nodup := by decide
  rw [Opcode.ordinal, hnodup.idxOf_getElem]
  exact UInt8.ofNat_toNat

theorem opcode_eq_ok {op : Opcode} (h : opcode bytes = .ok (op, rest)) :
    bytes = op.ordinal :: rest := by
  obtain ⟨n, mid, hn, hnext⟩ := bind_eq_ok h
  cases hop : Opcode.ofOrdinal? n with
  | none =>
    rw [hop] at hnext
    cases hnext
  | some op' =>
    rw [hop] at hnext
    cases hnext
    rw [u8_eq_ok hn, ordinal_of_ofOrdinal? hop]

theorem position_eq_ok {p : SourcePosition} (h : position bytes = .ok (p, rest)) :
    bytes = wordBytes 4 p.line.toNat ++ (wordBytes 4 p.column.toNat ++ rest) := by
  obtain ⟨line, mid, hline, hnext⟩ := bind_eq_ok h
  obtain ⟨column, hcolumn, rfl⟩ := map_eq_ok hnext
  rw [u32_eq_ok hline, u32_eq_ok hcolumn]

theorem range_eq_ok {r : SourceRange} (h : range bytes = .ok (r, rest)) :
    bytes = Written.range r ++ rest := by
  obtain ⟨start, mid, hstart, hnext⟩ := bind_eq_ok h
  obtain ⟨stop, hstop, rfl⟩ := map_eq_ok hnext
  rw [position_eq_ok hstart, position_eq_ok hstop, Written.range]
  simp only [List.append_assoc]

/-- The operand of an opcode that takes one, and zero for the others. -/
theorem operand_eq_ok {op : Opcode} {next : UInt32 → Reader α} {x : α}
    (h : (if op.hasOperand then u32 >>= next else pure 0 >>= next) bytes = .ok (x, rest)) :
    ∃ operand mid, next operand mid = .ok (x, rest) ∧
      bytes = (if op.hasOperand then wordBytes 4 operand.toNat else []) ++ mid ∧
      (if op.hasOperand then operand else 0) = operand := by
  split at h
  · rename_i hhas
    obtain ⟨operand, mid, hoperand, hnext⟩ := bind_eq_ok h
    exact ⟨operand, mid, hnext, by rw [if_pos hhas, u32_eq_ok hoperand], if_pos hhas⟩
  · rename_i hhas
    exact ⟨0, bytes, h, by rw [if_neg hhas, List.nil_append], if_neg hhas⟩

theorem rewrites_instruction {i : Instruction} (h : instruction bytes = .ok (i, rest)) :
    Rewrites (Written.instruction i) (strict i.encodedSize) bytes rest ∧ i.normalized = i := by
  obtain ⟨op, mid, hop, hrest⟩ := bind_eq_ok h
  obtain ⟨operand, mid₁, htail, hmid, hnormal⟩ := operand_eq_ok hrest
  obtain ⟨h?, mid₂, hhandler, hlast⟩ := bind_eq_ok htail
  obtain ⟨range, hrange, rfl⟩ := map_eq_ok hlast
  obtain ⟨front, hw, hmid₁, _⟩ := (rewrites_handler hhandler).of_strict
  refine ⟨?_, congrArg (Instruction.mk op · h? range) hnormal⟩
  have hbytes : bytes = op.ordinal :: (Written.operand ⟨op, operand, h?, range⟩ ++ front ++
      Written.range range) ++ rest := by
    rw [opcode_eq_ok hop, hmid, hmid₁, range_eq_ok hrange, Written.operand]
    simp only [List.append_assoc, List.cons_append]
  rw [hbytes]
  refine .exact (Written.instruction_sized _) ?_
  simp only [Written.instruction, hw]
  rfl

theorem signature_eq_ok {s : Signature} (h : signature bytes = .ok (s, rest)) :
    ∃ front flags, Written.all Written.string s.keywords = .ok front ∧
      bytes = wordBytes 4 s.positional.toNat ++ (front ++ (Written.absent ++ flags :: rest)) := by
  obtain ⟨positional, mid, hpositional, hrest⟩ := bind_eq_ok h
  obtain ⟨_, _, hget, htail⟩ := bind_eq_ok hrest
  cases hget
  obtain ⟨keywords, mid₁, hkeywords, hlast⟩ := bind_eq_ok htail
  obtain ⟨flags, hflags, rfl⟩ := map_eq_ok hlast
  obtain ⟨front, hw, hmid⟩ := rewrites_keywords hkeywords
  exact ⟨front, flags, hw, by rw [u32_eq_ok hpositional, hmid, u8_eq_ok hflags]⟩

theorem rewrites_code {c : Code} (h : code bytes = .ok (c, rest)) :
    Rewrites (Written.code c) c.leeway bytes rest ∧ c.normalized = c := by
  obtain ⟨name, mid, hname, hrest⟩ := bind_eq_ok h
  obtain ⟨signature, mid₁, hsignature, hrest⟩ := bind_eq_ok hrest
  obtain ⟨captureCount, mid₂, hcaptureCount, hrest⟩ := bind_eq_ok hrest
  obtain ⟨captures, mid₃, hcaptures, hrest⟩ := bind_eq_ok hrest
  obtain ⟨count, mid₄, hcount, hlast⟩ := bind_eq_ok hrest
  obtain ⟨instructions, hinstructions, rfl⟩ := map_eq_ok hlast
  obtain ⟨nb, hwn, hbytes, hnb⟩ := (rewrites_string? hname).of_strict
  obtain ⟨kb, flags, hwk, hmid⟩ := signature_eq_ok hsignature
  obtain ⟨cn, cb, hwcn, hwc, hmid₁, hcs, -⟩ :=
    counted_eq_ok (fun _ _ _ h => ⟨rewrites_capture h, trivial⟩) hcaptureCount hcaptures
  obtain ⟨iN, ib, hwin, hwi, hmid₃, his, hnormal⟩ :=
    counted_eq_ok (fun _ _ _ h => rewrites_instruction h) hcount hinstructions
  have hkb := (Sized.all fun s _ => Written.string_sized s).length_eq hwk
  refine ⟨⟨(nb ++ wordBytes 4 signature.positional.toNat ++ kb ++ Written.absent) ++
    flags :: (cn ++ cb ++ (iN ++ ib)), (nb ++ wordBytes 4 signature.positional.toNat ++ kb ++
    Written.absent) ++ Written.flags signature :: (cn ++ cb ++ (iN ++ ib)), ?_, ?_, ?_⟩, ?_⟩
  · rw [hbytes, hmid, hmid₁, hmid₃]
    simp only [List.append_assoc, List.cons_append]
  · simp only [Written.code, hwn, hwk, hwcn, hwc, List.size_toArray, hwin, hwi]
    rfl
  · refine (Respells.refl ?_).append (.free _ _ (.refl ?_))
    · simp only [List.length_append, hnb, hkb, wordBytes_length, Written.absent_length]
    · rw [List.map_const', List.sum_replicate_nat, Nat.mul_comm] at hcs
      rw [List.length_append, hcs, his]
  · simp only [Code.normalized, List.map_toArray, map_eq_self hnormal]

theorem whole_eq_ok {item : Reader α} {x : α} (h : whole item bytes = .ok x) :
    item bytes = .ok (x, []) := by
  unfold whole at h
  cases hitem : item bytes with
  | error e =>
    rw [hitem] at h
    cases h
  | ok p =>
    obtain ⟨y, rest⟩ := p
    rw [hitem] at h
    cases rest with
    | nil =>
      cases h
      rfl
    | cons b rest => cases h

/-- The length of a method is right for its code in every spelling. -/
theorem rewrites_method {c : Code} (h : method bytes = .ok (c, rest)) :
    Rewrites (Written.method c) (strict 4 ++ c.leeway) bytes rest ∧ c.normalized = c := by
  obtain ⟨n, mid, hlength, hrest⟩ := bind_eq_ok h
  obtain ⟨body, mid₁, htake, hlast⟩ := bind_eq_ok hrest
  obtain ⟨i, mid₂, hi, hpositive⟩ := bind_eq_ok hlength
  obtain ⟨hbytes, _, hlt⟩ := i32_eq_ok hi
  obtain ⟨hmid, hbody⟩ := take_eq_ok htake
  cases hcode : whole code body with
  | error e =>
    rw [hcode] at hlast
    cases hlast
  | ok c' =>
    rw [hcode] at hlast
    cases hlast
    obtain ⟨⟨front, front', hfront, hw, hr⟩, hnormal⟩ := rewrites_code (whole_eq_ok hcode)
    rw [List.append_nil] at hfront
    subst hfront
    split at hpositive
    · cases hpositive
    · cases hpositive
      have hn : unsigned32 i = front'.length := by
        rw [hr.length_eq, hbody, unsigned32_of_bounds (by omega) hlt]
      have hwlength : Written.length front'.length = .ok (wordBytes 4 front'.length) :=
        Written.length_of_lt (by rw [hr.length_eq]; omega)
      refine ⟨⟨wordBytes 4 front'.length ++ body, wordBytes 4 front'.length ++ front', ?_, ?_,
        (Respells.refl (wordBytes_length ..)).append hr⟩, hnormal⟩
      · rw [hbytes, hmid, hn, List.append_assoc]
      · simp only [Written.method, hw]
        exact congrArg (· >>= fun b => .ok (b ++ front')) hwlength

/-! ### Constants -/

theorem rewrites_template {t : TemplateCode} (h : template bytes = .ok (t, rest)) :
    Rewrites (Written.template t) t.leeway bytes rest ∧ t.normalized = t := by
  obtain ⟨name, mid, hname, hrest⟩ := bind_eq_ok h
  obtain ⟨byte, mid₁, hbyte, hrest⟩ := bind_eq_ok hrest
  obtain ⟨count, mid₂, hcount, hlast⟩ := bind_eq_ok hrest
  obtain ⟨methods, hmethods, rfl⟩ := map_eq_ok hlast
  obtain ⟨nb, hwn, hbytes, hnb⟩ := (rewrites_string hname).of_strict
  obtain ⟨⟨front, front', hmid₂, hw, hr⟩, hlength, hnormal⟩ :=
    rewrites_repeated (fun _ _ _ h => rewrites_method h) hmethods
  obtain ⟨hwcount, hmid₁⟩ := count_eq_ok hcount hlength
  refine ⟨⟨nb ++ byte :: (wordBytes 4 methods.length ++ front),
    nb ++ (byte != 0).toUInt8 :: (wordBytes 4 methods.length ++ front'), ?_, ?_, ?_⟩, ?_⟩
  · rw [hbytes, u8_eq_ok hbyte, hmid₁, hmid₂]
    simp only [List.append_assoc, List.cons_append]
  · simp only [Written.template, hwn, hwcount, hw]
    rfl
  · exact (Respells.refl hnb).append (.free _ _ ((Respells.refl (wordBytes_length ..)).append hr))
  · simp only [TemplateCode.normalized, map_eq_self hnormal]

/-- A tag in front of what has the given spellings. -/
theorem rewrites_tagged {tag : UInt8} {w : Written} {leeway : Leeway} {mid : Bytes}
    (htag : u8 bytes = .ok (tag, mid)) (H : Rewrites w leeway mid rest) :
    Rewrites (do return tag :: (← w)) (false :: leeway) bytes rest := by
  obtain ⟨front, front', rfl, hw, hr⟩ := H
  refine ⟨tag :: front, tag :: front', u8_eq_ok htag, ?_, .strict tag hr⟩
  rw [hw]
  rfl

theorem rewrites_u64 {n : UInt64} (h : u64 bytes = .ok (n, rest)) :
    Rewrites (.ok (wordBytes 8 n.toNat)) (strict 8) bytes rest :=
  ⟨_, _, u64_eq_ok h, rfl, .refl (wordBytes_length ..)⟩

theorem rewrites_constant {c : Constant} (h : constant bytes = .ok (c, rest)) :
    Rewrites (Written.constant c) c.leeway bytes rest ∧ c.normalized = c := by
  obtain ⟨tag, mid, htag, hrest⟩ := bind_eq_ok h
  by_cases hbool : tag = boolTag
  · rw [if_pos hbool] at hrest
    obtain ⟨payload, hpayload, rfl⟩ := map_eq_ok hrest
    subst hbool
    refine ⟨⟨[boolTag, payload], [boolTag, (payload != 0).toUInt8], ?_, rfl,
      .strict _ (.free _ _ .nil)⟩, rfl⟩
    rw [u8_eq_ok htag, u8_eq_ok hpayload]
    rfl
  rw [if_neg hbool] at hrest
  by_cases hint : tag = intTag
  · rw [if_pos hint] at hrest
    obtain ⟨bits, hbits, rfl⟩ := map_eq_ok hrest
    subst hint
    exact ⟨rewrites_tagged htag (rewrites_u64 hbits), rfl⟩
  rw [if_neg hint] at hrest
  by_cases hfloat : tag = floatTag
  · rw [if_pos hfloat] at hrest
    obtain ⟨bits, hbits, rfl⟩ := map_eq_ok hrest
    subst hfloat
    exact ⟨rewrites_tagged htag (rewrites_u64 hbits), rfl⟩
  rw [if_neg hfloat] at hrest
  by_cases hstring : tag = stringTag
  · rw [if_pos hstring] at hrest
    obtain ⟨s, hs, rfl⟩ := map_eq_ok hrest
    subst hstring
    refine ⟨?_, rfl⟩
    rw [Constant.leeway, Nat.add_comm]
    exact rewrites_tagged htag (rewrites_string hs)
  rw [if_neg hstring] at hrest
  by_cases hcode : tag = codeTag
  · rw [if_pos hcode] at hrest
    obtain ⟨c, hc, rfl⟩ := map_eq_ok hrest
    subst hcode
    obtain ⟨H, hnormal⟩ := rewrites_code hc
    exact ⟨rewrites_tagged htag H, congrArg Constant.code hnormal⟩
  rw [if_neg hcode] at hrest
  by_cases htemplate : tag = templateTag
  · rw [if_pos htemplate] at hrest
    obtain ⟨t, ht, rfl⟩ := map_eq_ok hrest
    subst htemplate
    obtain ⟨H, hnormal⟩ := rewrites_template ht
    exact ⟨rewrites_tagged htag H, congrArg Constant.template hnormal⟩
  rw [if_neg htemplate] at hrest
  cases hrest

theorem version_eq_ok {v : Version} (h : version bytes = .ok (v, rest)) :
    bytes = Written.version v ++ rest := by
  obtain ⟨major, mid, hmajor, hrest⟩ := bind_eq_ok h
  obtain ⟨minor, mid₁, hminor, hlast⟩ := bind_eq_ok hrest
  obtain ⟨patch, hpatch, rfl⟩ := map_eq_ok hlast
  rw [u16_eq_ok hmajor, u16_eq_ok hminor, u32_eq_ok hpatch, Written.version]
  simp only [List.append_assoc]

/-- The version that is written is the current one, whatever was read. -/
theorem rewrites_pool {pool : List Constant} (h : Reader.pool bytes = .ok (pool, rest))
    (name : String) :
    Rewrites (encode ⟨name, pool.toArray⟩) (LinkedModule.leeway ⟨name, pool.toArray⟩) bytes rest ∧
      LinkedModule.normalized ⟨name, pool.toArray⟩ = ⟨name, pool.toArray⟩ := by
  obtain ⟨v, mid, hv, hrest⟩ := bind_eq_ok h
  dsimp only at hrest
  split at hrest
  · cases hrest
  obtain ⟨count, mid₁, hcount, hconstants⟩ := bind_eq_ok hrest
  obtain ⟨⟨front, front', hmid₁, hw, hr⟩, hlength, hnormal⟩ :=
    rewrites_repeated (fun _ _ _ h => rewrites_constant h) hconstants
  obtain ⟨hwcount, hmid⟩ := count_eq_ok hcount hlength
  refine ⟨⟨Written.version v ++ (wordBytes 4 pool.length ++ front),
    Written.version .current ++ (wordBytes 4 pool.length ++ front'), ?_, ?_, ?_⟩, ?_⟩
  · rw [version_eq_ok hv, hmid, hmid₁]
    simp only [List.append_assoc]
  · simp only [encode, List.size_toArray, hwcount, hw]
    exact congrArg Except.ok (List.append_assoc ..)
  · have hversion : Respells (List.replicate 8 true) (Written.version v)
        (Written.version .current) := .skip rfl rfl
    exact hversion.append ((Respells.refl (wordBytes_length ..)).append hr)
  · simp only [LinkedModule.normalized, List.map_toArray, map_eq_self hnormal]

end Reader

/-! ## Modules -/

theorem decode_eq_ok {name : String} {bytes : Bytes} {m : LinkedModule} :
    decode name bytes = .ok m ↔ ∃ pool, Reader.whole Reader.pool bytes = .ok pool ∧
      m = ⟨name, pool.toArray⟩ ∧ m.validate = .ok () := by
  unfold decode
  cases Reader.whole Reader.pool bytes with
  | error e => exact ⟨nofun, nofun⟩
  | ok pool =>
    refine LinkedModule.ofPool_eq_ok.trans ⟨fun h => ⟨pool, rfl, h⟩, ?_⟩
    rintro ⟨pool, ⟨⟩, h⟩
    exact h

/--
**Artifacts have one canonical spelling.** A module that was decoded can be encoded, and the
encoding decodes to the same module and is its own encoding. It has the length of the bytes that the
module was decoded from, and differs from them at most in the version, in the payloads of truth
values, in sealed bytes and in flags bytes.
-/
theorem encode_decode_canonical {name : String} {bytes : Bytes} {m : LinkedModule}
    (h : decode name bytes = .ok m) :
    ∃ bytes', encode m = .ok bytes' ∧ bytes'.length = bytes.length ∧
      decode name bytes' = .ok m ∧ (∀ i : Nat, m.leeway[i]? ≠ some true → bytes'[i]? = bytes[i]?) ∧
      (decode name bytes' >>= encode) = .ok bytes' := by
  obtain ⟨pool, hpool, rfl, hvalid⟩ := decode_eq_ok.1 h
  obtain ⟨⟨front, front', hbytes, hw, hr⟩, hnormal⟩ :=
    Reader.rewrites_pool (Reader.whole_eq_ok hpool) name
  rw [List.append_nil] at hbytes
  subst hbytes
  have hread := (reads_pool hw).whole
  rw [hnormal] at hread
  have hdecode : decode name front' = .ok ⟨name, pool.toArray⟩ :=
    decode_eq_ok.2 ⟨pool, hread, rfl, hvalid⟩
  refine ⟨front', hw, hr.length_eq, hdecode, fun i hi => hr.getElem?_eq hi, ?_⟩
  rw [hdecode]
  exact hw

/-- A module with a truth value and a template. -/
def plain : LinkedModule where
  name := "plain"
  pool := #[
    .bool true,
    .template {
      name := "T", sealed := true
      methods := [{
        name := some "m", signature := { variadicPositional := true }, captures := []
        instructions := #[{ opcode := .return }] }] },
    .code { name := none, signature := {}, captures := [], instructions := #[] }]

/-- The artifact of `plain` in an older version, with other truth values and further flags. -/
def respelled : Bytes :=
  [0, 0, 0, 0, 9, 0, 0, 0] ++ [3, 0, 0, 0] ++ [0, 7] ++
    [5, 1, 0, 0, 0, 84, 2, 1, 0, 0, 0, 43, 0, 0, 0] ++
      ([1, 0, 0, 0, 109, 0, 0, 0, 0, 255, 255, 255, 255, 253] ++ [0, 0, 0, 0, 1, 0, 0, 0, 56] ++
        [255, 255, 255, 255] ++ List.replicate 16 0) ++
    [4, 255, 255, 255, 255, 0, 0, 0, 0, 255, 255, 255, 255, 16] ++ List.replicate 8 0

theorem encode_decode_respelled :
    decode "plain" respelled = .ok plain ∧ ∃ bytes, encode plain = .ok bytes ∧
      bytes.length = 94 ∧ bytes ≠ respelled ∧ decode "plain" bytes = .ok plain ∧
      ∀ i : Nat, plain.leeway[i]? ≠ some true → bytes[i]? = respelled[i]? := by
  have hdecode : decode "plain" respelled = .ok plain := rfl
  obtain ⟨bytes, hencode, hlength, hback, hsame, _⟩ := encode_decode_canonical hdecode
  refine ⟨hdecode, bytes, hencode, hlength, ?_, hback, hsame⟩
  rintro rfl
  have hversion : (encode plain).toOption.map (List.drop 2 · |>.head?) = some (some 1) := by
    decide +kernel
  rw [hencode] at hversion
  cases hversion

end Artifact

end FiberMachine
