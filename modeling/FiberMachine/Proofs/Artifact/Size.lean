import FiberMachine.Proofs.Artifact.Reading

/-!
# The size of artifacts

Lengths and indices are written as signed, counts as unsigned 32-bit words. `LinkedModule.Oversized`
lists what does not fit them, and `encode_sized` says that this is all that an encoding can fail
for. The size of a code object counts as well, since a method is written behind its length in bytes.
-/

namespace FiberMachine

/-! ## Sizes in bytes -/

namespace Artifact

/-- The largest length or index. -/
def maxSigned : Nat := 2 ^ 31 - 1

/-- The largest count. -/
def maxUnsigned : Nat := 2 ^ 32 - 1

/-- The bytes of a string and of its length. -/
def stringSize (s : String) : Nat := 4 + s.utf8ByteSize

end Artifact

open Artifact

/-- The opcode, the operand if there is one, the handler and the range. -/
def Instruction.encodedSize (i : Instruction) : Nat :=
  1 + ((if i.opcode.hasOperand then 4 else 0) + 4 + 16)

/-- The name, the signature, the captures and the instructions. -/
def Code.encodedSize (c : Code) : Nat :=
  c.name.elim 4 stringSize + 4 + (c.signature.keywords.map stringSize).sum + 4 +
    (1 + ((4 + 4 * c.captures.length) +
      (4 + (c.instructions.toList.map Instruction.encodedSize).sum)))

/-- The name, the sealed byte and the methods, each behind its length. -/
def TemplateCode.encodedSize (t : TemplateCode) : Nat :=
  stringSize t.name + (1 + (4 + (t.methods.map (4 + ·.encodedSize)).sum))

/-- The tag and the payload. -/
def Constant.encodedSize : Constant → Nat
  | .bool _ => 2
  | .int _ | .float _ => 9
  | .string s => 1 + stringSize s
  | .code c => 1 + c.encodedSize
  | .template t => 1 + t.encodedSize

/-- The version, the count of the pool and the constants. -/
def LinkedModule.encodedSize (m : LinkedModule) : Nat :=
  8 + (4 + (m.pool.toList.map Constant.encodedSize).sum)

/-! ## What does not fit -/

/-- The number that a capture refers to. -/
def Capture.index : Capture → UInt32
  | .slot i | .outer i => i

/-- The name of a code object and its keywords. -/
def Code.strings (c : Code) : List String := c.name.toList ++ c.signature.keywords

namespace Constant

/-- The methods of a template. -/
def methods : Constant → List Code
  | .template t => t.methods
  | _ => []

/-- The code objects in a constant. -/
def codes : Constant → List Code
  | .code c => [c]
  | .template t => t.methods
  | _ => []

/-- The strings in a constant: itself, or the names and keywords of its code. -/
def strings : Constant → List String
  | .string s => [s]
  | .code c => c.strings
  | .template t => t.name :: t.methods.flatMap Code.strings
  | _ => []

end Constant

/-- The strings of a code object in a constant are strings in the constant. -/
theorem Constant.strings_of_codes (c : Constant) {f : Code} {s : String} (hf : f ∈ c.codes)
    (hs : s ∈ f.strings) : s ∈ c.strings := by
  cases c with
  | code c => cases List.mem_singleton.1 hf; exact hs
  | template t => exact List.mem_cons_of_mem _ (List.mem_flatMap.2 ⟨f, hf, hs⟩)
  | bool | int | float | string => cases hf

/-- Something in the module does not fit its place in an artifact. -/
inductive LinkedModule.Oversized (m : LinkedModule) : Prop where
  | string {c : Constant} {s : String} (hc : c ∈ m.pool.toList) (hs : s ∈ c.strings)
      (h : maxSigned < s.utf8ByteSize)
  | method {c : Constant} {f : Code} (hc : c ∈ m.pool.toList) (hf : f ∈ c.methods)
      (h : maxSigned < f.encodedSize)
  | capture {c : Constant} {f : Code} {k : Capture} (hc : c ∈ m.pool.toList) (hf : f ∈ c.codes)
      (hk : k ∈ f.captures) (h : maxSigned < k.index.toNat)
  | handler {c : Constant} {f : Code} {i : Instruction} {target : UInt32}
      (hc : c ∈ m.pool.toList) (hf : f ∈ c.codes) (hi : i ∈ f.instructions.toList)
      (ht : i.handler = some target) (h : maxSigned < target.toNat)
  | poolCount (h : maxUnsigned < m.pool.size)
  | methodCount {c : Constant} (hc : c ∈ m.pool.toList) (h : maxUnsigned < c.methods.length)
  | captureCount {c : Constant} {f : Code} (hc : c ∈ m.pool.toList) (hf : f ∈ c.codes)
      (h : maxUnsigned < f.captures.length)
  | instructionCount {c : Constant} {f : Code} (hc : c ∈ m.pool.toList) (hf : f ∈ c.codes)
      (h : maxUnsigned < f.instructions.size)

/-- What a code object must keep to so that it can be written. -/
structure Code.Fits (c : Code) : Prop where
  strings : ∀ s ∈ c.strings, s.utf8ByteSize ≤ maxSigned
  captureCount : c.captures.length ≤ maxUnsigned
  captures : ∀ k ∈ c.captures, k.index.toNat ≤ maxSigned
  instructionCount : c.instructions.size ≤ maxUnsigned
  handlers : ∀ i ∈ c.instructions.toList, ∀ target, i.handler = some target →
    target.toNat ≤ maxSigned

theorem Code.fits_iff (c : Code) : c.Fits ↔
    (∀ s ∈ c.name.toList, s.utf8ByteSize ≤ maxSigned) ∧
    (∀ s ∈ c.signature.keywords, s.utf8ByteSize ≤ maxSigned) ∧
    c.captures.length ≤ maxUnsigned ∧ (∀ k ∈ c.captures, k.index.toNat ≤ maxSigned) ∧
    c.instructions.size ≤ maxUnsigned ∧
    ∀ i ∈ c.instructions.toList, ∀ target, i.handler = some target →
      target.toNat ≤ maxSigned := by
  have hs : (∀ s ∈ c.strings, s.utf8ByteSize ≤ maxSigned) ↔
      (∀ s ∈ c.name.toList, s.utf8ByteSize ≤ maxSigned) ∧
        ∀ s ∈ c.signature.keywords, s.utf8ByteSize ≤ maxSigned := List.forall_mem_append
  constructor
  · intro ⟨h1, h2, h3, h4, h5⟩
    exact ⟨(hs.1 h1).1, (hs.1 h1).2, h2, h3, h4, h5⟩
  · intro ⟨h1, h1', h2, h3, h4, h5⟩
    exact ⟨hs.2 ⟨h1, h1'⟩, h2, h3, h4, h5⟩

/-- What a constant must keep to so that it can be written. -/
structure Constant.Fits (c : Constant) : Prop where
  strings : ∀ s ∈ c.strings, s.utf8ByteSize ≤ maxSigned
  methodCount : c.methods.length ≤ maxUnsigned
  methods : ∀ f ∈ c.methods, f.encodedSize ≤ maxSigned
  codes : ∀ f ∈ c.codes, f.Fits

/-- A constant of a fixed size fits. -/
theorem Constant.Fits.of_plain {c : Constant} (hs : c.strings = []) (hm : c.methods = [])
    (hc : c.codes = []) : c.Fits := by
  refine ⟨fun s h => ?_, by simp [hm], fun f h => ?_, fun f h => ?_⟩
  · rw [hs] at h; cases h
  · rw [hm] at h; cases h
  · rw [hc] at h; cases h

theorem Constant.fits_template_iff {t : TemplateCode} : (Constant.template t).Fits ↔
    t.name.utf8ByteSize ≤ maxSigned ∧ t.methods.length ≤ maxUnsigned ∧
      ∀ c ∈ t.methods, c.Fits ∧ c.encodedSize ≤ maxSigned := by
  constructor
  · intro ⟨hs, hn, hm, hc⟩
    exact ⟨hs t.name (by simp [Constant.strings]), hn, fun c h => ⟨hc c h, hm c h⟩⟩
  · intro ⟨hs, hn, hc⟩
    refine ⟨fun s h => ?_, hn, fun c h => (hc c h).2, fun c h => (hc c h).1⟩
    rcases List.mem_cons.1 h with rfl | h
    · exact hs
    · obtain ⟨c, hm, h⟩ := List.mem_flatMap.1 h
      exact (hc c hm).1.strings s h

theorem Constant.fits_string_iff {s : String} :
    (Constant.string s).Fits ↔ s.utf8ByteSize ≤ maxSigned := by
  constructor
  · intro H
    exact H.strings s (by simp [Constant.strings])
  · intro h
    refine ⟨fun s' hs => ?_, Nat.zero_le _, fun f hf => ?_, fun f hf => ?_⟩
    · cases List.mem_singleton.1 hs; exact h
    · cases hf
    · cases hf

theorem Constant.fits_code_iff {c : Code} : (Constant.code c).Fits ↔ c.Fits := by
  constructor
  · intro H
    exact H.codes c (by simp [Constant.codes])
  · intro h
    refine ⟨h.strings, Nat.zero_le _, fun f hf => ?_, fun f hf => ?_⟩
    · cases hf
    · cases List.mem_singleton.1 hf; exact h

/-- A module that is not oversized has few constants, which all fit. -/
theorem LinkedModule.not_oversized_iff {m : LinkedModule} :
    ¬m.Oversized ↔ m.pool.size ≤ maxUnsigned ∧ ∀ c ∈ m.pool.toList, c.Fits := by
  constructor
  · intro H
    refine ⟨Nat.le_of_not_lt fun h => H (.poolCount h), fun c hc => ⟨fun s hs => ?_, ?_,
      fun f hf => ?_, fun f hf => ⟨fun s hs => ?_, ?_, fun k hk => ?_, ?_,
        fun i hi target ht => ?_⟩⟩⟩
    · exact Nat.le_of_not_lt fun h => H (.string hc hs h)
    · exact Nat.le_of_not_lt fun h => H (.methodCount hc h)
    · exact Nat.le_of_not_lt fun h => H (.method hc hf h)
    · exact Nat.le_of_not_lt fun h => H (.string hc (c.strings_of_codes hf hs) h)
    · exact Nat.le_of_not_lt fun h => H (.captureCount hc hf h)
    · exact Nat.le_of_not_lt fun h => H (.capture hc hf hk h)
    · exact Nat.le_of_not_lt fun h => H (.instructionCount hc hf h)
    · exact Nat.le_of_not_lt fun h => H (.handler hc hf hi ht h)
  · intro ⟨hn, H⟩ h
    cases h with
    | string hc hs h => exact Nat.not_lt_of_le ((H _ hc).strings _ hs) h
    | method hc hf h => exact Nat.not_lt_of_le ((H _ hc).methods _ hf) h
    | capture hc hf hk h => exact Nat.not_lt_of_le (((H _ hc).codes _ hf).captures _ hk) h
    | handler hc hf hi ht h =>
      exact Nat.not_lt_of_le (((H _ hc).codes _ hf).handlers _ hi _ ht) h
    | poolCount h => exact Nat.not_lt_of_le hn h
    | methodCount hc h => exact Nat.not_lt_of_le (H _ hc).methodCount h
    | captureCount hc hf h => exact Nat.not_lt_of_le ((H _ hc).codes _ hf).captureCount h
    | instructionCount hc hf h => exact Nat.not_lt_of_le ((H _ hc).codes _ hf).instructionCount h

namespace Artifact

/-! ## Writers of a known size -/

/-- A writer yields `size` bytes if `fits` holds, and otherwise fails for the size of something. -/
inductive Sized (w : Written) (fits : Prop) (size : Nat) : Prop where
  | ok {bytes : Bytes} (h : fits) (hw : w = .ok bytes) (hs : bytes.length = size)
  | tooLarge (h : ¬fits) (hw : w = .error .tooLarge)

namespace Sized

variable {w : Written} {fits fits' : Prop} {size size' : Nat}

theorem bytes (b : Bytes) : Sized (.ok b) True b.length := .ok trivial rfl rfl

theorem congr (H : Sized w fits size) (hf : fits ↔ fits') (hs : size = size') :
    Sized w fits' size' := by
  subst hs
  rwa [← propext hf]

theorem bind {next : Bytes → Written} (H : Sized w fits size)
    (H' : ∀ b, w = .ok b → b.length = size → Sized (next b) fits' size') :
    Sized (w >>= next) (fits ∧ fits') size' := by
  cases H with
  | tooLarge h hw => exact .tooLarge (fun h' => h h'.1) (by rw [hw]; rfl)
  | ok h hw hs =>
    cases H' _ hw hs with
    | ok h' hw' hs' => exact .ok ⟨h, h'⟩ (by rw [hw]; exact hw') hs'
    | tooLarge h' hw' => exact .tooLarge (fun h'' => h' h''.2) (by rw [hw]; exact hw')

/-- A writer whose bytes are wrapped up at last. -/
theorem map {f : Bytes → Bytes} (H : Sized w fits size)
    (hf : ∀ b, b.length = size → (f b).length = size') :
    Sized (w >>= fun b => pure (f b)) fits size' :=
  (H.bind fun b _ hb => (bytes (f b)).congr Iff.rfl (hf b hb)).congr (and_iff_left trivial) rfl

theorem all {α : Type} {write : α → Written} {fits : α → Prop} {size : α → Nat} {xs : List α}
    (H : ∀ x ∈ xs, Sized (write x) (fits x) (size x)) :
    Sized (Written.all write xs) (∀ x ∈ xs, fits x) (xs.map size).sum := by
  induction xs with
  | nil => exact (bytes []).congr (by simp) rfl
  | cons x xs ih =>
    have hxs := ih fun y hy => H y (by simp [hy])
    refine ((H x (by simp)).bind fun b _ hb => hxs.map (f := (b ++ ·)) fun b' hb' => ?_).congr
      (by simp) rfl
    simp [hb, hb']

end Sized

namespace Written

theorem count_sized (n : Nat) : Sized (count n) (n ≤ maxUnsigned) 4 := by
  by_cases h : n < 2 ^ 32
  · exact .ok (by unfold maxUnsigned; omega) (if_pos h) (wordBytes_length 4 n)
  · exact .tooLarge (by unfold maxUnsigned; omega) (if_neg h)

theorem length_sized (n : Nat) : Sized (length n) (n ≤ maxSigned) 4 := by
  by_cases h : n < 2 ^ 31
  · exact .ok (by unfold maxSigned; omega) (if_pos h) (wordBytes_length 4 n)
  · exact .tooLarge (by unfold maxSigned; omega) (if_neg h)

theorem absent_length : absent.length = 4 := wordBytes_length ..

theorem string_sized (s : String) :
    Sized (string s) (s.utf8ByteSize ≤ maxSigned) (stringSize s) := by
  refine (length_sized s.utf8ByteSize).map fun b hb => ?_
  rw [List.length_append, hb, length_toUTF8]
  rfl

theorem name_sized (name? : Option String) :
    Sized (name name?) (∀ s ∈ name?.toList, s.utf8ByteSize ≤ maxSigned)
      (name?.elim 4 stringSize) := by
  cases name? with
  | none => exact (Sized.bytes absent).congr (by simp) absent_length
  | some s => exact (string_sized s).congr (by simp) rfl

theorem capture_sized (c : Capture) : Sized (capture c) (c.index.toNat ≤ maxSigned) 4 := by
  cases c with
  | slot i => exact length_sized i.toNat
  | outer i =>
    by_cases h : i.toNat < 2 ^ 31
    · exact .ok (by simp only [Capture.index, maxSigned]; omega) (if_pos h) (wordBytes_length ..)
    · exact .tooLarge (by simp only [Capture.index, maxSigned]; omega) (if_neg h)

theorem handler_sized (handler? : Option UInt32) :
    Sized (handler handler?) (∀ target, handler? = some target → target.toNat ≤ maxSigned) 4 := by
  cases handler? with
  | none => exact (Sized.bytes absent).congr (by simp) absent_length
  | some i => exact (length_sized i.toNat).congr (by simp) rfl

theorem instruction_sized (i : Instruction) :
    Sized (instruction i) (∀ target, i.handler = some target → target.toNat ≤ maxSigned)
      i.encodedSize := by
  refine (handler_sized i.handler).map fun b hb => ?_
  have ho : (operand i).length = if i.opcode.hasOperand then 4 else 0 := by
    unfold operand
    split <;> simp
  have hr : (range i.range).length = 16 := by simp [range]
  simp only [List.length_cons, List.length_append, hb, ho, hr, Instruction.encodedSize]
  omega

theorem code_sized (c : Code) : Sized (code c) c.Fits c.encodedSize := by
  -- the order of the parts is that in which the writer asks for them
  refine ((name_sized c.name).bind fun nb _ hn =>
    (Sized.all fun s _ => string_sized s).bind fun kb _ hk =>
    (count_sized c.captures.length).bind fun cn _ hcn =>
    (Sized.all fun k _ => capture_sized k).bind fun cb _ hc =>
    (Sized.bytes (cn ++ cb)).bind fun cs _ hcs =>
    (count_sized c.instructions.size).bind fun iN _ hin =>
    (Sized.all fun i _ => instruction_sized i).bind fun ib _ hi =>
    (Sized.bytes (iN ++ ib)).map fun is his => ?_).congr (by simp [Code.fits_iff]) rfl
  simp only [List.map_const', List.sum_replicate_nat] at hc
  simp only [List.length_append] at hcs his
  simp only [List.length_append, List.length_cons, wordBytes_length, absent_length, hn, hk, hcs,
    his, hcn, hc, hin, hi, Code.encodedSize]
  omega

/-- A method takes four bytes more than its code, for its length. -/
theorem method_sized (c : Code) :
    Sized (method c) (c.Fits ∧ c.encodedSize ≤ maxSigned) (4 + c.encodedSize) := by
  refine (code_sized c).bind fun b _ hb => ?_
  refine ((length_sized b.length).congr (by rw [hb]) rfl).map fun front hf => ?_
  rw [List.length_append, hf, hb]

theorem template_sized (t : TemplateCode) :
    Sized (template t) (Constant.template t).Fits t.encodedSize := by
  refine ((string_sized t.name).bind fun nb _ hn =>
    (count_sized t.methods.length).bind fun mn _ hmn =>
    (Sized.all fun c _ => method_sized c).bind fun mb _ hm =>
    (Sized.bytes (mn ++ mb)).map fun ms hms => ?_).congr (by simp [Constant.fits_template_iff]) rfl
  simp only [List.length_append] at hms
  simp only [List.length_append, List.length_cons, hn, hms, hmn, hm, TemplateCode.encodedSize]
  omega

theorem constant_sized (c : Constant) : Sized (constant c) c.Fits c.encodedSize := by
  have hcons {size : Nat} (tag : UInt8) (b : Bytes) (h : b.length = size) :
      (tag :: b).length = 1 + size := by rw [List.length_cons, h, Nat.add_comm]
  cases c with
  | bool b => exact .ok (.of_plain rfl rfl rfl) rfl rfl
  | int i => exact .ok (.of_plain rfl rfl rfl) rfl (hcons intTag _ (wordBytes_length ..))
  | float d => exact .ok (.of_plain rfl rfl rfl) rfl (hcons floatTag _ (wordBytes_length ..))
  | string s =>
    exact ((string_sized s).map (hcons stringTag)).congr Constant.fits_string_iff.symm rfl
  | code c => exact ((code_sized c).map (hcons codeTag)).congr Constant.fits_code_iff.symm rfl
  | template t => exact (template_sized t).map (hcons templateTag)

end Written

/-- Encoding fails for an oversized module only. -/
theorem encode_sized (m : LinkedModule) : Sized (encode m) (¬m.Oversized) m.encodedSize := by
  refine ((Written.count_sized m.pool.size).bind fun front _ hf =>
    (Sized.all fun c _ => Written.constant_sized c).map fun b hb => ?_).congr
      LinkedModule.not_oversized_iff.symm rfl
  have hv : (Written.version .current).length = 8 := rfl
  rw [List.length_append, List.length_append, hv, hf, hb, Nat.add_assoc]
  rfl

end Artifact

end FiberMachine
