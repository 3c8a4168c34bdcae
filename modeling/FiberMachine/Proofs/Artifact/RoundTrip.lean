import FiberMachine.Proofs.Artifact.Size

/-!
# Artifacts hold their modules

A module that passes validation keeps passing it in its normal form, so what `encode` writes is
decoded to the normal form of the module (`decode_encode_normalized`). The name of a module is no
part of its artifact.
-/

namespace FiberMachine

variable {pool : Array Constant}

/-! ## Validation of normal forms -/

theorem Constant.getElem?_normalized (pool : Array Constant) (i : Nat) :
    (pool.map normalized)[i]? = pool[i]?.map normalized := Array.getElem?_map

theorem Instruction.operandValid_normalized (pool : Array Constant) (c : Code) (i : Instruction) :
    i.normalized.operandValid (pool.map Constant.normalized) c.normalized =
      i.operandValid pool c := by
  have ho (h : i.opcode.operandKind ≠ .none) : i.normalized.operand = i.operand := by
    simp [Instruction.normalized, Opcode.hasOperand, h]
  have hk : i.normalized.opcode.operandKind = i.opcode.operandKind := rfl
  unfold Instruction.operandValid
  rw [hk]
  cases hkind : i.opcode.operandKind with
  | none | slot => rfl
  | constant => simp [ho, hkind]
  | capture => simp [ho, hkind, Code.normalized]
  | target => simp [ho, hkind, Code.normalized]
  | name =>
    simp only [ho (by simp [hkind]), Constant.getElem?_normalized]
    cases pool[i.operand.toNat]? with
    | none => rfl
    | some c => cases c <;> rfl
  | code =>
    simp only [ho (by simp [hkind]), Constant.getElem?_normalized]
    cases pool[i.operand.toNat]? with
    | none => rfl
    | some c => cases c <;> rfl

theorem Instruction.handlerValid_normalized (c : Code) (i : Instruction) :
    i.normalized.handlerValid c.normalized = i.handlerValid c := by
  simp [Instruction.handlerValid, Instruction.normalized, Code.normalized]

theorem Code.validateFrom_normalized (c : Code) (index : Nat) (is : List Instruction) :
    c.normalized.validateFrom (pool.map Constant.normalized) index
      (is.map Instruction.normalized) = c.validateFrom pool index is := by
  induction is generalizing index with
  | nil => rfl
  | cons i is ih =>
    simp only [List.map_cons, Code.validateFrom, Instruction.operandValid_normalized,
      Instruction.handlerValid_normalized, ih]

theorem Code.validate_normalized (c : Code) :
    c.normalized.validate (pool.map Constant.normalized) = c.validate pool := by
  have hi :
      c.normalized.instructions.toList = c.instructions.toList.map Instruction.normalized := by
    simp [Code.normalized]
  rw [Code.validate, hi, Code.validateFrom_normalized]
  rfl

theorem Code.validateMethods_normalized (methods : List Code) :
    Code.validateMethods (pool.map Constant.normalized) (methods.map Code.normalized) =
      Code.validateMethods pool methods := by
  induction methods with
  | nil => rfl
  | cons c methods ih =>
    have hn : c.normalized.name = c.name := rfl
    simp only [List.map_cons, Code.validateMethods, hn, Code.validate_normalized, ih]

theorem Constant.validate_normalized (c : Constant) :
    c.normalized.validate (pool.map normalized) = c.validate pool := by
  cases c with
  | code c => exact c.validate_normalized
  | template t => exact Code.validateMethods_normalized t.methods
  | bool | int | float | string => rfl

theorem Constant.validateAll_normalized (cs : List Constant) :
    Constant.validateAll (pool.map normalized) (cs.map normalized) =
      Constant.validateAll pool cs := by
  induction cs with
  | nil => rfl
  | cons c cs ih => simp only [List.map_cons, Constant.validateAll, c.validate_normalized, ih]

namespace LinkedModule

theorem body?_normalized (m : LinkedModule) : m.normalized.body? = m.body?.map Code.normalized := by
  have hb : m.normalized.pool.back? = m.pool.back?.map Constant.normalized := by
    simp [normalized, Array.back?]
  unfold body?
  rw [hb]
  cases m.pool.back? with
  | none => rfl
  | some c => cases c <;> rfl

theorem validate_normalized (m : LinkedModule) : m.normalized.validate = m.validate := by
  have hp : m.normalized.pool.toList = m.pool.toList.map Constant.normalized := by
    simp [normalized]
  have hv : Constant.validateAll (m.pool.map Constant.normalized) _ = _ :=
    Constant.validateAll_normalized m.pool.toList
  unfold validate
  rw [body?_normalized, hp, Option.isNone_map]
  simp only [normalized, hv]

theorem ofPool_eq_ok {name : String} {m : LinkedModule} :
    ofPool name pool = .ok m ↔ m = ⟨name, pool⟩ ∧ m.validate = .ok () := by
  simp only [ofPool]
  cases h : validate ⟨name, pool⟩ with
  | error e =>
    refine ⟨(nomatch ·), fun ⟨hm, hv⟩ => ?_⟩
    rw [hm, h] at hv
    cases hv
  | ok =>
    constructor
    · intro hm
      cases hm
      exact ⟨rfl, h⟩
    · intro ⟨hm, _⟩
      rw [hm]
      rfl

end LinkedModule

namespace Artifact

/-- A reader that takes all the bytes makes the whole of them into its value. -/
theorem Reads.whole {α : Type} {item : Reader α} {bytes : Bytes} {x : α}
    (h : Reads item bytes x) : Reader.whole item bytes = .ok x := by
  have := h []
  rw [List.append_nil] at this
  rw [Reader.whole, this]
  rfl

/--
A valid module is decoded from its artifact in normal form, and only an oversized module has no
artifact.
-/
theorem decode_encode_normalized {name : String} {m : LinkedModule}
    (valid : LinkedModule.ofPool name pool = .ok m) :
    (∀ bytes, encode m = .ok bytes → decode m.name bytes = .ok m.normalized) ∧
      ∀ e, encode m = .error e ↔ e = .tooLarge ∧ m.Oversized := by
  obtain ⟨rfl, hv⟩ := LinkedModule.ofPool_eq_ok.1 valid
  constructor
  · intro bytes he
    unfold decode
    rw [(reads_pool he).whole]
    refine LinkedModule.ofPool_eq_ok.2 ⟨?_, ?_⟩
    · rw [Array.toArray_toList]
      rfl
    · rw [LinkedModule.validate_normalized, hv]
  · intro e
    cases encode_sized ⟨name, pool⟩ with
    | ok h he =>
      rw [he]
      exact ⟨(nomatch ·), fun ⟨_, h'⟩ => absurd h' h⟩
    | tooLarge h he =>
      rw [he]
      constructor
      · intro h'
        cases h'
        exact ⟨rfl, Classical.not_not.1 h⟩
      · intro ⟨h', _⟩
        rw [h']

/-- A module with a template, captures of both kinds, a handler and an operand that is not kept. -/
def specimen : LinkedModule where
  name := "specimen"
  pool := #[
    .string "x",
    .float ⟨0x7ff8000000000001⟩,
    .template {
      name := "T", sealed := true
      methods := [{
        name := some "m", signature := { keywords := ["k"], variadicKeyword := true }
        captures := []
        instructions := #[{ opcode := .loadGlobal, operand := 0 }] }] },
    .code {
      name := none, signature := {}, captures := [.slot 2, .outer 0]
      instructions := #[
        { opcode := .nop, operand := 7, handler := some 1 }, { opcode := .return }] }]

theorem decode_encode_specimen :
    LinkedModule.ofPool "specimen" specimen.pool = .ok specimen ∧ specimen.normalized ≠ specimen ∧
      ∃ bytes, encode specimen = .ok bytes ∧ bytes.length = 166 ∧
        decode "specimen" bytes = .ok specimen.normalized := by
  have valid : LinkedModule.ofPool "specimen" specimen.pool = .ok specimen := rfl
  have hs : (encode specimen).toOption.map List.length = some 166 := by decide +kernel
  refine ⟨valid, by simp [LinkedModule.normalized, specimen, Constant.normalized, Code.normalized,
    Instruction.normalized, Opcode.hasOperand, Opcode.operandKind], ?_⟩
  cases he : encode specimen with
  | error e =>
    rw [he] at hs
    cases hs
  | ok bytes =>
    rw [he] at hs
    exact ⟨bytes, rfl, Option.some.inj hs, (decode_encode_normalized valid).1 bytes he⟩

end Artifact

end FiberMachine
