import FiberMachine.Proofs.Artifact.Canonical
import FiberMachine.Proofs.Bitcode.Linking

/-!
# Artifacts that were written in part

A reader does not look beyond what it takes (`Reader.Steady`), and where the bytes end before it has
taken all, it says so (`Reader.Sequential`). The artifact of a module is taken as a whole, so no
artifact that can be decoded is a proper front of another one (`prefixFree_accepted`), and what can
be decoded of an artifact that may have been cut short is the module that was encoded
(`decode_of_isPrefix`). A module that was linked is in normal form, so it is this very module.
-/

namespace FiberMachine

namespace Artifact

/-! ## Readers do not look ahead -/

namespace Reader

/-- What the reader makes of bytes it makes of them whatever follows. -/
def Steady {α : Type} (item : Reader α) : Prop :=
  ∀ bytes x rest, item bytes = .ok (x, rest) → ∀ more, item (bytes ++ more) = .ok (x, rest ++ more)

/--
The reader takes its bytes in order. Beside being steady, on a front of bytes that it can read it
does the same as on all of them, or finds that they end too early.
-/
structure Sequential {α : Type} (item : Reader α) : Prop where
  steady : Steady item
  patient : ∀ front more x rest, item (front ++ more) = .ok (x, rest) →
    item front = .error .unexpectedEof ∨ ∃ left, rest = left ++ more ∧ item front = .ok (x, left)

variable {α β : Type}

theorem bind_of_eq_ok {item : Reader α} {next : α → Reader β} {bytes mid : Bytes} {x : α}
    (h : item bytes = .ok (x, mid)) : (item >>= next) bytes = next x mid := by
  show (item bytes >>= fun p => next p.1 p.2) = _
  rw [h]
  rfl

theorem bind_of_eq_error {item : Reader α} {next : α → Reader β} {bytes : Bytes} {e : LinkError}
    (h : item bytes = .error e) : (item >>= next) bytes = .error e := by
  show (item bytes >>= fun p => next p.1 p.2) = _
  rw [h]
  rfl

namespace Sequential

theorem pure (x : α) : Sequential (pure x) := by
  constructor
  · intro bytes y rest h more
    cases h
    rfl
  · intro front more y rest h
    cases h
    exact .inr ⟨front, rfl, rfl⟩

theorem throw (e : LinkError) : Sequential (throw e : Reader α) := by
  constructor
  · intro bytes y rest h more
    cases h
  · intro front more y rest h
    cases h

theorem bind {item : Reader α} {next : α → Reader β} (H : Sequential item)
    (H' : ∀ x, Sequential (next x)) : Sequential (item >>= next) := by
  constructor
  · intro bytes y rest h more
    obtain ⟨x, mid, hitem, hnext⟩ := bind_eq_ok h
    rw [bind_of_eq_ok (H.steady _ _ _ hitem more)]
    exact (H' x).steady _ _ _ hnext more
  · intro front more y rest h
    obtain ⟨x, mid, hitem, hnext⟩ := bind_eq_ok h
    rcases H.patient _ _ _ _ hitem with hshort | ⟨left, rfl, hfront⟩
    · exact .inl (bind_of_eq_error hshort)
    · rw [bind_of_eq_ok hfront]
      exact (H' x).patient _ _ _ _ hnext

theorem map {item : Reader α} (H : Sequential item) (f : α → β) :
    Sequential (item >>= fun x => Pure.pure (f x)) := H.bind fun x => .pure (f x)

theorem ite {p : Prop} [Decidable p] {item item' : Reader α} (H : Sequential item)
    (H' : Sequential item') : Sequential (if p then item else item') := by
  split
  · exact H
  · exact H'

/-- What was read already does not depend on what follows either. -/
theorem lift (e : Except LinkError α) : Sequential (liftM e : Reader α) := by
  cases e with
  | error e => exact .throw e
  | ok x => exact .pure x

theorem repeated {item : Reader α} (H : Sequential item) (count : Nat) :
    Sequential (repeated item count) := by
  induction count with
  | zero => exact .pure []
  | succ count ih => exact H.bind fun x => ih.map (x :: ·)

end Sequential

theorem split_eq_none {count : Nat} {bytes : Bytes} (h : bytes.length < count) :
    split count bytes = none := by
  induction count generalizing bytes with
  | zero => exact absurd h (Nat.not_lt_zero _)
  | succ count ih =>
    cases bytes with
    | nil => rfl
    | cons b bytes => rw [split, ih (Nat.lt_of_succ_lt_succ h), Option.map_none]

theorem sequential_take (count : Nat) : Sequential (take count) := by
  constructor
  · intro bytes front rest h more
    obtain ⟨rfl, rfl⟩ := take_eq_ok h
    rw [List.append_assoc]
    exact reads_take rfl (rest ++ more)
  · intro front more taken rest h
    obtain ⟨heq, rfl⟩ := take_eq_ok h
    rcases Nat.lt_or_ge front.length taken.length with hlt | hge
    · refine .inl ?_
      rw [take, split_eq_none hlt]
    · obtain ⟨left, rfl⟩ : taken <+: front :=
        List.prefix_of_prefix_length_le ⟨rest, heq.symm⟩ ⟨more, rfl⟩ hge
      rw [List.append_assoc] at heq
      exact .inr ⟨left, (List.append_cancel_left heq).symm, reads_take rfl left⟩

theorem sequential_word (width : Nat) : Sequential (word width) := (sequential_take width).map _

theorem sequential_u8 : Sequential u8 := (sequential_word 1).map _

theorem sequential_u16 : Sequential u16 := (sequential_word 2).map _

theorem sequential_u32 : Sequential u32 := (sequential_word 4).map _

theorem sequential_u64 : Sequential u64 := (sequential_word 8).map _

theorem sequential_i32 : Sequential i32 := (sequential_word 4).map _

theorem sequential_length : Sequential length :=
  sequential_i32.bind fun _ => .ite (.throw _) (.pure _)

theorem sequential_text (count : Nat) : Sequential (text count) := by
  refine (sequential_take count).bind fun front => ?_
  split
  · exact .pure _
  · exact .throw _

theorem sequential_string? : Sequential string? := by
  refine sequential_i32.bind fun n => .ite (.pure none) (.ite (.throw _) ?_)
  exact (sequential_text n.toNat).map some

theorem sequential_string : Sequential string := by
  refine sequential_string?.bind fun s? => ?_
  split
  · exact .pure _
  · exact .throw _

/-- More bytes that follow only raise the bound on the number of keywords. -/
theorem keywords_append {bound extra : Nat} {bytes rest more : Bytes} {names : List String}
    (h : keywords bound bytes = .ok (names, rest)) :
    keywords (bound + extra) (bytes ++ more) = .ok (names, rest ++ more) := by
  induction bound generalizing bytes names with
  | zero => cases h
  | succ bound ih =>
    obtain ⟨s?, mid, hs, hnext⟩ := bind_eq_ok h
    rw [Nat.succ_add, keywords, bind_of_eq_ok (sequential_string?.steady _ _ _ hs more)]
    cases s? with
    | none =>
      cases hnext
      rfl
    | some s =>
      obtain ⟨names, hnames, rfl⟩ := map_eq_ok hnext
      exact bind_of_eq_ok (ih hnames)

/-- Fewer bytes lower the bound, which is reached only where they end too early. -/
theorem keywords_of_append {bound bound' : Nat} {front more rest : Bytes} {names : List String}
    (h : keywords bound (front ++ more) = .ok (names, rest)) :
    keywords bound' front = .error .unexpectedEof ∨
      ∃ left, rest = left ++ more ∧ keywords bound' front = .ok (names, left) := by
  induction bound generalizing bound' front names with
  | zero => cases h
  | succ bound ih =>
    cases bound' with
    | zero => exact .inl rfl
    | succ bound' =>
      obtain ⟨s?, mid, hs, hnext⟩ := bind_eq_ok h
      rcases sequential_string?.patient _ _ _ _ hs with hshort | ⟨left, rfl, hfront⟩
      · exact .inl (bind_of_eq_error hshort)
      · rw [keywords, bind_of_eq_ok hfront]
        cases s? with
        | none =>
          cases hnext
          exact .inr ⟨left, rfl, rfl⟩
        | some s =>
          obtain ⟨names, hnames, rfl⟩ := map_eq_ok hnext
          rcases ih hnames with hshort | ⟨left, rfl, hrest⟩
          · exact .inl (bind_of_eq_error hshort)
          · exact .inr ⟨left, rfl, bind_of_eq_ok hrest⟩

/-- The bound on the number of keywords is that of the bytes that are left. -/
theorem sequential_keywords :
    Sequential (do let bytes ← get; keywords bytes.length : Reader (List String)) := by
  constructor
  · intro bytes names rest h more
    show keywords (bytes ++ more).length (bytes ++ more) = _
    rw [List.length_append]
    exact keywords_append h
  · intro front more names rest h
    exact keywords_of_append h

theorem sequential_signature : Sequential signature := by
  have heq : signature = do
      let positional ← u32
      let keywords ← (do let bytes ← get; keywords bytes.length : Reader (List String))
      let flags ← u8
      return {
        positional, keywords
        variadicPositional := flags &&& variadicPositionalFlag != 0
        variadicKeyword := flags &&& variadicKeywordFlag != 0 } := by
    simp only [signature, bind_assoc]
  rw [heq]
  exact sequential_u32.bind fun _ => sequential_keywords.bind fun _ => sequential_u8.map _

theorem sequential_capture : Sequential capture := sequential_i32.map _

theorem sequential_handler : Sequential handler :=
  sequential_i32.bind fun _ => .ite (.pure none) (.ite (.throw _) (.pure _))

theorem sequential_opcode : Sequential opcode := by
  refine sequential_u8.bind fun n => ?_
  split
  · exact .pure _
  · exact .throw _

theorem sequential_position : Sequential position :=
  sequential_u32.bind fun _ => sequential_u32.map _

theorem sequential_range : Sequential range :=
  sequential_position.bind fun _ => sequential_position.map _

theorem sequential_instruction : Sequential instruction := by
  refine sequential_opcode.bind fun op => .ite ?_ ?_
  · exact sequential_u32.bind fun _ => sequential_handler.bind fun _ => sequential_range.map _
  · exact (Sequential.pure 0).bind fun _ => sequential_handler.bind fun _ => sequential_range.map _

theorem sequential_code : Sequential code := by
  refine sequential_string?.bind fun name => sequential_signature.bind fun signature => ?_
  refine sequential_u32.bind fun n => (sequential_capture.repeated _).bind fun captures => ?_
  exact sequential_u32.bind fun k => (sequential_instruction.repeated _).map _

theorem sequential_method : Sequential method :=
  sequential_length.bind fun n => (sequential_take n).bind fun _ => .lift _

theorem sequential_template : Sequential template := by
  refine sequential_string.bind fun name => sequential_u8.bind fun byte => ?_
  exact sequential_u32.bind fun n => (sequential_method.repeated _).map _

theorem sequential_constant : Sequential constant := by
  refine sequential_u8.bind fun tag => ?_
  refine .ite (sequential_u8.map _) (.ite (sequential_u64.map _) (.ite (sequential_u64.map _) ?_))
  refine .ite (sequential_string.map _) (.ite (sequential_code.map _) ?_)
  exact .ite (sequential_template.map _) (.throw _)

theorem sequential_version : Sequential version :=
  sequential_u16.bind fun _ => sequential_u16.bind fun _ => sequential_u32.map _

theorem sequential_pool : Sequential pool := by
  refine sequential_version.bind fun v => .ite (.throw _) ?_
  exact sequential_u32.bind fun _ => sequential_constant.repeated _

end Reader

/-- What can be decoded of the front of an artifact is the module, and the front is all of it. -/
theorem decode_of_isPrefix {m m' : LinkedModule} {name : String} {bytes front : Bytes}
    (hm : encode m = .ok bytes) (hfront : front <+: bytes) (h : decode name front = .ok m') :
    front = bytes ∧ m' = m.normalized.renamed name := by
  obtain ⟨pool, hpool, rfl, -⟩ := decode_eq_ok.1 h
  obtain ⟨more, rfl⟩ := hfront
  have hsteady := Reader.sequential_pool.steady _ _ _ (Reader.whole_eq_ok hpool) more
  have hreads := reads_pool hm []
  rw [List.append_nil, hsteady] at hreads
  obtain ⟨rfl, rfl⟩ := Prod.mk.inj (Except.ok.inj hreads)
  refine ⟨(List.append_nil _).symm, ?_⟩
  rw [Array.toArray_toList]
  rfl

/-! ## Artifacts that were cut short or added to -/

theorem Reader.whole_of_eq_error {α : Type} {item : Reader α} {bytes : Bytes} {e : LinkError}
    (h : item bytes = .error e) : whole item bytes = .error e := by
  rw [whole, h]
  rfl

theorem Reader.whole_of_eq_ok {α : Type} {item : Reader α} {bytes rest : Bytes} {x : α}
    (h : item bytes = .ok (x, rest)) (hrest : rest ≠ []) :
    whole item bytes = .error .trailingBytes := by
  rw [whole, h]
  cases rest with
  | nil => exact absurd rfl hrest
  | cons b rest => rfl

theorem decode_of_whole_eq_error {bytes : Bytes} {e : LinkError}
    (h : Reader.whole Reader.pool bytes = .error e) (name : String) :
    decode name bytes = .error e := by
  rw [decode, h]
  rfl

/-- An artifact that was cut short ends too early. -/
theorem decode_of_cut {name : String} {front more : Bytes} {m : LinkedModule}
    (h : decode name (front ++ more) = .ok m) (hmore : more ≠ []) (name' : String) :
    decode name' front = .error .unexpectedEof := by
  obtain ⟨pool, hpool, -, -⟩ := decode_eq_ok.1 h
  refine decode_of_whole_eq_error (Reader.whole_of_eq_error ?_) name'
  have hpool := Reader.whole_eq_ok hpool
  rcases Reader.sequential_pool.patient _ _ _ _ hpool with hshort | ⟨left, hnil, -⟩
  · exact hshort
  · exact absurd (List.append_eq_nil_iff.mp hnil.symm).2 hmore

/-- An artifact that was added to has bytes left. -/
theorem decode_of_padded {name : String} {bytes more : Bytes} {m : LinkedModule}
    (h : decode name bytes = .ok m) (hmore : more ≠ []) (name' : String) :
    decode name' (bytes ++ more) = .error .trailingBytes := by
  obtain ⟨pool, hpool, -, -⟩ := decode_eq_ok.1 h
  have hsteady := Reader.sequential_pool.steady _ _ _ (Reader.whole_eq_ok hpool) more
  exact decode_of_whole_eq_error (Reader.whole_of_eq_ok hsteady hmore) name'

/--
**No artifact is a part of another one.** Of bytes that can be decoded, every proper front ends too
early and everything longer has bytes left over, whatever name the module is to have.
-/
theorem prefixFree_accepted {name : String} {bytes : Bytes} {m : LinkedModule}
    (h : decode name bytes = .ok m) (name' : String) :
    (∀ front, front <+: bytes → front ≠ bytes → decode name' front = .error .unexpectedEof) ∧
    (∀ longer, bytes <+: longer → longer ≠ bytes →
      decode name' longer = .error .trailingBytes) ∧
    ∀ bytes' m', decode name' bytes' = .ok m' → bytes <+: bytes' ∨ bytes' <+: bytes →
      bytes' = bytes := by
  have hcut (front : Bytes) (hfront : front <+: bytes) (hne : front ≠ bytes) :
      decode name' front = .error .unexpectedEof := by
    obtain ⟨more, rfl⟩ := hfront
    exact decode_of_cut h (fun hnil => hne (by rw [hnil, List.append_nil])) name'
  have hpadded (longer : Bytes) (hlonger : bytes <+: longer) (hne : longer ≠ bytes) :
      decode name' longer = .error .trailingBytes := by
    obtain ⟨more, rfl⟩ := hlonger
    exact decode_of_padded h (fun hnil => hne (by rw [hnil, List.append_nil])) name'
  refine ⟨hcut, hpadded, fun bytes' m' h' hpart => ?_⟩
  by_contra hne
  rcases hpart with hlonger | hfront
  · cases h'.symm.trans (hpadded bytes' hlonger hne)
  · cases h'.symm.trans (hcut bytes' hfront hne)

/-- The artifact of `plain` up to the code of its method, and with a byte more. -/
theorem prefixFree_respelled :
    decode "plain" respelled = .ok plain ∧
      decode "other" (respelled.take 40) = .error .unexpectedEof ∧
      decode "other" (respelled ++ [0]) = .error .trailingBytes := by
  have h : decode "plain" respelled = .ok plain := rfl
  obtain ⟨hcut, hpadded, -⟩ := prefixFree_accepted h "other"
  exact ⟨h, hcut _ (List.take_prefix ..) (by decide), hpadded _ ⟨[0], rfl⟩ (by decide)⟩

end Artifact

/-! ## Linked modules are in normal form -/

namespace Bitcode

variable {pool : Array Constant}

theorem Op.LinkedAs.normalized {f : Function} {op : Op} {i : Instruction}
    (H : Op.LinkedAs pool f op i.opcode i.operand) : i.normalized = i := by
  obtain ⟨opcode, operand, handler, range⟩ := i
  have hkeeps (h : opcode.operandKind ≠ .none) :
      Instruction.normalized ⟨opcode, operand, handler, range⟩ =
        ⟨opcode, operand, handler, range⟩ := by
    simp [Instruction.normalized, Opcode.hasOperand, h]
  cases H with
  | plain => simp [Instruction.normalized]
  | @slot _ _ kind | @capture _ _ kind => exact hkeeps (by simp [kind])
  | @name _ _ kind => exact hkeeps (by simp [kind])
  | @jump _ _ kind => exact hkeeps (by simp [kind])
  | constant | closure => exact hkeeps (by decide)

theorem Function.LinkedAs.normalized {f : Function} {code : Code}
    (H : Function.LinkedAs pool f code) : code.normalized = code := by
  obtain ⟨_, _, _, hsize, _, _, hoperation⟩ := H
  have hinstructions : code.instructions.map Instruction.normalized = code.instructions := by
    apply Array.ext_getElem?
    intro k
    rw [Array.getElem?_map]
    cases hi : code.instructions[k]? with
    | none => rfl
    | some i =>
      have hlt : k < f.instructionOps.length := hsize ▸ (Array.getElem?_eq_some_iff.mp hi).1
      rw [Option.map_some, (hoperation k _ _ i (List.getElem?_eq_getElem hlt) hi).normalized]
  rw [Code.normalized, hinstructions]

theorem Literal.LinkedAs.normalized {literal : Literal} {c : Constant}
    (H : Literal.LinkedAs pool literal c) : c.normalized = c := by
  cases H with
  | bool | int | float | string => rfl
  | function H => exact congrArg Constant.code H.normalized
  | @template name _ methods codes length plain linked =>
    have hcodes : codes.map Code.normalized = codes := by
      apply List.ext_getElem?
      intro k
      rw [List.getElem?_map]
      cases hc : codes[k]? with
      | none => rfl
      | some code =>
        have hlt : k < methods.length := length ▸ (List.getElem?_eq_some_iff.mp hc).1
        rw [Option.map_some, (linked k _ code (List.getElem?_eq_getElem hlt) hc).normalized]
    exact congrArg (fun codes => Constant.template ⟨name, _, codes⟩) hcodes

/-- Linking gives the operand zero to an opcode without operand. -/
theorem normalized_of_link {m : Module} {linked : LinkedModule} (h : m.link = .ok linked) :
    linked.normalized = linked := by
  have hpool : linked.pool.map Constant.normalized = linked.pool := by
    apply Array.ext_getElem?
    intro k
    rw [Array.getElem?_map]
    cases hc : linked.pool[k]? with
    | none => rfl
    | some c =>
      obtain ⟨literal, H⟩ := (wellLinked_of_link h).entries c (Array.mem_of_getElem? hc)
      rw [Option.map_some, H.normalized]
  rw [LinkedModule.normalized, hpool]

end Bitcode

end FiberMachine
