import FiberMachine.Finder.Basic
import FiberMachine.Proofs.Artifact.RoundTrip
import FiberMachine.Proofs.Bitcode.Linking

/-!
# What accepted modules guarantee

A machine is given modules that were linked, validated or decoded. Of every code object in the pool
of such a module, the constants, names, code objects, jump targets and handlers exist
(`LinkedModule.Accepted.grounded`). Captured cells are another matter: linking does not look at
them, and validation compares an index with the capture list of the code that it is in.
-/

namespace FiberMachine

namespace LinkedModule

/-- The code is a constant or a template method of the module. -/
def Has (m : LinkedModule) (code : Code) : Prop := ∃ c ∈ m.pool, code ∈ c.codes

/-- How a module that a machine is given comes about. -/
inductive Accepted : LinkedModule → Prop where
  | link {source : Bitcode.Module} {m : LinkedModule} : source.link = .ok m → Accepted m
  | ofPool {name : String} {pool : Array Constant} {m : LinkedModule} :
      ofPool name pool = .ok m → Accepted m
  | decode {name : String} {bytes : Artifact.Bytes} {m : LinkedModule} :
      Artifact.decode name bytes = .ok m → Accepted m
  | renamed {m : LinkedModule} (name : String) : Accepted m → Accepted (m.renamed name)

end LinkedModule

/-- What the instruction of a code object refers to exists, captured cells apart. -/
structure Instruction.Grounded (pool : Array Constant) (code : Code) (i : Instruction) : Prop where
  operand : i.opcode.operandKind ≠ .capture → i.operandValid pool code
  handler : i.handlerValid code

/-- What the instructions of the module refer to exists, captured cells apart. -/
def LinkedModule.Grounded (m : LinkedModule) : Prop :=
  ∀ code, m.Has code → ∀ i ∈ code.instructions, i.Grounded m.pool code

/-! ## Validated modules -/

section Validate

variable {pool : Array Constant} {code : Code} {i : Instruction}

theorem Code.valid_of_validateFrom {index : Nat} {is : List Instruction}
    (h : code.validateFrom pool index is = .ok ()) (hi : i ∈ is) :
    i.operandValid pool code ∧ i.handlerValid code := by
  induction is generalizing index with
  | nil => cases hi
  | cons first rest ih =>
    unfold Code.validateFrom at h
    split at h
    · cases h
    · split at h
      · cases h
      · rcases List.mem_cons.mp hi with rfl | hi
        · simp_all
        · exact ih h hi

theorem Code.valid_of_validate (h : code.validate pool = .ok ()) (hi : i ∈ code.instructions) :
    i.operandValid pool code ∧ i.handlerValid code :=
  Code.valid_of_validateFrom h (Array.mem_toList_iff.mpr hi)

theorem Code.validate_of_validateMethods {methods : List Code}
    (h : Code.validateMethods pool methods = .ok ()) (hcode : code ∈ methods) :
    code.validate pool = .ok () := by
  induction methods with
  | nil => cases hcode
  | cons method rest ih =>
    unfold Code.validateMethods at h
    split at h
    · cases h
    · obtain ⟨_, hfirst, hrest⟩ := Bitcode.bind_eq_ok h
      rcases List.mem_cons.mp hcode with rfl | hcode
      · exact hfirst
      · exact ih hrest hcode

theorem Constant.validate_of_validateAll {c : Constant} {cs : List Constant}
    (h : Constant.validateAll pool cs = .ok ()) (hc : c ∈ cs) : c.validate pool = .ok () := by
  induction cs with
  | nil => exact nomatch hc
  | cons first rest ih =>
    obtain ⟨_, hfirst, hrest⟩ := Bitcode.bind_eq_ok h
    rcases List.mem_cons.mp hc with rfl | hc
    · exact hfirst
    · exact ih hrest hc

theorem Constant.validate_codes {c : Constant} (h : c.validate pool = .ok ())
    (hcode : code ∈ c.codes) : code.validate pool = .ok () := by
  cases c with
  | code value =>
    obtain rfl := List.mem_singleton.mp hcode
    exact h
  | template t => exact Code.validate_of_validateMethods h hcode
  | _ => exact nomatch hcode

/-- Everything that the instructions of a validated module refer to exists. -/
theorem LinkedModule.valid_of_validate {m : LinkedModule} (h : m.validate = .ok ())
    (hcode : m.Has code) (hi : i ∈ code.instructions) :
    i.operandValid m.pool code ∧ i.handlerValid code := by
  unfold LinkedModule.validate at h
  split at h
  · exact nomatch h
  · obtain ⟨c, hc, hcode⟩ := hcode
    have hvalid := Constant.validate_of_validateAll h (Array.mem_toList_iff.mpr hc)
    exact Code.valid_of_validate (Constant.validate_codes hvalid hcode) hi

end Validate

/-! ## Linked modules -/

namespace Bitcode

variable {pool : Array Constant} {f : Function} {code : Code}

/-- A label leads into the function or just past its end. -/
theorem Function.MarkedAt.le {l : Label} {index : Nat} (h : f.MarkedAt l index) :
    index ≤ f.instructionOps.length := by
  obtain ⟨position, hposition⟩ := List.getElem?_of_mem h.marked
  rw [h.index position hposition, f.length_instructionOps]
  exact (List.take_sublist position f.ops).countP_le

theorem Op.LinkedAs.operandValid {op : Op} {i : Instruction}
    (hsize : code.instructions.size = f.instructionOps.length)
    (h : Op.LinkedAs pool f op i.opcode i.operand) (hkind : i.opcode.operandKind ≠ .capture) :
    i.operandValid pool code := by
  obtain ⟨opcode, operand, handler, range⟩ := i
  unfold Instruction.operandValid
  cases h with
  | @plain _ _ kind => simp only [kind]
  | @slot _ _ kind => simp only [kind]
  | @capture _ _ kind => exact absurd kind hkind
  | @name _ _ kind _ _ hname => simp only [kind, hname]
  | @jump _ _ kind _ _ hmarked => simpa only [kind, hsize, decide_eq_true_eq] using hmarked.le
  | constant hc _ => simpa only [Opcode.operandKind, decide_eq_true_eq] using
      (Array.getElem?_eq_some_iff.mp hc).1
  | closure hcode _ => simp only [Opcode.operandKind, hcode]

theorem Function.LinkedAs.grounded (H : Function.LinkedAs pool f code) :
    ∀ i ∈ code.instructions, i.Grounded pool code := by
  obtain ⟨_, _, _, hsize, _, hhandler, hoperation⟩ := H
  intro i hi
  refine ⟨fun hkind => ?operand, ?handler⟩
  case operand =>
    obtain ⟨k, hk⟩ := Array.getElem?_of_mem hi
    have hlt : k < f.instructionOps.length := hsize ▸ (Array.getElem?_eq_some_iff.mp hk).1
    exact (hoperation k _ _ i (List.getElem?_eq_getElem hlt) hk).operandValid hsize hkind
  case handler =>
    unfold Instruction.handlerValid
    split
    · rfl
    · rename_i h hh
      obtain ⟨region, _, hmarked⟩ := hhandler i hi h hh
      rw [hsize]
      exact decide_eq_true hmarked.le

/-- The code objects of a constant are linkings of functions. -/
theorem Literal.LinkedAs.codes {literal : Literal} {c : Constant}
    (H : Literal.LinkedAs pool literal c) (hcode : code ∈ c.codes) :
    ∃ f, Function.LinkedAs pool f code := by
  cases H with
  | function H =>
    obtain rfl := List.mem_singleton.mp hcode
    exact ⟨_, H⟩
  | @template _ _ methods codes length plain linked =>
    obtain ⟨k, hk⟩ := List.getElem?_of_mem hcode
    have hlt : k < methods.length := length ▸ (List.getElem?_eq_some_iff.mp hk).1
    exact ⟨_, linked k _ code (List.getElem?_eq_getElem hlt) hk⟩
  | _ => exact nomatch hcode

theorem WellLinked.grounded {m : LinkedModule} (h : WellLinked m.pool) : m.Grounded := by
  rintro code ⟨c, hc, hcode⟩
  obtain ⟨literal, H⟩ := h.entries c hc
  obtain ⟨f, H⟩ := H.codes hcode
  exact H.grounded

end Bitcode

/-! ## Accepted modules -/

namespace LinkedModule

theorem grounded_of_validate {m : LinkedModule} (h : m.validate = .ok ()) : m.Grounded :=
  fun _ hcode _ hi =>
    have hvalid := valid_of_validate h hcode hi
    ⟨fun _ => hvalid.1, hvalid.2⟩

theorem validate_of_ofPool {name : String} {pool : Array Constant} {m : LinkedModule}
    (h : ofPool name pool = .ok m) : m.validate = .ok () := (ofPool_eq_ok.mp h).2

theorem validate_of_decode {name : String} {bytes : Artifact.Bytes} {m : LinkedModule}
    (h : Artifact.decode name bytes = .ok m) : m.validate = .ok () := by
  obtain ⟨pool, _, h⟩ := Bitcode.bind_eq_ok h
  exact validate_of_ofPool h

/-- Whatever way a module was made, its operands and handlers refer to something. -/
theorem Accepted.grounded {m : LinkedModule} (h : m.Accepted) : m.Grounded := by
  induction h with
  | link h => exact (Bitcode.wellLinked_of_link h).grounded
  | ofPool h => exact grounded_of_validate (validate_of_ofPool h)
  | decode h => exact grounded_of_validate (validate_of_decode h)
  | renamed name _ ih => exact ih

end LinkedModule

/-! ## Finding modules -/

namespace Finder

variable {f : Finder} {w : Workspace} {name : String} {linked : LinkedModule}

/-- What is found for a name is a module that was linked or decoded under this name. -/
def Finds (name : String) (linked : LinkedModule) : Prop := linked.Accepted ∧ linked.name = name

theorem finds_of_readArtifact {p : Path} (h : readArtifact w name p = .ok linked) :
    Finds name linked := by
  unfold readArtifact at h
  split at h
  · exact nomatch h
  · split at h
    · rename_i hdecode
      cases h
      refine ⟨.decode hdecode, ?_⟩
      obtain ⟨pool, _, hpool⟩ := Bitcode.bind_eq_ok hdecode
      rw [(LinkedModule.ofPool_eq_ok.mp hpool).1]
    · exact nomatch h

theorem finds_of_compileAt {source artifact : Path}
    (h : (f.compileAt w name source artifact).1 = .ok linked) : Finds name linked := by
  unfold compileAt at h
  split at h
  · exact nomatch h
  · split at h
    · exact nomatch h
    · dsimp only at h
      split at h
      · exact nomatch h
      · split at h
        · exact nomatch h
        · rename_i hlink
          cases h
          exact ⟨.renamed name (.link hlink), rfl⟩

theorem finds_of_map {result : Except FinderError LinkedModule}
    (H : ∀ m : LinkedModule, result = .ok m → Finds name m)
    (h : result.map some = .ok (some linked)) : Finds name linked := by
  cases result with
  | error e => exact nomatch h
  | ok m =>
    cases h
    exact H _ rfl

theorem finds_of_resolveIn {directory : Path}
    (h : (f.resolveIn w name directory).1 = .ok (some linked)) : Finds name linked := by
  unfold resolveIn at h
  dsimp only at h
  split at h
  · exact nomatch h
  · exact finds_of_map (fun _ => finds_of_readArtifact) h
  · exact finds_of_map (fun _ => finds_of_compileAt) h
  · split at h
    · split at h
      · rename_i hread
        cases h
        exact finds_of_readArtifact hread
      · exact finds_of_map (fun _ => finds_of_compileAt) h
    · exact finds_of_map (fun _ => finds_of_compileAt) h

theorem finds_of_resolve (h : (f.resolve w name).1 = .ok (some linked)) : Finds name linked := by
  have among (directories : List Path) (w : Workspace)
      (h : (f.resolveAmong name w directories).1 = .ok (some linked)) : Finds name linked := by
    induction directories generalizing w with
    | nil => exact nomatch h
    | cons directory rest ih =>
      unfold resolveAmong at h
      split at h
      · exact ih _ h
      · exact finds_of_resolveIn h
  unfold resolve at h
  split at h
  · exact among _ w h
  · exact nomatch h

end Finder

end FiberMachine
