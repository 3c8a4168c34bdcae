import FiberMachine.Proofs.Bitcode.Offences
import FiberMachine.Proofs.Code.Accepted

/-!
# Which linked modules are valid

Linking gives out operands while the pool still grows and validates nothing. All the same, a linked
module is valid except for the captured cells that its functions name: it passes validation exactly
if no function of the source, at any depth, loads or stores a captured cell beyond those that it
declares, and otherwise validation stops at an instruction that does
(`Bitcode.Module.link_validate_iff`).

The code objects of a linked module and the functions of its source are the same things seen from
two sides. Every code object stems from a function (`Bitcode.Stems`), and every function has a code
object (`Bitcode.Function.Within.hasCode`).
-/

namespace FiberMachine

/-! ## What validation complains about -/

section Validate

variable {pool : Array Constant} {code : Code} {e : LinkError}

/-- The error names the instruction and what of it refers to nothing. -/
inductive Code.Complains (pool : Array Constant) (code : Code) : LinkError → Prop where
  | operand {k : Nat} {i : Instruction} : code.instructions[k]? = some i →
      ¬ i.operandValid pool code → code.Complains pool (.invalidOperand k)
  | handler {k : Nat} {i : Instruction} : code.instructions[k]? = some i →
      ¬ i.handlerValid code → code.Complains pool (.invalidHandler k)

theorem Code.complains_of_validateFrom {index : Nat} {is : List Instruction}
    (hdrop : code.instructions.toList.drop index = is)
    (h : code.validateFrom pool index is = .error e) : code.Complains pool e := by
  induction is generalizing index with
  | nil => cases h
  | cons i rest ih =>
    have hi : code.instructions[index]? = some i := by
      rw [← Array.getElem?_toList, ← List.head?_drop, hdrop, List.head?_cons]
    unfold Code.validateFrom at h
    split at h
    · rename_i hoperand
      cases h
      exact .operand hi (by simpa using hoperand)
    · split at h
      · rename_i hhandler
        cases h
        exact .handler hi (by simpa using hhandler)
      · exact ih (by rw [← List.tail_drop, hdrop, List.tail_cons]) h

theorem Code.complains_of_validate (h : code.validate pool = .error e) : code.Complains pool e :=
  Code.complains_of_validateFrom rfl h

theorem Code.complains_of_validateMethods {methods : List Code}
    (hnamed : ∀ method ∈ methods, method.name.isSome)
    (h : Code.validateMethods pool methods = .error e) :
    ∃ method ∈ methods, method.Complains pool e := by
  induction methods with
  | nil => cases h
  | cons method rest ih =>
    obtain ⟨hfirst, hrest⟩ := List.forall_mem_cons.mp hnamed
    unfold Code.validateMethods at h
    rw [if_neg (by simp [Option.isSome_iff_ne_none.mp hfirst])] at h
    cases hvalid : method.validate pool with
    | error e' =>
      simp only [hvalid] at h
      cases h
      exact ⟨method, List.mem_cons_self, Code.complains_of_validate hvalid⟩
    | ok _ =>
      simp only [hvalid] at h
      obtain ⟨other, hother, hcomplains⟩ := ih hrest h
      exact ⟨other, List.mem_cons_of_mem _ hother, hcomplains⟩

theorem Constant.complains_of_validate {c : Constant}
    (hnamed : ∀ t, c = .template t → ∀ method ∈ t.methods, method.name.isSome)
    (h : c.validate pool = .error e) : ∃ code ∈ c.codes, code.Complains pool e := by
  cases c with
  | code value => exact ⟨value, List.mem_singleton_self value, Code.complains_of_validate h⟩
  | template t => exact Code.complains_of_validateMethods (hnamed t rfl) h
  | bool _ | int _ | float _ | string _ => cases h

theorem Constant.exists_of_validateAll {cs : List Constant}
    (h : Constant.validateAll pool cs = .error e) : ∃ c ∈ cs, c.validate pool = .error e := by
  induction cs with
  | nil => cases h
  | cons c rest ih =>
    unfold Constant.validateAll at h
    cases hvalid : c.validate pool with
    | error e' =>
      rw [hvalid] at h
      cases h
      exact ⟨c, List.mem_cons_self, hvalid⟩
    | ok _ =>
      rw [hvalid] at h
      obtain ⟨other, hother, herror⟩ := ih h
      exact ⟨other, List.mem_cons_of_mem _ hother, herror⟩

/-- Of a module that has a body and names its methods, only an instruction can be invalid. -/
theorem LinkedModule.complains_of_validate {m : LinkedModule} (hbody : m.body?.isSome)
    (hnamed : ∀ t, .template t ∈ m.pool → ∀ method ∈ t.methods, method.name.isSome)
    (h : m.validate = .error e) : ∃ code, m.Has code ∧ code.Complains m.pool e := by
  unfold LinkedModule.validate at h
  rw [if_neg (by simp [Option.isSome_iff_ne_none.mp hbody])] at h
  obtain ⟨c, hc, herror⟩ := Constant.exists_of_validateAll h
  have hc := Array.mem_toList_iff.mp hc
  obtain ⟨code, hcode, hcomplains⟩ :=
    Constant.complains_of_validate (fun t ht => hnamed t (ht ▸ hc)) herror
  exact ⟨code, ⟨c, hc, hcode⟩, hcomplains⟩

end Validate

namespace Bitcode

/-! ## Where the code objects of a pool come from -/

/-- The one pool becomes the other, and the code objects it gains are linkings of such functions. -/
structure Stems (F : Function → Prop) (pool pool' : Array Constant) : Prop where
  keeps : Keeps pool pool'
  origin : ∀ c ∈ pool', c ∈ pool ∨ ∀ code ∈ c.codes, ∃ f, F f ∧ Function.LinkedAs pool' f code

namespace Stems

variable {F G : Function → Prop} {pool pool' pool'' : Array Constant}

theorem refl (pool : Array Constant) : Stems F pool pool := ⟨fun _ _ => id, fun _ => .inl⟩

theorem trans (H : Stems F pool pool') (H' : Stems F pool' pool'') : Stems F pool pool'' where
  keeps index c h := H'.keeps index c (H.keeps index c h)
  origin c hc := by
    rcases H'.origin c hc with hc | horigin
    · rcases H.origin c hc with hc | horigin
      · exact .inl hc
      · refine .inr fun code hcode => ?_
        obtain ⟨f, hf, hlinked⟩ := horigin code hcode
        exact ⟨f, hf, hlinked.mono H'.keeps⟩
    · exact .inr horigin

theorem mono (H : Stems F pool pool') (h : ∀ f, F f → G f) : Stems G pool pool' where
  keeps := H.keeps
  origin c hc := by
    refine (H.origin c hc).imp_right fun horigin code hcode => ?_
    obtain ⟨f, hf, hlinked⟩ := horigin code hcode
    exact ⟨f, h f hf, hlinked⟩

/-- A new entry whose code objects are linkings of such functions. -/
theorem push {c : Constant} (h : ∀ code ∈ c.codes, ∃ f, F f ∧ Function.LinkedAs pool f code) :
    Stems F pool (pool.push c) := by
  have keeps := Keeps.push pool c
  refine ⟨keeps, fun d hd => ?_⟩
  rcases Array.mem_push.mp hd with hd | rfl
  · exact .inl hd
  · refine .inr fun code hcode => ?_
    obtain ⟨f, hf, hlinked⟩ := h code hcode
    exact ⟨f, hf, hlinked.mono keeps⟩

end Stems

variable {pool pool' : Pool} {operand : UInt32}

theorem append_stems {F : Function → Prop} {c : Constant}
    {hshared : ∀ key : Interned, key.constant ≠ c}
    (hc : ∀ code ∈ c.codes, ∃ f, F f ∧ Function.LinkedAs pool.constants f code)
    (h : (append c hshared).run pool = .ok (operand, pool')) :
    Stems F pool.constants pool'.constants := by
  obtain ⟨_, hpool⟩ := append_run h
  rw [hpool]
  exact .push hc

theorem intern_stems {F : Function → Prop} {key : Interned}
    (h : (intern key).run pool = .ok (operand, pool')) :
    Stems F pool.constants pool'.constants := by
  rcases intern_run h with ⟨rfl, _⟩ | ⟨_, _, hpool⟩
  · exact .refl _
  · rw [hpool]
    refine .push fun code hcode => ?_
    cases key <;> cases hcode

/-- The function lies in one of the given functions. -/
def Function.WithinAny (fs : List Function) (f : Function) : Prop := ∃ g ∈ fs, f.Within g

/-- The code of a function is a linking of a function that lies in it. -/
theorem append_code_stems {f : Function} {fs : List Function} {code : Code} {pool₀ : Pool}
    (hf : f ∈ fs) (hcode : (linkFunction f).run pool₀ = .ok (code, pool))
    (h : (append (.code code) (Interned.constant_ne_code code)).run pool = .ok (operand, pool')) :
    Stems (Function.WithinAny fs) pool.constants pool'.constants := by
  refine append_stems (fun code' hcode' => ?_) h
  cases List.mem_singleton.mp hcode'
  exact ⟨f, ⟨f, hf, .refl f⟩, (linkFunction_linkedAs f hcode).2⟩

mutual

/-- Linking a function adds code objects of functions in it only. -/
theorem linkFunction_stems (f : Function) {pool pool' : Pool} {code : Code}
    (h : (linkFunction f).run pool = .ok (code, pool')) :
    Stems (·.Within f) pool.constants pool'.constants := by
  obtain ⟨name, signature, captures, ops, ranges, regions⟩ := f
  unfold linkFunction at h
  obtain ⟨layout, _, h⟩ := Linker.run_lift_bind_eq_ok h
  obtain ⟨instructions, _, hops, h⟩ := Linker.run_bind_eq_ok h
  cases h
  refine (linkOps_stems ops hops).mono fun g => ?_
  rintro ⟨op, hop, outer, houter, hwithin⟩
  exact .inner hop houter hwithin

theorem linkOps_stems (ops : List Op) {layout : Layout} {index : Nat} {ranges : List SourceRange}
    {pool pool' : Pool} {instructions : List Instruction}
    (h : (linkOps layout index ranges ops).run pool = .ok (instructions, pool')) :
    Stems (fun f => ∃ op ∈ ops, f.WithinAny op.functions) pool.constants pool'.constants := by
  cases ops with
  | nil =>
    unfold linkOps at h
    cases h
    exact .refl _
  | cons op rest =>
    cases hop : op.isInstruction with
    | false =>
      obtain ⟨l, rfl⟩ := Op.eq_label_of_not_isInstruction hop
      rw [linkOps] at h
      refine (linkOps_stems rest h).mono fun f hf => ?_
      exact List.exists_mem_cons_of_exists hf
    | true =>
      rw [linkOps_cons hop] at h
      obtain ⟨⟨opcode, operand⟩, _, hfirst, h⟩ := Linker.run_bind_eq_ok h
      obtain ⟨others, _, hrest, h⟩ := Linker.run_bind_eq_ok h
      cases h
      refine ((linkOp_stems op hfirst).mono fun f hf => ?_).trans
        ((linkOps_stems rest hrest).mono fun f hf => ?_)
      · exact ⟨op, List.mem_cons_self, hf⟩
      · exact List.exists_mem_cons_of_exists hf

theorem linkOp_stems (op : Op) {labels : Labels} {pool pool' : Pool}
    {linked : Opcode × UInt32} (h : (linkOp labels op).run pool = .ok (linked, pool')) :
    Stems (Function.WithinAny op.functions) pool.constants pool'.constants := by
  cases op with
  | label _ | plain _ _ | slot _ _ _ | capture _ _ _ =>
    unfold linkOp at h
    cases h
    exact .refl _
  | name _ _ name =>
    unfold linkOp at h
    obtain ⟨index, _, hindex, h⟩ := Linker.run_bind_eq_ok h
    cases h
    exact intern_stems hindex
  | jump _ _ target =>
    unfold linkOp at h
    obtain ⟨n, _, h⟩ := Linker.run_lift_bind_eq_ok h
    obtain ⟨index, _, h⟩ := Linker.run_lift_bind_eq_ok h
    cases h
    exact .refl _
  | constant literal =>
    unfold linkOp at h
    obtain ⟨index, _, hindex, h⟩ := Linker.run_bind_eq_ok h
    cases h
    exact linkLiteral_stems literal hindex
  | closure f =>
    unfold linkOp at h
    obtain ⟨code, _, hcode, h⟩ := Linker.run_bind_eq_ok h
    obtain ⟨index, _, hindex, h⟩ := Linker.run_bind_eq_ok h
    cases h
    have hf : f ∈ (Op.closure f).functions := List.mem_singleton_self f
    exact ((linkFunction_stems f hcode).mono fun g hg => ⟨f, hf, hg⟩).trans
      (append_code_stems hf hcode hindex)

theorem linkLiteral_stems (literal : Literal) {pool pool' : Pool} {operand : UInt32}
    (h : (linkLiteral literal).run pool = .ok (operand, pool')) :
    Stems (Function.WithinAny (Op.constant literal).functions) pool.constants
      pool'.constants := by
  cases literal with
  | bool _ | int _ | float _ | string _ =>
    unfold linkLiteral at h
    exact intern_stems h
  | function f =>
    unfold linkLiteral at h
    obtain ⟨code, _, hcode, h⟩ := Linker.run_bind_eq_ok h
    have hf : f ∈ (Op.constant (.function f)).functions := List.mem_singleton_self f
    exact ((linkFunction_stems f hcode).mono fun g hg => ⟨f, hf, hg⟩).trans
      (append_code_stems hf hcode h)
  | template template =>
    obtain ⟨name, «sealed», methods⟩ := template
    unfold linkLiteral at h
    obtain ⟨codes, _, hcodes, h⟩ := Linker.run_bind_eq_ok h
    refine (linkMethods_stems methods hcodes).trans (append_stems (fun code hcode => ?_) h)
    obtain ⟨k, hk⟩ := List.getElem?_of_mem hcode
    have hlinked := (linkMethods_linkedAs methods hcodes).2.2
    have hlt : k < methods.length := hlinked.length_eq ▸ (List.getElem?_eq_some_iff.mp hk).1
    have hmethod := List.getElem?_eq_getElem hlt
    exact ⟨_, ⟨_, List.mem_of_getElem? hmethod, .refl _⟩, related_at hlinked hmethod hk⟩

theorem linkMethods_stems (methods : List Function) {pool pool' : Pool}
    {codes : List Code} (h : (linkMethods methods).run pool = .ok (codes, pool')) :
    Stems (Function.WithinAny methods) pool.constants pool'.constants := by
  cases methods with
  | nil =>
    unfold linkMethods at h
    cases h
    exact .refl _
  | cons method rest =>
    unfold linkMethods at h
    split at h
    · cases h
    · split at h
      · cases h
      · obtain ⟨code, _, hcode, h⟩ := Linker.run_bind_eq_ok h
        obtain ⟨codes, _, hcodes, h⟩ := Linker.run_bind_eq_ok h
        cases h
        refine ((linkFunction_stems method hcode).mono fun f hf => ?_).trans
          ((linkMethods_stems rest hcodes).mono fun f hf => ?_)
        · exact ⟨method, List.mem_cons_self, hf⟩
        · exact List.exists_mem_cons_of_exists hf

end

/-- Every code object of a linked module is the linking of a function of its source. -/
theorem exists_within_of_link {m : Module} {linked : LinkedModule} (h : m.link = .ok linked)
    {code : Code} (hcode : linked.Has code) :
    ∃ f : Function, f.Within m.body ∧ Function.LinkedAs linked.pool f code := by
  obtain ⟨⟨body, pool₀⟩, hbody, h⟩ := bind_eq_ok h
  obtain ⟨⟨operand, pool⟩, happend, h⟩ := bind_eq_ok h
  cases h
  have hstems : Stems (·.Within m.body) #[] pool.constants := by
    refine (linkFunction_stems m.body hbody).trans (append_stems (fun code hcode => ?_) happend)
    cases List.mem_singleton.mp hcode
    exact ⟨m.body, .refl _, (linkFunction_linkedAs m.body hbody).2⟩
  obtain ⟨c, hc, hcode⟩ := hcode
  rcases hstems.origin c hc with hc | horigin
  · simp at hc
  · exact horigin code hcode

/-! ## Every function has its code object -/

variable {f g : Function} {code : Code} {linked : LinkedModule} {pool : Array Constant}

/-- The functions in an operation have code objects of their own. -/
theorem Op.LinkedAs.functions {op : Op} {opcode : Opcode}
    (H : Op.LinkedAs linked.pool f op opcode operand) (hg : g ∈ op.functions) :
    ∃ code, linked.Has code ∧ Function.LinkedAs linked.pool g code := by
  cases H with
  | plain | slot | capture | name _ | jump _ => cases hg
  | closure hentry hlinked =>
    cases List.mem_singleton.mp hg
    exact ⟨_, ⟨_, Array.mem_of_getElem? hentry, List.mem_singleton_self _⟩, hlinked⟩
  | constant hentry hlinked =>
    cases hlinked with
    | bool | int | float | string => cases hg
    | function hlinked =>
      cases List.mem_singleton.mp hg
      exact ⟨_, ⟨_, Array.mem_of_getElem? hentry, List.mem_singleton_self _⟩, hlinked⟩
    | @template _ _ methods codes length _ hlinked =>
      obtain ⟨k, hk⟩ := List.getElem?_of_mem (show g ∈ methods from hg)
      have hlt : k < codes.length := length ▸ (List.getElem?_eq_some_iff.mp hk).1
      have hcode := List.getElem?_eq_getElem hlt
      exact ⟨_, ⟨_, Array.mem_of_getElem? hentry, List.mem_of_getElem? hcode⟩,
        hlinked k g _ hk hcode⟩

/-- The instruction of an operation. -/
theorem Function.LinkedAs.instruction (H : Function.LinkedAs linked.pool f code) {op : Op}
    (hop : op ∈ f.ops) (hinstruction : op.isInstruction) :
    ∃ i ∈ code.instructions, Op.LinkedAs linked.pool f op i.opcode i.operand := by
  obtain ⟨_, _, _, hsize, _, _, hoperation⟩ := H
  obtain ⟨position, hposition⟩ := List.getElem?_of_mem hop
  have hmem : (op, position) ∈ f.instructionOps :=
    List.mem_filter.mpr ⟨List.mem_zipIdx_iff_getElem?.mpr hposition, hinstruction⟩
  obtain ⟨k, hk⟩ := List.getElem?_of_mem hmem
  have hlt : k < code.instructions.size := hsize ▸ (List.getElem?_eq_some_iff.mp hk).1
  have hi := Array.getElem?_eq_getElem hlt
  exact ⟨_, Array.mem_of_getElem? hi, hoperation k op position _ hk hi⟩

theorem Op.isInstruction_of_functions {op : Op} (hg : g ∈ op.functions) : op.isInstruction := by
  cases op with
  | label l => cases hg
  | _ => rfl

/-- A function in one that has a code object has a code object. -/
theorem Function.Within.hasCode (hwithin : g.Within f) (hcode : linked.Has code)
    (H : Function.LinkedAs linked.pool f code) :
    ∃ code, linked.Has code ∧ Function.LinkedAs linked.pool g code := by
  induction hwithin generalizing code with
  | refl => exact ⟨code, hcode, H⟩
  | inner hop hinner _ ih =>
    obtain ⟨i, _, hlinked⟩ := H.instruction hop (Op.isInstruction_of_functions hinner)
    obtain ⟨code', hcode', H'⟩ := hlinked.functions hinner
    exact ih hcode' H'

/-! ## Captured cells -/

theorem WellLinked.methods_named (h : WellLinked linked.pool) {t : TemplateCode}
    (ht : .template t ∈ linked.pool) : ∀ method ∈ t.methods, method.name.isSome := by
  obtain ⟨literal, H⟩ := h.entries _ ht
  cases H with
  | @template _ _ methods codes length plain hlinked =>
    intro code hcode
    obtain ⟨k, hk⟩ := List.getElem?_of_mem hcode
    have hlt : k < methods.length := length ▸ (List.getElem?_eq_some_iff.mp hk).1
    have hmethod := List.getElem?_eq_getElem hlt
    obtain ⟨hname, _⟩ := hlinked k _ code hmethod hk
    rw [hname]
    exact (plain _ (List.mem_of_getElem? hmethod)).1

/-- Instruction `k` of the function names a captured cell beyond those that it declares. -/
def Function.Overreaches (f : Function) (k : Nat) : Prop :=
  ∃ opcode kind index position, f.instructionOps[k]? = some (.capture opcode kind index, position) ∧
    f.captures.length ≤ index.toNat

theorem Op.LinkedAs.eq_capture {op : Op} {opcode : Opcode}
    (H : Op.LinkedAs pool f op opcode operand) (hkind : opcode.operandKind = .capture) :
    op = .capture opcode hkind operand := by
  cases H with
  | capture => rfl
  | @plain _ _ kind | @slot _ _ kind | @name _ _ kind | @jump _ _ kind =>
    rw [kind] at hkind
    cases hkind
  | constant _ _ | closure _ _ => cases hkind

/-- Validation complains of nothing in linked code but captured cells. -/
theorem Function.LinkedAs.overreaches (H : Function.LinkedAs pool f code) {e : LinkError}
    (h : code.Complains pool e) : ∃ k, f.Overreaches k ∧ e = .invalidOperand k := by
  have hgrounded := H.grounded
  obtain ⟨_, _, hcaptures, hsize, _, _, hoperation⟩ := H
  cases h with
  | handler hi hinvalid =>
    exact absurd (hgrounded _ (Array.mem_of_getElem? hi)).handler hinvalid
  | @operand k i hi hinvalid =>
    have hkind : i.opcode.operandKind = .capture := by
      by_contra hkind
      exact hinvalid ((hgrounded _ (Array.mem_of_getElem? hi)).operand hkind)
    have hlt : k < f.instructionOps.length := hsize ▸ (Array.getElem?_eq_some_iff.mp hi).1
    have hop := List.getElem?_eq_getElem hlt
    have heq := (hoperation k _ _ i hop hi).eq_capture hkind
    refine ⟨k, ⟨i.opcode, hkind, i.operand, f.instructionOps[k].2, ?_, ?_⟩, rfl⟩
    · rw [hop, ← heq]
      rfl
    · simpa [Instruction.operandValid, hkind, hcaptures] using hinvalid

theorem Function.LinkedAs.lt_of_valid (H : Function.LinkedAs linked.pool f code)
    (hvalid : ∀ i ∈ code.instructions, i.operandValid linked.pool code) {opcode : Opcode}
    {kind : opcode.operandKind = .capture} {index : UInt32}
    (hop : .capture opcode kind index ∈ f.ops) : index.toNat < f.captures.length := by
  obtain ⟨i, hi, hlinked⟩ := H.instruction hop rfl
  obtain ⟨_, _, hcaptures, _⟩ := H
  have hvalid := hvalid i hi
  generalize hopcode : i.opcode = opcode', hoperand : i.operand = operand at hlinked
  cases hlinked with
  | capture =>
    rw [← hcaptures, ← hoperand]
    simpa [Instruction.operandValid, hopcode, kind] using hvalid

theorem body?_of_link {m : Module} (h : m.link = .ok linked) :
    ∃ code, linked.Has code ∧ linked.body? = some code ∧
      Function.LinkedAs linked.pool m.body code := by
  obtain ⟨pool, code, _, hlinked, rfl⟩ := link_eq_ok h
  have hbody : LinkedModule.body? ⟨m.name, pool.push (.code code)⟩ = some code := by
    rw [LinkedModule.body?, Array.back?_push]
  exact ⟨code, ⟨_, Array.mem_push_self, List.mem_singleton_self code⟩, hbody,
    hlinked.mono (Keeps.push pool (.code code))⟩

/--
A linked module is valid exactly if no function of its source, at any depth, names a captured cell
that it does not declare, and what is found to be invalid is the operand of an instruction that
does. All other operands and all handlers are valid in any case.
-/
theorem Module.link_validate_iff {m : Module} {linked : LinkedModule} (h : m.link = .ok linked) :
    (linked.validate = .ok () ↔ ∀ f : Function, f.Within m.body → ∀ opcode kind index,
      .capture opcode kind index ∈ f.ops → index.toNat < f.captures.length) ∧
    (∀ e, linked.validate = .error e → ∃ f : Function, f.Within m.body ∧
      ∃ code, linked.Has code ∧ Function.LinkedAs linked.pool f code ∧
        ∃ k, f.Overreaches k ∧ e = .invalidOperand k) ∧
    linked.Grounded := by
  obtain ⟨body, hbody, hbody?, hlinked⟩ := body?_of_link h
  have hwell := wellLinked_of_link h
  have herror : ∀ e, linked.validate = .error e → ∃ f : Function, f.Within m.body ∧
      ∃ code, linked.Has code ∧ Function.LinkedAs linked.pool f code ∧
        ∃ k, f.Overreaches k ∧ e = .invalidOperand k := by
    intro e he
    obtain ⟨code, hcode, hcomplains⟩ := LinkedModule.complains_of_validate
      (by rw [hbody?, Option.isSome_some]) (fun _ => hwell.methods_named) he
    obtain ⟨f, hwithin, H⟩ := exists_within_of_link h hcode
    exact ⟨f, hwithin, code, hcode, H, H.overreaches hcomplains⟩
  refine ⟨⟨?valid, ?declared⟩, herror, hwell.grounded⟩
  case valid =>
    intro hvalid f hwithin opcode kind index hop
    obtain ⟨code, hcode, H⟩ := hwithin.hasCode hbody hlinked
    exact H.lt_of_valid (fun i hi => (LinkedModule.valid_of_validate hvalid hcode hi).1) hop
  case declared =>
    intro hdeclared
    cases hvalidate : linked.validate with
    | ok _ => rfl
    | error e =>
      obtain ⟨f, hwithin, _, _, _, k, ⟨opcode, kind, index, position, hop, hle⟩, _⟩ :=
        herror e hvalidate
      have hmem := List.mem_of_mem_filter (List.mem_of_getElem? hop)
      have hop := List.mem_of_getElem? (List.mem_zipIdx_iff_getElem?.mp hmem)
      exact absurd (hdeclared f hwithin opcode kind index hop) (Nat.not_lt.mpr hle)

/-- A closure that stores into a captured cell and captures none. -/
def uncaptured : Module where
  name := "uncaptured"
  body := ⟨none, {}, [],
    [.closure ⟨none, {}, [], [.constant (.int 1), .capture .storeCapture rfl 0], [], []⟩], [], []⟩

def uncapturedLinked : LinkedModule where
  name := "uncaptured"
  pool := #[
    .int 1,
    .code {
      name := none, signature := {}, captures := []
      instructions := #[{ opcode := .loadConst }, { opcode := .storeCapture }] },
    .code {
      name := none, signature := {}, captures := []
      instructions := #[{ opcode := .makeFunction, operand := 1 }] }]

theorem validate_uncaptured :
    uncaptured.link = .ok uncapturedLinked ∧
      uncapturedLinked.validate = .error (.invalidOperand 1) ∧
      (∃ f : Function, f.Within uncaptured.body ∧ f.Overreaches 1) ∧
      uncapturedLinked.Grounded := by
  have hlink : uncaptured.link = .ok uncapturedLinked := by decide +kernel
  have hvalidate : uncapturedLinked.validate = .error (.invalidOperand 1) := by decide +kernel
  obtain ⟨_, herror, hgrounded⟩ := Module.link_validate_iff hlink
  obtain ⟨f, hwithin, _, _, _, k, hk, he⟩ := herror _ hvalidate
  cases he
  exact ⟨hlink, hvalidate, ⟨f, hwithin, hk⟩, hgrounded⟩

end Bitcode

end FiberMachine
