import FiberMachine.Bitcode.Builder
import FiberMachine.Bitcode.Document
import FiberMachine.Bitcode.Link
import Mathlib.Data.List.Nodup

/-!
# Written bitcode

What was written is read back as it was, bit for bit (`Module.read_write`), in every format of
documents. The depth that the readers of nested parts are given plays no role as long as it exceeds
the height of the document (`Settled`), so each reader has an equation without depth. From these
equations it follows that a field with a default may be left out anywhere in a document
(`Completes.read_eq`).
-/

namespace FiberMachine

/-! ## Numbers and names -/

namespace Document

theorem readU32_ofU32 (n : UInt32) : readU32 (ofU32 n) = .ok n := by
  have hlt := n.toNat_lt
  rw [readU32, u32?, ofU32, Document.nat, nat?, if_pos (by unfold UInt32.size; omega),
    Int.toNat_natCast]
  exact congrArg Except.ok UInt32.ofNat_toNat

theorem i64?_toInt (i : Int64) : (int i.toInt).i64? = some i := by
  have hfits : Int64.minValue.toInt ≤ i.toInt ∧ i.toInt ≤ Int64.maxValue.toInt :=
    ⟨i.minValue_le_toInt, i.toInt_le⟩
  rw [i64?, Integer.ofInt?, if_pos hfits, Int64.ofInt_toInt]

theorem readBool_bool (b : Bool) : readBool (bool b) = .ok b := rfl

theorem readName_ofOption (name : Option String) : readName (ofOption text name) = .ok name := by
  cases name <;> rfl

/-! ## Lists and fields -/

section Reading

variable {α : Type} {read read' : Document → Except ShapeError α}

theorem readList_nil (read : Document → Except ShapeError α) : readList read (list []) = .ok [] :=
  rfl

theorem readList_map {write : α → Document} (h : ∀ x, read (write x) = .ok x) (xs : List α) :
    readList read (list (xs.map write)) = .ok xs := by
  show (xs.map write).mapM read = _
  induction xs with
  | nil => rfl
  | cons x xs ih =>
    rw [List.map_cons, List.mapM_cons, h, ih]
    rfl

theorem readList_congr {items : List Document} (h : ∀ d ∈ items, read d = read' d) :
    readList read (list items) = readList read' (list items) := by
  show items.mapM read = items.mapM read'
  induction items with
  | nil => rfl
  | cons d items ih =>
    rw [List.mapM_cons, List.mapM_cons, h d List.mem_cons_self,
      ih fun d hd => h d (List.mem_cons_of_mem _ hd)]

/-- The fields of a record. -/
def entries : Document → List (String × Document)
  | record fields => fields
  | _ => []

theorem countP_eq_count (name : String) (fields : List (String × Document)) :
    (fields.countP fun field => field.1 == name) = (fields.map Prod.fst).count name := by
  rw [List.count, List.countP_map]
  rfl

/-- Whether a name is repeated depends on the names alone. -/
theorem repeats_congr (names : List String) {fields fields' : List (String × Document)}
    (h : fields.map Prod.fst = fields'.map Prod.fst) :
    repeats names fields = repeats names fields' := by
  simp only [repeats, countP_eq_count, h]

theorem repeats_of_nodup (names : List String) {fields : List (String × Document)}
    (h : (fields.map Prod.fst).Nodup) : repeats names fields = false := by
  refine List.any_eq_false.mpr fun name _ => ?_
  rw [countP_eq_count, decide_eq_true_iff, Nat.not_lt]
  exact List.nodup_iff_count_le_one.mp h name

theorem map_fst_zip_sublist (names : List String) (items : List Document) :
    ((names.zip items).map Prod.fst).Sublist names := by
  induction names generalizing items with
  | nil => exact .slnil
  | cons name names ih =>
    cases items with
    | nil => exact List.nil_sublist _
    | cons d items => exact (ih items).cons_cons name

theorem repeats_zip {names : List String} (h : names.Nodup) (items : List Document) :
    repeats names (names.zip items) = false :=
  repeats_of_nodup names (h.sublist (map_fst_zip_sublist names items))

theorem height_lt_of_mem {items : List Document} {d : Document} (h : d ∈ items) :
    d.height < (list items).height := by
  refine Nat.lt_succ_of_le ?_
  induction items with
  | nil => cases h
  | cons first items ih =>
    rcases List.mem_cons.mp h with rfl | h
    · exact Nat.le_max_left ..
    · exact Nat.le_trans (ih h) (Nat.le_max_right ..)

theorem mem_of_lookup {fields : List (String × Document)} {name : String} {d : Document}
    (h : fields.lookup name = some d) : (name, d) ∈ fields := by
  obtain ⟨front, back, rfl, -⟩ := List.lookup_eq_some_iff.mp h
  exact List.mem_append_right _ List.mem_cons_self

theorem height_lt_of_lookup {fields : List (String × Document)} {name : String} {d : Document}
    (h : fields.lookup name = some d) : d.height < (record fields).height := by
  refine Nat.lt_succ_of_le ?_
  induction fields with
  | nil => cases h
  | cons field fields ih =>
    obtain ⟨key, first⟩ := field
    rw [List.lookup_cons] at h
    split at h
    · cases h
      exact Nat.le_max_left ..
    · exact Nat.le_trans (ih h) (Nat.le_max_right ..)

/-- What a document has in a field is lower than the document. -/
theorem height_lt_of_field {d d' : Document} {positional : Bool} {names : List String}
    {fields : List (String × Document)} {name : String}
    (h : d.fields? positional names = some fields) (hd' : fields.lookup name = some d') : d'.height < d.height := by
  cases d with
  | record fields' =>
    rw [fields?] at h
    split at h
    · cases h
    · cases h
      exact height_lt_of_lookup hd'
  | list items =>
    rw [fields?] at h
    split at h
    · cases h
      have hmem : (name, d') ∈ names.zip items := mem_of_lookup hd'
      exact height_lt_of_mem (List.of_mem_zip hmem).2
    · cases h
  | _ => cases h

/-- The documents of a list below a document are lower than it. -/
theorem readList_field_congr {d d' : Document}
    (h : ∀ d' : Document, d'.height < d.height → read d' = read' d') (hd' : d'.height < d.height) :
    readList read d' = readList read' d' := by
  cases d' with
  | list items =>
    exact readList_congr fun d' hmem => h d' (Nat.lt_trans (height_lt_of_mem hmem) hd')
  | _ => rfl

-- Not by `rfl`: the bounds of numbers are not to be unfolded when these are used.
theorem optional_some (default : α) (d : Document) :
    optional read default (some d) = read d := by rw [Document.optional]

theorem required_some (d : Document) : required read (some d) = read d := by
  rw [Document.required]

theorem optional_congr {default : α} {field : Option Document}
    (h : ∀ d, field = some d → read d = read' d) :
    optional read default field = optional read' default field := by
  cases field with
  | none => rfl
  | some d => exact h d rfl

theorem required_congr {field : Option Document} (h : ∀ d, field = some d → read d = read' d) :
    required read field = required read' field := by
  cases field with
  | none => rfl
  | some d => exact h d rfl

end Reading

end Document

open Document

namespace Format

variable {α : Type} {format : Format} {names : List String}
  {read read' : List (String × Document) → Except ShapeError α}

theorem readRecord_record (fields : List (String × Document)) :
    format.readRecord names read (record fields) =
      if repeats names fields then .error .shape else read fields := by
  rw [readRecord, fields?]
  split <;> rfl

theorem readRecord_list {items : List Document} (hpositional : format.positional = true)
    (hlength : items.length ≤ names.length) :
    format.readRecord names read (list items) = read (names.zip items) := by
  rw [readRecord, fields?, hpositional, Bool.true_and, if_pos (decide_eq_true hlength)]
  rfl

/-- A record that has each of the fields once is read by them. -/
theorem readRecord_of_keys {fields : List (String × Document)} (h : fields.map Prod.fst = names)
    (hnodup : names.Nodup) : format.readRecord names read (record fields) = read fields := by
  rw [readRecord_record, repeats_of_nodup names (h ▸ hnodup)]
  rfl

/-- Readers that agree on the fields of a document agree on the document. -/
theorem readRecord_congr {d : Document}
    (h : ∀ fields, d.fields? format.positional names = some fields → read fields = read' fields) :
    format.readRecord names read d = format.readRecord names read' d := by
  rw [readRecord, readRecord]
  cases hfields : d.fields? format.positional names with
  | none => rfl
  | some fields => exact h fields hfields

end Format

section Writing

variable (format : Format)

theorem Signature.read_write (s : Signature) : Signature.read format s.write = .ok s := by
  have hkeywords : readList readText (list (s.keywords.map text)) = .ok s.keywords :=
    readList_map (α := String) (fun _ => rfl) s.keywords
  rw [write, read]
  refine Eq.trans (Format.readRecord_of_keys rfl (by decide)) ?_
  rw [readFields]
  simp only [List.lookup_cons, String.reduceBEq, optional_some, readU32_ofU32, hkeywords]
  rfl

theorem Capture.read_write (c : Capture) : Capture.read c.write = .ok c := by
  cases c with
  | slot i =>
    rw [write, read, readU32_ofU32]
    rfl
  | outer i =>
    rw [write, read, readU32_ofU32]
    rfl

theorem SourcePosition.read_write (p : SourcePosition) :
    SourcePosition.read format p.write = .ok p := by
  rw [write, read]
  refine Eq.trans (Format.readRecord_of_keys rfl (by decide)) ?_
  simp only [List.lookup_cons, String.reduceBEq, required_some, readU32_ofU32]
  rfl

theorem SourceRange.read_write (r : SourceRange) : SourceRange.read format r.write = .ok r := by
  rw [write, read]
  refine Eq.trans (Format.readRecord_of_keys rfl (by decide)) ?_
  simp only [List.lookup_cons, String.reduceBEq, required_some, SourcePosition.read_write]
  rfl

theorem Bitcode.TryRegion.read_write (r : TryRegion) : TryRegion.read format r.write = .ok r := by
  rw [write, read]
  refine Eq.trans (Format.readRecord_of_keys rfl (by decide)) ?_
  simp only [List.lookup_cons, String.reduceBEq, required_some, readU32_ofU32]
  rfl

end Writing

theorem Opcode.ofName?_name (op : Opcode) : Opcode.ofName? op.name = some op := by
  cases op <;> rfl

namespace Bitcode

/-! ## Reading without depth -/

theorem Template.readFields_congr {read read' : Document → Except ShapeError Function}
    {fields : List (String × Document)}
    (h : ∀ d, fields.lookup "methods" = some d → readList read d = readList read' d) :
    Template.readFields read fields = Template.readFields read' fields := by
  rw [Template.readFields, Template.readFields, optional_congr h]

theorem Function.readFields_congr {format : Format} {read read' : Document → Except ShapeError Op}
    {fields : List (String × Document)}
    (h : ∀ d, fields.lookup "ops" = some d → readList read d = readList read' d) :
    Function.readFields format read fields = Function.readFields format read' fields := by
  rw [Function.readFields, Function.readFields, required_congr h]

/-- At either depth, every reader makes the same of the document. -/
structure Settled (format : Format) (depth depth' : Nat) (d : Document) : Prop where
  op : readOp format depth d = readOp format depth' d
  literal : readLiteral format depth d = readLiteral format depth' d
  template : readTemplate format depth d = readTemplate format depth' d
  function : readFunction format depth d = readFunction format depth' d

section Settled

variable {format : Format} {depth depth' : Nat} {d : Document}

/-- What a variant of one field holds is read at one level less. -/
theorem Settled.variant {name : String} (h : Settled format depth depth' d) :
    readOp format (depth + 1) (record [(name, d)]) =
        readOp format (depth' + 1) (record [(name, d)]) ∧
      readLiteral format (depth + 1) (record [(name, d)]) =
        readLiteral format (depth' + 1) (record [(name, d)]) := by
  constructor
  · rw [readOp, readOp, h.literal, h.function]
  · rw [readLiteral, readLiteral, h.template, h.function]

theorem readTemplate_congr
    (h : ∀ d' : Document, d'.height < d.height → Settled format depth depth' d') :
    readTemplate format (depth + 1) d = readTemplate format (depth' + 1) d := by
  rw [readTemplate, readTemplate]
  refine Format.readRecord_congr fun fields hfields => Template.readFields_congr fun d' hd' => ?_
  exact readList_field_congr (fun d' hd' => (h d' hd').function) (height_lt_of_field hfields hd')

theorem readFunction_congr
    (h : ∀ d' : Document, d'.height < d.height → Settled format depth depth' d') :
    readFunction format (depth + 1) d = readFunction format (depth' + 1) d := by
  rw [readFunction, readFunction]
  refine Format.readRecord_congr fun fields hfields => Function.readFields_congr fun d' hd' => ?_
  exact readList_field_congr (fun d' hd' => (h d' hd').op) (height_lt_of_field hfields hd')

theorem settled_of_lower
    (h : ∀ d' : Document, d'.height < d.height → Settled format depth depth' d') :
    Settled format (depth + 1) (depth' + 1) d := by
  suffices hvariant : readOp format (depth + 1) d = readOp format (depth' + 1) d ∧
      readLiteral format (depth + 1) d = readLiteral format (depth' + 1) d from
    ⟨hvariant.1, hvariant.2, readTemplate_congr h, readFunction_congr h⟩
  cases d with
  | record fields =>
    rcases fields with _ | ⟨⟨name, d'⟩, _ | ⟨field, fields⟩⟩
    · exact ⟨rfl, rfl⟩
    · exact (h d' (Nat.lt_succ_of_le (Nat.le_max_left ..))).variant
    · exact ⟨rfl, rfl⟩
  | _ => exact ⟨rfl, rfl⟩

/-- Depth beyond the height of the document makes no difference. -/
theorem settled (h : d.height < depth) (h' : d.height < depth') :
    Settled format depth depth' d := by
  induction depth generalizing depth' d with
  | zero => exact absurd h (Nat.not_lt_zero _)
  | succ depth ih =>
    cases depth' with
    | zero => exact absurd h' (Nat.not_lt_zero _)
    | succ depth' => exact settled_of_lower fun d' hd' => ih (by omega) (by omega)

end Settled

section Format

variable (format : Format)

def Literal.read (d : Document) : Except ShapeError Literal := readLiteral format (d.height + 1) d

def Template.read (d : Document) : Except ShapeError Template :=
  readTemplate format (d.height + 1) d

theorem Op.read_record (name : String) (d : Document) :
    Op.read format (record [(name, d)]) =
      if name = "Label" then .label <$> d.readU32
      else if name = "LoadConst" then .constant <$> Literal.read format d
      else if name = "MakeFunction" then .closure <$> Function.read format d
      else Shaped (Opcode.ofName? name) >>= fun opcode => readSimple opcode d := by
  have hheight : (record [(name, d)]).height = d.height + 1 := by
    rw [height, heightFields, heightFields, Nat.max_zero]
  rw [Op.read, hheight, readOp, Literal.read, Function.read]

theorem Literal.read_record (kind : String) (d : Document) :
    Literal.read format (record [(kind, d)]) =
      if kind = "Bool" then .bool <$> d.readBool
      else if kind = "Int" then .int <$> Shaped d.i64?
      else if kind = "Float" then .float <$> format.readDouble d
      else if kind = "String" then .string <$> d.readText
      else if kind = "Function" then .function <$> Function.read format d
      else if kind = "Template" then .template <$> Template.read format d
      else .error .shape := by
  have hheight : (record [(kind, d)]).height = d.height + 1 := by
    rw [height, heightFields, heightFields, Nat.max_zero]
  rw [Literal.read, hheight, readLiteral, Template.read, Function.read]

theorem Template.read_eq (d : Document) :
    Template.read format d =
      format.readRecord fieldNames (Template.readFields (Function.read format)) d := by
  rw [Template.read, readTemplate]
  refine Format.readRecord_congr fun fields hfields => Template.readFields_congr fun d' hd' => ?_
  exact readList_field_congr (fun d' hd' => (settled hd' (Nat.lt_succ_self _)).function)
    (height_lt_of_field hfields hd')

theorem Function.read_eq (d : Document) :
    Function.read format d =
      format.readRecord fieldNames (Function.readFields format (Op.read format)) d := by
  rw [Function.read, readFunction]
  refine Format.readRecord_congr fun fields hfields => Function.readFields_congr fun d' hd' => ?_
  exact readList_field_congr (fun d' hd' => (settled hd' (Nat.lt_succ_self _)).op)
    (height_lt_of_field hfields hd')

/-! ## Reading what was written -/

section ReadSimple

variable {opcode : Opcode} {d : Document}

theorem readPlain_name (kind : opcode.operandKind = .none) :
    readPlain opcode.name = .ok (.plain opcode kind) := by
  rw [readPlain, Opcode.ofName?_name]
  exact dif_pos kind

/-- An opcode is given by its name unless its operand is a literal or a function. -/
theorem Op.read_simple (hconstant : opcode.operandKind ≠ .constant)
    (hcode : opcode.operandKind ≠ .code) :
    Op.read format (record [(opcode.name, d)]) = readSimple opcode d := by
  have hname {name : String} (h : ∀ op, Opcode.ofName? name = some op → opcode ≠ op) :
      opcode.name ≠ name := fun heq => h opcode (heq ▸ opcode.ofName?_name) rfl
  have hlabel : opcode.name ≠ "Label" := hname fun op hop => by cases hop
  have hload : opcode.name ≠ "LoadConst" := hname fun op hop => by
    cases hop
    rintro rfl
    exact hconstant rfl
  have hmake : opcode.name ≠ "MakeFunction" := hname fun op hop => by
    cases hop
    rintro rfl
    exact hcode rfl
  rw [Op.read_record, if_neg hlabel, if_neg hload, if_neg hmake, Opcode.ofName?_name]
  rfl

theorem readSimple_slot (kind : opcode.operandKind = .slot) :
    readSimple opcode d = .slot opcode kind <$> d.readU32 := by
  cases opcode <;> first | rfl | cases kind

theorem readSimple_capture (kind : opcode.operandKind = .capture) :
    readSimple opcode d = .capture opcode kind <$> d.readU32 := by
  cases opcode <;> first | rfl | cases kind

theorem readSimple_name (kind : opcode.operandKind = .name) :
    readSimple opcode d = .name opcode kind <$> d.readText := by
  cases opcode <;> first | rfl | cases kind

theorem readSimple_target (kind : opcode.operandKind = .target) :
    readSimple opcode d = .jump opcode kind <$> d.readU32 := by
  cases opcode <;> first | rfl | cases kind

end ReadSimple

mutual

theorem Op.read_write (op : Op) : Op.read format (op.write format) = .ok op := by
  cases op with
  | label l =>
    rw [Op.write, Op.read_record, if_pos rfl, readU32_ofU32]
    rfl
  | plain opcode kind =>
    rw [Op.write]
    exact readPlain_name kind
  | slot opcode kind i =>
    rw [Op.write, Op.read_simple format (by simp [kind]) (by simp [kind]), readSimple_slot kind,
      readU32_ofU32]
    rfl
  | capture opcode kind i =>
    rw [Op.write, Op.read_simple format (by simp [kind]) (by simp [kind]), readSimple_capture kind,
      readU32_ofU32]
    rfl
  | name opcode kind name =>
    rw [Op.write, Op.read_simple format (by simp [kind]) (by simp [kind]), readSimple_name kind]
    rfl
  | jump opcode kind target =>
    rw [Op.write, Op.read_simple format (by simp [kind]) (by simp [kind]), readSimple_target kind,
      readU32_ofU32]
    rfl
  | constant literal =>
    rw [Op.write, Op.read_record, if_neg (by decide), if_pos rfl, Literal.read_write literal]
    rfl
  | closure function =>
    rw [Op.write, Op.read_record, if_neg (by decide), if_neg (by decide), if_pos rfl,
      Function.read_write function]
    rfl

theorem Op.readList_writeAll (ops : List Op) :
    readList (Op.read format) (list (Op.writeAll format ops)) = .ok ops := by
  cases ops with
  | nil => rfl
  | cons op rest =>
    have hrest : (Op.writeAll format rest).mapM (Op.read format) = .ok rest :=
      Op.readList_writeAll rest
    rw [Op.writeAll, readList, List.mapM_cons, Op.read_write op, hrest]
    rfl

theorem Literal.read_write (literal : Literal) :
    Literal.read format (literal.write format) = .ok literal := by
  cases literal with
  | bool b => rfl
  | int i =>
    rw [Literal.write, Literal.read_record, if_neg (by decide), if_pos rfl, i64?_toInt]
    rfl
  | float x =>
    rw [Literal.write, Literal.read_record, if_neg (by decide), if_neg (by decide), if_pos rfl,
      format.readDouble_ofDouble]
    rfl
  | string s => rfl
  | function f =>
    rw [Literal.write, Literal.read_record, if_neg (by decide), if_neg (by decide),
      if_neg (by decide), if_neg (by decide), if_pos rfl, Function.read_write f]
    rfl
  | template t =>
    rw [Literal.write, Literal.read_record, if_neg (by decide), if_neg (by decide),
      if_neg (by decide), if_neg (by decide), if_neg (by decide), if_pos rfl,
      Template.read_write t]
    rfl

theorem Template.read_write (t : Template) : Template.read format (t.write format) = .ok t := by
  obtain ⟨name, «sealed», methods⟩ := t
  rw [Template.write, Template.read_eq]
  refine Eq.trans (Format.readRecord_of_keys rfl (by decide)) ?_
  rw [Template.readFields]
  simp only [List.lookup_cons, String.reduceBEq, optional_some, required_some,
    Function.readList_writeAll methods]
  rfl

theorem Function.read_write (f : Function) : Function.read format (f.write format) = .ok f := by
  obtain ⟨name, signature, captures, ops, ranges, regions⟩ := f
  rw [Function.write, Function.read_eq]
  refine Eq.trans (Format.readRecord_of_keys rfl (by decide)) ?_
  rw [Function.readFields]
  simp only [List.lookup_cons, String.reduceBEq, optional_some, required_some,
    Op.readList_writeAll ops, readName_ofOption, readList_map Capture.read_write,
    readList_map (SourceRange.read_write format), readList_map (TryRegion.read_write format),
    Signature.read_write]
  rfl

theorem Function.readList_writeAll (fs : List Function) :
    readList (Function.read format) (list (Function.writeAll format fs)) = .ok fs := by
  cases fs with
  | nil => rfl
  | cons f rest =>
    have hrest : (Function.writeAll format rest).mapM (Function.read format) = .ok rest :=
      Function.readList_writeAll rest
    rw [Function.writeAll, readList, List.mapM_cons, Function.read_write f, hrest]
    rfl

end

theorem Module.read_write (m : Module) : Module.read format (m.write format) = .ok m := by
  rw [Module.write, Module.read]
  refine Eq.trans (Format.readRecord_of_keys rfl (by decide)) ?_
  rw [Module.readFields]
  simp only [List.lookup_cons, String.reduceBEq, required_some, Function.read_write]
  rfl

end Format

/-! ## Fields that may be left out -/

/-- What is written as a record or a variant that other such parts may be in. -/
inductive Part where
  | signature
  | op
  | literal
  | template
  | function
  | module

namespace Part

/-- What the part is read as. -/
def Content : Part → Type
  | signature => Signature
  | op => Op
  | literal => Literal
  | template => Template
  | function => Function
  | module => Module

def read (format : Format) : (p : Part) → Document → Except ShapeError p.Content
  | signature => Signature.read format
  | op => Op.read format
  | literal => Literal.read format
  | template => Template.read format
  | function => Function.read format
  | module => Module.read format

/-- The names of the fields in their order. A variant has none that are always the same. -/
def fieldNames : Part → List String
  | signature => Signature.fieldNames
  | template => Template.fieldNames
  | function => Function.fieldNames
  | module => Module.fieldNames
  | op | literal => []

theorem nodup_fieldNames (p : Part) : p.fieldNames.Nodup := by
  cases p <;> decide

def readFields (format : Format) :
    (p : Part) → List (String × Document) → Except ShapeError p.Content
  | signature => Signature.readFields
  | template => Template.readFields (Function.read format)
  | function => Function.readFields format (Op.read format)
  | module => Module.readFields format
  | op => fun fields => Op.read format (record fields)
  | literal => fun fields => Literal.read format (record fields)

/-- The fields that may be absent, as they are written for a part that has nothing in them. -/
def defaults (format : Format) : Part → List (String × Document)
  | signature => (Signature.write {}).entries
  | template => (Template.write format ⟨"", false, []⟩).entries.filter (·.1 ≠ "name")
  | function => (Function.write format (.empty none)).entries.filter (·.1 ≠ "ops")
  | op | literal | module => []

/-- Which part a field of a part holds. -/
inductive Holds : Part → String → Part → Prop where
  | constant : Holds op "LoadConst" literal
  | closure : Holds op "MakeFunction" function
  | function : Holds literal "Function" function
  | template : Holds literal "Template" template
  | signature : Holds function "signature" signature
  | body : Holds module "body" function

/-- Which parts a field of a part lists. -/
inductive Lists : Part → String → Part → Prop where
  | methods : Lists template "methods" function
  | ops : Lists function "ops" op

/-- The document gives the part these fields, in a record or by their order. -/
inductive Gives (format : Format) (p : Part) : Document → List (String × Document) → Prop where
  | named (fields : List (String × Document)) : Gives format p (record fields) fields
  | ordered (items : List Document) :
      format.positional = true → items.length ≤ p.fieldNames.length →
      Gives format p (list items) (p.fieldNames.zip items)

/--
The second document is the first with some fields added that were absent, here or in the parts in
it, each with its default.
-/
inductive Completes (format : Format) : Part → Document → Document → Prop where
  | refl (p : Part) (d : Document) : Completes format p d d
  | trans {p : Part} {d d' d'' : Document} :
      Completes format p d d' → Completes format p d' d'' → Completes format p d d''
  | absent {p : Part} {d d' default : Document} {name : String}
      {front back : List (String × Document)} :
      (name, default) ∈ p.defaults format → (front ++ back).lookup name = none →
      p.Gives format d (front ++ back) → p.Gives format d' (front ++ (name, default) :: back) →
      Completes format p d d'
  | inside {p q : Part} {d d' e e' : Document} {name : String}
      {front back : List (String × Document)} :
      p.Holds name q → Completes format q e e' → p.Gives format d (front ++ (name, e) :: back) →
      p.Gives format d' (front ++ (name, e') :: back) → Completes format p d d'
  | item {p q : Part} {d d' e e' : Document} {name : String} {before after : List Document}
      {front back : List (String × Document)} :
      p.Lists name q → Completes format q e e' →
      p.Gives format d (front ++ (name, list (before ++ e :: after)) :: back) →
      p.Gives format d' (front ++ (name, list (before ++ e' :: after)) :: back) →
      Completes format p d d'

variable {p : Part} {format : Format} {d : Document} {fields : List (String × Document)}

/-- What is read of a part depends on the fields that it is given. -/
theorem Gives.read_eq (h : p.Gives format d fields) :
    p.read format d =
      if repeats p.fieldNames fields then .error .shape else p.readFields format fields := by
  cases h with
  | named =>
    cases p with
    | signature => exact Format.readRecord_record fields
    | template => exact (Template.read_eq format _).trans (Format.readRecord_record fields)
    | function => exact (Function.read_eq format _).trans (Format.readRecord_record fields)
    | module => exact Format.readRecord_record fields
    | op | literal => rfl
  | ordered items hpositional hlength =>
    rw [repeats_zip p.nodup_fieldNames]
    cases p with
    | signature => exact Format.readRecord_list hpositional hlength
    | template =>
      exact (Template.read_eq format _).trans (Format.readRecord_list hpositional hlength)
    | function =>
      exact (Function.read_eq format _).trans (Format.readRecord_list hpositional hlength)
    | module => exact Format.readRecord_list hpositional hlength
    | op | literal => rfl

end Part

section Fields

variable {name : String} {d d' : Document} {front back : List (String × Document)}

theorem lookup_insert_of_ne {k : String} (h : k ≠ name) :
    (front ++ (name, d) :: back).lookup k = (front ++ back).lookup k := by
  rw [List.lookup_append, List.lookup_cons, beq_false_of_ne h, List.lookup_append]

theorem lookup_insert_self (h : (front ++ back).lookup name = none) :
    (front ++ (name, d) :: back).lookup name = some d := by
  rw [List.lookup_append, Option.or_eq_none_iff] at h
  rw [List.lookup_append, h.1, List.lookup_cons_self, Option.none_or]

theorem lookup_replace_of_ne {k : String} (h : k ≠ name) :
    (front ++ (name, d') :: back).lookup k = (front ++ (name, d) :: back).lookup k :=
  (lookup_insert_of_ne h).trans (lookup_insert_of_ne h).symm

/-- Of several fields with one name the first one is read. -/
theorem lookup_replace_self (name : String) (d d' : Document)
    (front back : List (String × Document)) :
    (front ++ (name, d') :: back).lookup name = (front ++ (name, d) :: back).lookup name ∨
      (front ++ (name, d') :: back).lookup name = some d' ∧
        (front ++ (name, d) :: back).lookup name = some d := by
  rw [List.lookup_append, List.lookup_append, List.lookup_cons_self, List.lookup_cons_self]
  cases front.lookup name with
  | none => exact .inr ⟨rfl, rfl⟩
  | some d => exact .inl rfl

theorem repeats_insert (names : List String) (h : (front ++ back).lookup name = none) :
    repeats names (front ++ (name, d) :: back) = repeats names (front ++ back) := by
  have hnone : ((front ++ back).map Prod.fst).count name = 0 := by
    refine List.count_eq_zero.mpr fun hmem => ?_
    obtain ⟨field, hfield, rfl⟩ := List.mem_map.mp hmem
    exact absurd rfl (bne_iff_ne.mp (List.lookup_eq_none_iff.mp h field hfield))
  -- The new field is the only one of its name, and those of other names are as many as before.
  have hcount (k : String) : ((front ++ (name, d) :: back).map Prod.fst).count k =
      ((front ++ back).map Prod.fst).count k + if name == k then 1 else 0 := by
    simp only [List.map_append, List.map_cons, List.count_append, List.count_cons, Nat.add_assoc]
  simp only [repeats, countP_eq_count, hcount]
  congr 1
  funext k
  by_cases hk : name = k
  · subst hk
    rw [hnone]
    simp
  · simp [hk]

theorem repeats_replace (names : List String) :
    repeats names (front ++ (name, d') :: back) = repeats names (front ++ (name, d) :: back) :=
  repeats_congr names (by simp)

variable {α : Type} {read : Document → Except ShapeError α} {default : α}

theorem optional_insert (h : (front ++ back).lookup name = none) (hd : read d = .ok default) :
    optional read default ((front ++ (name, d) :: back).lookup name) =
      optional read default ((front ++ back).lookup name) := by
  rw [lookup_insert_self h, h, optional_some, hd, Document.optional]

theorem optional_replace (h : read d' = read d) :
    optional read default ((front ++ (name, d') :: back).lookup name) =
      optional read default ((front ++ (name, d) :: back).lookup name) := by
  rcases lookup_replace_self name d d' front back with heq | ⟨hd', hd⟩
  · rw [heq]
  · rw [hd', hd, optional_some, optional_some, h]

theorem required_replace (h : read d' = read d) :
    required read ((front ++ (name, d') :: back).lookup name) =
      required read ((front ++ (name, d) :: back).lookup name) := by
  rcases lookup_replace_self name d d' front back with heq | ⟨hd', hd⟩
  · rw [heq]
  · rw [hd', hd, required_some, required_some, h]

theorem readList_replace (h : read d' = read d) (before after : List Document) :
    readList read (list (before ++ d' :: after)) = readList read (list (before ++ d :: after)) := by
  show (before ++ d' :: after).mapM read = (before ++ d :: after).mapM read
  rw [List.mapM_append, List.mapM_append, List.mapM_cons, List.mapM_cons, h]

end Fields

namespace Part.Completes

variable {format : Format} {p q : Part} {name : String} {d d' e e' : Document}
  {front back : List (String × Document)}

/-- An absent field reads as its default does. -/
theorem readFields_absent (hdefault : (name, d) ∈ p.defaults format)
    (habsent : (front ++ back).lookup name = none) :
    p.readFields format (front ++ (name, d) :: back) = p.readFields format (front ++ back) := by
  have hother (k : String) (hk : k ≠ name) :
      (front ++ (name, d) :: back).lookup k = (front ++ back).lookup k := lookup_insert_of_ne hk
  cases p with
  | op | literal | module => cases hdefault
  | signature =>
    have hdefaults : defaults format signature = [("positional", ofU32 0), ("keywords", list []),
      ("variadic_positional", .bool false), ("variadic_keyword", .bool false)] := rfl
    simp only [hdefaults, List.mem_cons, List.not_mem_nil, or_false, Prod.mk.injEq] at hdefault
    show Signature.readFields _ = Signature.readFields _
    rw [Signature.readFields, Signature.readFields]
    rcases hdefault with ⟨rfl, rfl⟩ | ⟨rfl, rfl⟩ | ⟨rfl, rfl⟩ | ⟨rfl, rfl⟩
    · simp (disch := decide) only [hother, optional_insert habsent (readU32_ofU32 0)]
    · simp (disch := decide) only [hother, optional_insert habsent (readList_nil readText)]
    · simp (disch := decide) only [hother, optional_insert habsent (readBool_bool false)]
    · simp (disch := decide) only [hother, optional_insert habsent (readBool_bool false)]
  | template =>
    have hdefaults : defaults format template =
      [("sealed", .bool false), ("methods", list [])] := rfl
    simp only [hdefaults, List.mem_cons, List.not_mem_nil, or_false, Prod.mk.injEq] at hdefault
    show Template.readFields _ _ = Template.readFields _ _
    rw [Template.readFields, Template.readFields]
    rcases hdefault with ⟨rfl, rfl⟩ | ⟨rfl, rfl⟩
    · simp (disch := decide) only [hother, optional_insert habsent (readBool_bool false)]
    · simp (disch := decide) only [hother, optional_insert habsent (readList_nil _)]
  | function =>
    have hdefaults : defaults format function = [("name", null), ("signature", Signature.write {}),
      ("captures", list []), ("ranges", list []), ("try_regions", list [])] := rfl
    simp only [hdefaults, List.mem_cons, List.not_mem_nil, or_false, Prod.mk.injEq] at hdefault
    show Function.readFields _ _ _ = Function.readFields _ _ _
    rw [Function.readFields, Function.readFields]
    rcases hdefault with ⟨rfl, rfl⟩ | ⟨rfl, rfl⟩ | ⟨rfl, rfl⟩ | ⟨rfl, rfl⟩ | ⟨rfl, rfl⟩
    · have hnull : readName null = .ok none := readName_ofOption none
      simp (disch := decide) only [hother, optional_insert habsent hnull]
    · simp (disch := decide) only [hother,
        optional_insert habsent (Signature.read_write format {})]
    · simp (disch := decide) only [hother, optional_insert habsent (readList_nil Capture.read)]
    · simp (disch := decide) only [hother, optional_insert habsent (readList_nil _)]
    · simp (disch := decide) only [hother, optional_insert habsent (readList_nil _)]

/-- An operation or a literal with an operand has no further field. -/
theorem readFields_variant (hp : p = .op ∨ p = .literal)
    (h : p.readFields format [(name, e')] = p.readFields format [(name, e)]) :
    p.readFields format (front ++ (name, e') :: back) =
      p.readFields format (front ++ (name, e) :: back) := by
  rcases front with _ | ⟨first, _ | ⟨second, front⟩⟩
  · rcases back with _ | ⟨second, back⟩
    · exact h
    · rcases hp with rfl | rfl <;> rfl
  · rcases hp with rfl | rfl <;> rfl
  · rcases hp with rfl | rfl <;> rfl

theorem readFields_inside (holds : p.Holds name q) (h : q.read format e' = q.read format e) :
    p.readFields format (front ++ (name, e') :: back) =
      p.readFields format (front ++ (name, e) :: back) := by
  have hother (k : String) (hk : k ≠ name) : (front ++ (name, e') :: back).lookup k =
      (front ++ (name, e) :: back).lookup k := lookup_replace_of_ne hk
  cases holds with
  | constant =>
    refine readFields_variant (.inl rfl) ?_
    have h : Literal.read format e' = Literal.read format e := h
    show Op.read _ _ = Op.read _ _
    simp (disch := decide) only [Op.read_record, if_neg, if_pos, h]
  | closure =>
    refine readFields_variant (.inl rfl) ?_
    have h : Function.read format e' = Function.read format e := h
    show Op.read _ _ = Op.read _ _
    simp (disch := decide) only [Op.read_record, if_neg, if_pos, h]
  | function =>
    refine readFields_variant (.inr rfl) ?_
    have h : Function.read format e' = Function.read format e := h
    show Literal.read _ _ = Literal.read _ _
    simp (disch := decide) only [Literal.read_record, if_neg, if_pos, h]
  | template =>
    refine readFields_variant (.inr rfl) ?_
    have h : Template.read format e' = Template.read format e := h
    show Literal.read _ _ = Literal.read _ _
    simp (disch := decide) only [Literal.read_record, if_neg, if_pos, h]
  | signature =>
    have h : Signature.read format e' = Signature.read format e := h
    show Function.readFields _ _ _ = Function.readFields _ _ _
    rw [Function.readFields, Function.readFields]
    simp (disch := decide) only [hother, optional_replace h]
  | body =>
    have h : Function.read format e' = Function.read format e := h
    show Module.readFields _ _ = Module.readFields _ _
    rw [Module.readFields, Module.readFields]
    simp (disch := decide) only [hother, required_replace h]

theorem readFields_item {before after : List Document} (lists : p.Lists name q)
    (h : q.read format e' = q.read format e) :
    p.readFields format (front ++ (name, list (before ++ e' :: after)) :: back) =
      p.readFields format (front ++ (name, list (before ++ e :: after)) :: back) := by
  have hother (k : String) (hk : k ≠ name) :
      (front ++ (name, list (before ++ e' :: after)) :: back).lookup k =
        (front ++ (name, list (before ++ e :: after)) :: back).lookup k := lookup_replace_of_ne hk
  cases lists with
  | methods =>
    have h : Function.read format e' = Function.read format e := h
    show Template.readFields _ _ = Template.readFields _ _
    rw [Template.readFields, Template.readFields]
    simp (disch := decide) only [hother, optional_replace (readList_replace h before after)]
  | ops =>
    have h : Op.read format e' = Op.read format e := h
    show Function.readFields _ _ _ = Function.readFields _ _ _
    rw [Function.readFields, Function.readFields]
    simp (disch := decide) only [hother, required_replace (readList_replace h before after)]

theorem read_eq (h : p.Completes format d d') : p.read format d' = p.read format d := by
  induction h with
  | refl => rfl
  | trans _ _ ih ih' => exact ih'.trans ih
  | absent hdefault habsent hd hd' =>
    rw [hd.read_eq, hd'.read_eq, repeats_insert _ habsent, readFields_absent hdefault habsent]
  | inside holds _ hd hd' ih =>
    rw [hd.read_eq, hd'.read_eq, repeats_replace, readFields_inside holds ih]
  | item lists _ hd hd' ih =>
    rw [hd.read_eq, hd'.read_eq, repeats_replace, readFields_item lists ih]

end Part.Completes

/--
**Written bitcode is read back.** In every format a module is read back as it was written and links
as before. What a builder keeps for itself is not written. Whatever was read as a module is written
so that it is read as this module again, and fields that are absent anywhere in a document mean the
same as their written defaults.
-/
theorem Module.read_completed (format : Format) :
    (∀ m : Module, Module.read format (m.write format) = .ok m ∧
      (Module.read format (m.write format)).map Module.link = .ok m.link) ∧
    (∀ (name : String) (b : Builder) (nextLabel : Label) (range : SourceRange),
      Module.read format (Module.write format ⟨name, { b with nextLabel, range }.function⟩) =
        .ok ⟨name, b.function⟩) ∧
    (∀ (d : Document) (m : Module), Module.read format d = .ok m →
      Module.read format (m.write format) = Module.read format d) ∧
    ∀ d d' : Document, Part.module.Completes format d d' →
      Module.read format d' = Module.read format d := by
  refine ⟨fun m => ⟨m.read_write format, ?_⟩,
    fun name b _ _ => Module.read_write format ⟨name, b.function⟩, fun d m h => ?_,
    fun d d' h => h.read_eq⟩
  · rw [m.read_write]
    rfl
  · rw [m.read_write, h]

/-- A module that loads a half and the template with the given fields. -/
def templateDocument (body : List (String × Document)) (template : List Document) : Document :=
  record [("name", text "m"), ("body", record (body ++ [("ops", list [
    record [("LoadConst", record [("Float", real ⟨0x3fe0000000000000⟩)])],
    record [("LoadConst", record [("Template", list template)])]])]))]

/--
In the numeric format the captures of the body may be left out together with the second field of a
template that is given by the order of its fields.
-/
theorem Module.read_templateDocument :
    Part.module.Completes .numeric (templateDocument [] [text "t"])
        (templateDocument [("captures", list [])] [text "t", Document.bool false]) ∧
      Module.read .numeric
          (templateDocument [("captures", list [])] [text "t", Document.bool false]) =
        .ok ⟨"m", .mk none {} [] [.constant (.float ⟨0x3fe0000000000000⟩),
          .constant (.template ⟨"t", false, []⟩)] [] []⟩ := by
  have htemplate : Part.template.Completes .numeric (list [text "t"])
      (list [text "t", Document.bool false]) :=
    @Part.Completes.absent _ _ _ _ _ _ [("name", text "t")] [] (List.Mem.head _) rfl
      (.ordered [text "t"] rfl (by decide))
      (.ordered [text "t", Document.bool false] rfl (by decide))
  have hliteral := @Part.Completes.inside _ _ _ _ _ _ _ _ [] [] .template htemplate
    (.named [("Template", _)]) (.named [("Template", _)])
  have hop := @Part.Completes.inside _ _ _ _ _ _ _ _ [] [] .constant hliteral
    (.named [("LoadConst", _)]) (.named [("LoadConst", _)])
  have hops := @Part.Completes.item _ _ _ _ _ _ _ _
    [record [("LoadConst", record [("Float", real ⟨0x3fe0000000000000⟩)])]] [] [] [] .ops hop
    (.named [("ops", _)]) (.named [("ops", _)])
  have hcaptures := @Part.Completes.absent .numeric .function _ _ (list []) "captures" []
    [("ops", list [record [("LoadConst", record [("Float", real ⟨0x3fe0000000000000⟩)])],
      record [("LoadConst", record [("Template", list [text "t", Document.bool false])])]])]
    (List.Mem.tail _ (List.Mem.tail _ (List.Mem.head _))) rfl (.named _) (.named _)
  have hcompletes : Part.module.Completes .numeric (templateDocument [] [text "t"])
      (templateDocument [("captures", list [])] [text "t", Document.bool false]) :=
    @Part.Completes.inside _ _ _ _ _ _ _ _ [("name", text "m")] [] .body (hops.trans hcaptures)
      (.named _) (.named _)
  refine ⟨hcompletes, ((Module.read_completed .numeric).2.2.2 _ _ hcompletes).trans ?_⟩
  rfl

end Bitcode

end FiberMachine
