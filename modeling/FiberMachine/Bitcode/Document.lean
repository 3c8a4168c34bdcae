import FiberMachine.Bitcode.Basic
import FiberMachine.Document.Format

/-!
# Bitcode as documents

The written form of bitcode. An operation without operand is its name; one with an operand is a
record of one field. Fields of functions, signatures and templates that are absent have their empty
value, except the operations. The fields of a record are read in the order of their names, which
decides the first of several errors.
-/

namespace FiberMachine

open Document

/-! ## Signatures, captures and source ranges -/

namespace Signature

/-- The fields in their order. -/
def fieldNames : List String :=
  ["positional", "keywords", "variadic_positional", "variadic_keyword"]

def readFields (fields : List (String × Document)) : Except ShapeError Signature := do
  return {
    positional := ← optional readU32 0 (fields.lookup "positional")
    keywords := ← optional (readList readText) [] (fields.lookup "keywords")
    variadicPositional := ← optional readBool false (fields.lookup "variadic_positional")
    variadicKeyword := ← optional readBool false (fields.lookup "variadic_keyword") }

def read (format : Format) : Document → Except ShapeError Signature :=
  format.readRecord fieldNames readFields

def write (s : Signature) : Document :=
  record [
    ("positional", ofU32 s.positional),
    ("keywords", list (s.keywords.map text)),
    ("variadic_positional", bool s.variadicPositional),
    ("variadic_keyword", bool s.variadicKeyword)]

end Signature

namespace Capture

def read : Document → Except ShapeError Capture
  | record [("Local", d)] => slot <$> d.readU32
  | record [("Captured", d)] => outer <$> d.readU32
  | _ => .error .shape

def write : Capture → Document
  | slot i => record [("Local", ofU32 i)]
  | outer i => record [("Captured", ofU32 i)]

end Capture

namespace SourcePosition

def read (format : Format) : Document → Except ShapeError SourcePosition :=
  format.readRecord ["line", "column"] fun fields => do
    return {
      line := ← required readU32 (fields.lookup "line")
      column := ← required readU32 (fields.lookup "column") }

def write (p : SourcePosition) : Document :=
  record [("line", ofU32 p.line), ("column", ofU32 p.column)]

end SourcePosition

namespace SourceRange

def read (format : Format) : Document → Except ShapeError SourceRange :=
  format.readRecord ["start", "end"] fun fields => do
    return {
      start := ← required (SourcePosition.read format) (fields.lookup "start")
      stop := ← required (SourcePosition.read format) (fields.lookup "end") }

def write (r : SourceRange) : Document :=
  record [("start", r.start.write), ("end", r.stop.write)]

end SourceRange

namespace Bitcode

namespace TryRegion

def read (format : Format) : Document → Except ShapeError TryRegion :=
  format.readRecord ["start", "end", "catch"] fun fields => do
    return {
      start := ← required readU32 (fields.lookup "start")
      stop := ← required readU32 (fields.lookup "end")
      handler := ← required readU32 (fields.lookup "catch") }

def write (r : TryRegion) : Document :=
  record [("start", ofU32 r.start), ("end", ofU32 r.stop), ("catch", ofU32 r.handler)]

end TryRegion

/-! ## Reading operations and functions -/

/-- An operation whose operand refers to no nested function. -/
def readSimple (opcode : Opcode) (operand : Document) : Except ShapeError Op :=
  match kind : opcode.operandKind with
  | .none => match operand with
    | .null => .ok (.plain opcode kind)
    | _ => .error .shape
  | .slot => .slot opcode kind <$> operand.readU32
  | .capture => .capture opcode kind <$> operand.readU32
  | .name => .name opcode kind <$> operand.readText
  | .target => .jump opcode kind <$> operand.readU32
  | .constant | .code => .error .shape

/-- An operation given by its name alone. -/
def readPlain (name : String) : Except ShapeError Op := do
  let opcode ← Shaped (Opcode.ofName? name)
  if kind : opcode.operandKind = .none then return .plain opcode kind
  throw .shape

/-- The fields in their order. -/
def Template.fieldNames : List String := ["name", "sealed", "methods"]

def Template.readFields (readMethod : Document → Except ShapeError Function)
    (fields : List (String × Document)) : Except ShapeError Template := do
  let methods ← optional (readList readMethod) [] (fields.lookup "methods")
  let name ← required readText (fields.lookup "name")
  let sealed ← optional readBool false (fields.lookup "sealed")
  return ⟨name, sealed, methods⟩

/-- The fields in their order. -/
def Function.fieldNames : List String :=
  ["name", "signature", "captures", "ops", "ranges", "try_regions"]

section

variable (format : Format)

def Function.readFields (readOp : Document → Except ShapeError Op)
    (fields : List (String × Document)) : Except ShapeError Function := do
  let captures ← optional (readList Capture.read) [] (fields.lookup "captures")
  let name ← optional readName none (fields.lookup "name")
  let ops ← required (readList readOp) (fields.lookup "ops")
  let ranges ← optional (readList (SourceRange.read format)) [] (fields.lookup "ranges")
  let signature ← optional (Signature.read format) {} (fields.lookup "signature")
  let regions ← optional (readList (TryRegion.read format)) [] (fields.lookup "try_regions")
  return ⟨name, signature, captures, ops, ranges, regions⟩

mutual

/-- Reads an operation. Every level of nesting costs one unit of `depth`. -/
def readOp : Nat → Document → Except ShapeError Op
  | _, text name => readPlain name
  | 0, _ => .error .shape
  | depth + 1, record [(name, operand)] =>
    if name = "Label" then .label <$> operand.readU32
    else if name = "LoadConst" then .constant <$> readLiteral depth operand
    else if name = "MakeFunction" then .closure <$> readFunction depth operand
    else do readSimple (← Shaped (Opcode.ofName? name)) operand
  | _, _ => .error .shape

def readLiteral : Nat → Document → Except ShapeError Literal
  | 0, _ => .error .shape
  | depth + 1, record [(kind, d)] =>
    if kind = "Bool" then .bool <$> d.readBool
    else if kind = "Int" then .int <$> Shaped d.i64?
    else if kind = "Float" then .float <$> format.readDouble d
    else if kind = "String" then .string <$> d.readText
    else if kind = "Function" then .function <$> readFunction depth d
    else if kind = "Template" then .template <$> readTemplate depth d
    else .error .shape
  | _, _ => .error .shape

def readTemplate : Nat → Document → Except ShapeError Template
  | 0, _ => .error .shape
  | depth + 1, d =>
    format.readRecord Template.fieldNames (Template.readFields (readFunction depth)) d

def readFunction : Nat → Document → Except ShapeError Function
  | 0, _ => .error .shape
  | depth + 1, d =>
    format.readRecord Function.fieldNames (Function.readFields format (readOp depth)) d

end

/-- Every level that is read is a level of the document, so its height suffices as depth. -/
def Function.read (d : Document) : Except ShapeError Function :=
  readFunction format (d.height + 1) d

def Op.read (d : Document) : Except ShapeError Op := readOp format (d.height + 1) d

/-! ## Writing operations and functions -/

mutual

def Op.write : Op → Document
  | .label l => record [("Label", ofU32 l)]
  | .plain opcode _ => text opcode.name
  | .slot opcode _ i => record [(opcode.name, ofU32 i)]
  | .capture opcode _ i => record [(opcode.name, ofU32 i)]
  | .name opcode _ s => record [(opcode.name, text s)]
  | .jump opcode _ l => record [(opcode.name, ofU32 l)]
  | .constant literal => record [("LoadConst", literal.write)]
  | .closure function => record [("MakeFunction", function.write)]

def Op.writeAll : List Op → List Document
  | [] => []
  | op :: rest => op.write :: Op.writeAll rest

def Literal.write : Literal → Document
  | .bool b => record [("Bool", Document.bool b)]
  | .int i => record [("Int", Document.int i.toInt)]
  | .float x => record [("Float", format.ofDouble x)]
  | .string s => record [("String", text s)]
  | .function f => record [("Function", f.write)]
  | .template t => record [("Template", t.write)]

def Template.write : Template → Document
  | ⟨name, sealed, methods⟩ =>
    record [
      ("name", text name),
      ("sealed", Document.bool sealed),
      ("methods", list (Function.writeAll methods))]

def Function.write : Function → Document
  | ⟨name, signature, captures, ops, ranges, regions⟩ =>
    record [
      ("name", ofOption text name),
      ("signature", signature.write),
      ("captures", list (captures.map Capture.write)),
      ("ops", list (Op.writeAll ops)),
      ("ranges", list (ranges.map SourceRange.write)),
      ("try_regions", list (regions.map TryRegion.write))]

def Function.writeAll : List Function → List Document
  | [] => []
  | f :: rest => f.write :: Function.writeAll rest

end

namespace Module

/-- The fields in their order. -/
def fieldNames : List String := ["name", "body"]

def readFields (fields : List (String × Document)) : Except ShapeError Module := do
  let body ← required (Function.read format) (fields.lookup "body")
  return { name := ← required readText (fields.lookup "name"), body }

def read : Document → Except ShapeError Module := format.readRecord fieldNames (readFields format)

def write (m : Module) : Document :=
  record [("name", text m.name), ("body", m.body.write format)]

end Module

end

end Bitcode

end FiberMachine
