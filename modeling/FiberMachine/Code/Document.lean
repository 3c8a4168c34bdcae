import FiberMachine.Bitcode.Document
import FiberMachine.LinkError

/-!
# Linked code as documents

The written form of signatures with their slots, code objects, constants and linked modules. What
can be assembled by hand is also read: code objects and constants.
-/

namespace FiberMachine

open Document

/-- The signature with the slots of its parameters. -/
def Signature.writeLayout (s : Signature) : Document :=
  record [
    ("positional", ofU32 s.positional),
    ("keywords", list (s.keywords.map text)),
    ("variadic_positional", bool s.variadicPositional),
    ("variadic_keyword", bool s.variadicKeyword),
    ("variadic_positional_slot", ofOption nat s.variadicPositionalSlot),
    ("first_keyword_slot", nat s.firstKeywordSlot),
    ("variadic_keyword_slot", ofOption nat s.variadicKeywordSlot),
    ("parameter_slots", nat s.parameterSlots)]

/-- The four numbers of a source range. -/
def SourceRange.writeNumbers (r : SourceRange) : Document :=
  list [ofU32 r.start.line, ofU32 r.start.column, ofU32 r.stop.line, ofU32 r.stop.column]

/-- Opcode, operand and handler, with -1 for no handler, and the source range when it is known. -/
def Instruction.write (i : Instruction) : Document :=
  let handler := match i.handler with
    | some h => ofU32 h
    | none => Document.int (-1)
  let base := [text i.opcode.name, ofU32 i.operand, handler]
  list (if i.range = {} then base else base ++ [i.range.writeNumbers])

def Code.write (c : Code) : Document :=
  record [
    ("name", ofOption text c.name),
    ("signature", c.signature.writeLayout),
    ("keyword_slots", list (c.signature.keywords.map fun k =>
      ofOption nat (c.signature.keywordSlot? k))),
    ("captures", list (c.captures.map Capture.write)),
    ("instructions", list (c.instructions.toList.map Instruction.write))]

def Constant.write : Constant → Document
  | .bool b => record [("bool", Document.bool b)]
  | .int i => record [("int", Document.int i.toInt)]
  | .float d => record [("float", ofBits d)]
  | .string s => record [("string", text s)]
  | .code c => record [("code", c.write)]
  | .template t => record [("template", record [
      ("name", text t.name),
      ("sealed", Document.bool t.sealed),
      ("methods", list (t.methods.map Code.write))])]

def LinkedModule.write (m : LinkedModule) : Document :=
  record [("name", text m.name), ("pool", list (m.pool.toList.map Constant.write))]

/-! ## Reading -/

/-- Why a document is not a constant. -/
inductive AssemblyError where
  /-- A part that code shares with bitcode does not have its form. -/
  | shape (error : ShapeError)
  /-- There is no constant of that form. -/
  | constant
  /-- The code has no list of instructions. -/
  | instructions
  /-- There is no opcode of that name. -/
  | opcode
deriving DecidableEq, Inhabited

/-- Reads a part that code shares with bitcode. -/
def Assembled {α : Type} : Except ShapeError α → Except AssemblyError α
  | .ok a => .ok a
  | .error e => .error (.shape e)

/-- A handler, with -1 for none. -/
def Instruction.readHandler : Document → Except ShapeError (Option UInt32)
  | .int (-1) => .ok none
  | d => some <$> d.readU32

/-- A source range as four numbers. -/
def SourceRange.readNumbers : Document → Except ShapeError SourceRange
  | list [a, b, c, d] => do
    return { start := ⟨← a.readU32, ← b.readU32⟩, stop := ⟨← c.readU32, ← d.readU32⟩ }
  | _ => .error .shape

def Instruction.read : Document → Except AssemblyError Instruction
  | list (text name :: rest) => do
    let some opcode := Opcode.ofName? name | throw .opcode
    Assembled do
      return {
        opcode
        operand := ← optional readU32 0 rest[0]?
        handler := ← optional readHandler none rest[1]?
        range := ← optional SourceRange.readNumbers {} rest[2]? }
  | _ => .error .opcode

def Code.read (d : Document) : Except AssemblyError Code := do
  let some (list instructions) := d.field? "instructions" | throw .instructions
  let name ← Assembled (optional readName none (d.field? "name"))
  let signature ← Assembled (optional (Signature.read .hexadecimal) {} (d.field? "signature"))
  let captures ← Assembled (optional (readList Capture.read) [] (d.field? "captures"))
  let instructions ← instructions.mapM Instruction.read
  return { name, signature, captures, instructions := instructions.toArray }

def TemplateCode.read (d : Document) : Except AssemblyError TemplateCode := do
  let name ← Assembled (required readText (d.field? "name"))
  let sealed ← Assembled (optional readBool false (d.field? "sealed"))
  match (d.field? "methods").getD (list []) with
  | list methods => return { name, sealed, methods := ← methods.mapM Code.read }
  | _ => throw .constant

def Constant.read (d : Document) : Except AssemblyError Constant := do
  if let some b := d.field? "bool" then return .bool (← Assembled b.readBool)
  if let some i := d.field? "int" then return .int (← Assembled (Shaped i.i64?))
  if let some f := d.field? "float" then return .float (← Assembled f.readBits)
  if let some s := d.field? "string" then return .string (← Assembled s.readText)
  if let some c := d.field? "code" then return .code (← Code.read c)
  if let some t := d.field? "template" then return .template (← TemplateCode.read t)
  throw .constant

/-- The constants of a pool. -/
def Constant.readPool : Document → Except AssemblyError (Array Constant)
  | list items => do return (← items.mapM Constant.read).toArray
  | _ => .error .constant

/-- The kind of an error and its text. -/
def LinkError.write (e : LinkError) : Document :=
  record [("error", text e.kind), ("message", text e.message)]

end FiberMachine
