import FiberMachine.Artifact.Encode
import FiberMachine.Code.Validate

/-!
# Decoding modules

Reads what `encode` writes. Every operand and handler is validated, so a decoded module refers to
no constant, capture or instruction that does not exist.
-/

namespace FiberMachine.Artifact

namespace Reader

def version : Reader Version := do
  let major ← u16
  let minor ← u16
  let patch ← u32
  return { major, minor, patch }

/--
The strings up to an absent one. Each takes at least a byte, so the number of bytes that are left
bounds their number.
-/
def keywords : Nat → Reader (List String)
  | 0 => throw .unexpectedEof
  | bound + 1 => do
    match ← string? with
    | none => return []
    | some keyword => return keyword :: (← keywords bound)

def signature : Reader Signature := do
  let positional ← u32
  let keywords ← keywords (← get).length
  let flags ← u8
  return {
    positional, keywords
    variadicPositional := flags &&& variadicPositionalFlag != 0
    variadicKeyword := flags &&& variadicKeywordFlag != 0 }

def capture : Reader Capture := do
  let i ← i32
  return if i < 0 then .outer (-i - 1).toNat.toUInt32 else .slot i.toNat.toUInt32

def handler : Reader (Option UInt32) := do
  let h ← i32
  if h = -1 then return none
  if h < 0 then throw .invalidLength
  return some h.toNat.toUInt32

def opcode : Reader Opcode := do
  let ordinal ← u8
  match Opcode.ofOrdinal? ordinal with
  | some opcode => return opcode
  | none => throw (.invalidOpcode ordinal)

def position : Reader SourcePosition := do
  let line ← u32
  let column ← u32
  return { line, column }

def range : Reader SourceRange := do
  let start ← position
  let stop ← position
  return { start, stop }

def instruction : Reader Instruction := do
  let opcode ← opcode
  let operand ← if opcode.hasOperand then u32 else pure 0
  let handler ← handler
  let range ← range
  return { opcode, operand, handler, range }

def code : Reader Code := do
  let name ← string?
  let signature ← signature
  let captures ← repeated capture (← u32).toNat
  let instructions ← repeated instruction (← u32).toNat
  return { name, signature, captures, instructions := instructions.toArray }

/-- A code object that fills the length in front of it. -/
def method : Reader Code := do
  let bytes ← take (← length)
  whole code bytes

def template : Reader TemplateCode := do
  let name ← string
  let sealed := (← u8) != 0
  let methods ← repeated method (← u32).toNat
  return { name, sealed, methods }

def constant : Reader Constant := do
  let tag ← u8
  if tag = boolTag then return .bool ((← u8) != 0)
  else if tag = intTag then return .int (← u64).toInt64
  else if tag = floatTag then return .float ⟨← u64⟩
  else if tag = stringTag then return .string (← string)
  else if tag = codeTag then return .code (← code)
  else if tag = templateTag then return .template (← template)
  else throw (.invalidTag tag)

def pool : Reader (List Constant) := do
  let version ← version
  if !version.isCompatible then throw (.versionMismatch version)
  repeated constant (← u32).toNat

end Reader

/-- The module that an artifact holds, under the given name. -/
def decode (name : String) (bytes : Bytes) : Except LinkError LinkedModule := do
  let pool ← Reader.whole Reader.pool bytes
  LinkedModule.ofPool name pool.toArray

end FiberMachine.Artifact
