import FiberMachine.Artifact.Bytes
import FiberMachine.Code.Basic

/-!
# Encoding modules

An artifact is an eight-byte version followed by the constant pool: a count and one tagged entry
per constant. A code object is its name, its positional count, its keywords ended by an absent
string, its flags, its captures and its instructions. A template is its name, its sealed byte and
its methods, each with its length in bytes.
-/

namespace FiberMachine.Artifact

/-- The tags of the kinds of constants. -/
def boolTag : UInt8 := 0
def intTag : UInt8 := 1
def floatTag : UInt8 := 2
def stringTag : UInt8 := 3
def codeTag : UInt8 := 4
def templateTag : UInt8 := 5

/-- The flag of a signature with variadic positional arguments. -/
def variadicPositionalFlag : UInt8 := 1

/-- The flag of a signature with variadic keyword arguments. -/
def variadicKeywordFlag : UInt8 := 2

namespace Written

def version (v : Version) : Bytes :=
  wordBytes 2 v.major.toNat ++ wordBytes 2 v.minor.toNat ++ wordBytes 4 v.patch.toNat

def name : Option String → Written
  | some s => string s
  | none => .ok absent

def flags (s : Signature) : UInt8 :=
  (if s.variadicPositional then variadicPositionalFlag else 0) |||
    (if s.variadicKeyword then variadicKeywordFlag else 0)

/-- A local slot as itself, an outer capture `i` as the signed word `-(i + 1)`. -/
def capture : Capture → Written
  | .slot i => length i.toNat
  | .outer i =>
    if i.toNat < signBit then .ok (wordBytes 4 (unsigned32 (-(i.toNat : Int) - 1)))
    else .error .tooLarge

def handler : Option UInt32 → Written
  | some h => length h.toNat
  | none => .ok absent

def operand (i : Instruction) : Bytes :=
  if i.opcode.hasOperand then wordBytes 4 i.operand.toNat else []

def range (r : SourceRange) : Bytes :=
  wordBytes 4 r.start.line.toNat ++ wordBytes 4 r.start.column.toNat ++
    wordBytes 4 r.stop.line.toNat ++ wordBytes 4 r.stop.column.toNat

def instruction (i : Instruction) : Written := do
  return i.opcode.ordinal :: (operand i ++ (← handler i.handler) ++ range i.range)

def code (c : Code) : Written := do
  let name ← name c.name
  let keywords ← all string c.signature.keywords
  let captures ← do pure ((← count c.captures.length) ++ (← all capture c.captures))
  let instructions ←
    do pure ((← count c.instructions.size) ++ (← all instruction c.instructions.toList))
  return name ++ wordBytes 4 c.signature.positional.toNat ++ keywords ++ absent ++
    flags c.signature :: (captures ++ instructions)

def method (c : Code) : Written := do
  let bytes ← code c
  return (← length bytes.length) ++ bytes

def template (t : TemplateCode) : Written := do
  let name ← string t.name
  let methods ← do pure ((← count t.methods.length) ++ (← all method t.methods))
  return name ++ t.sealed.toUInt8 :: methods

def constant : Constant → Written
  | .bool b => .ok [boolTag, b.toUInt8]
  | .int i => .ok (intTag :: wordBytes 8 i.toUInt64.toNat)
  | .float d => .ok (floatTag :: wordBytes 8 d.bits.toNat)
  | .string s => do return stringTag :: (← string s)
  | .code c => do return codeTag :: (← code c)
  | .template t => do return templateTag :: (← template t)

end Written

/-- The artifact of a module. Its name is not part of the artifact. -/
def encode (m : LinkedModule) : Written := do
  return Written.version .current ++ (← Written.count m.pool.size) ++
    (← Written.all Written.constant m.pool.toList)

end FiberMachine.Artifact
