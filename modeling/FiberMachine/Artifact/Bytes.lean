import FiberMachine.LinkError

/-!
# Reading and writing bytes

Little-endian words and length-prefixed strings. A reader takes a value off the front of a list of
bytes; a writer yields the bytes of a value or fails when a number does not fit its width.
-/

namespace FiberMachine.Artifact

abbrev Bytes := List UInt8

/-! ## Words -/

/-- The low `width` bytes of `n`, the lowest first. -/
def wordBytes : Nat → Nat → Bytes
  | 0, _ => []
  | width + 1, n => n.toUInt8 :: wordBytes width (n / 256)

/-- The number whose bytes are given, the lowest first. -/
def wordOf : Bytes → Nat
  | [] => 0
  | b :: rest => b.toNat + 256 * wordOf rest

/-- The value of the sign of a 32-bit word. -/
def signBit : Nat := 0x80000000

/-- A 32-bit word read as a two's complement number. -/
def signed32 (n : Nat) : Int := if n < signBit then n else (n : Int) - UInt32.size

/-- The 32-bit word of a number in two's complement. -/
def unsigned32 (i : Int) : Nat := (i % UInt32.size).toNat

/-! ## Readers -/

/-- Takes a value off the front of a list of bytes. -/
abbrev Reader := StateT Bytes (Except LinkError)

namespace Reader

/-- The first `count` bytes and the rest, when there are as many. -/
def split : Nat → Bytes → Option (Bytes × Bytes)
  | 0, bytes => some ([], bytes)
  | _ + 1, [] => none
  | count + 1, b :: bytes => (split count bytes).map fun (front, rest) => (b :: front, rest)

/-- The next `count` bytes. -/
def take (count : Nat) : Reader Bytes := fun bytes =>
  match split count bytes with
  | some result => .ok result
  | none => .error .unexpectedEof

def word (width : Nat) : Reader Nat := return wordOf (← take width)

def u8 : Reader UInt8 := return (← word 1).toUInt8

def u16 : Reader UInt16 := return (← word 2).toUInt16

def u32 : Reader UInt32 := return (← word 4).toUInt32

def u64 : Reader UInt64 := return (← word 8).toUInt64

def i32 : Reader Int := return signed32 (← word 4)

/-- A length that is not negative. -/
def length : Reader Nat := do
  let n ← i32
  if n < 0 then throw .invalidLength
  return n.toNat

/-- The text of `count` bytes of UTF-8. -/
def text (count : Nat) : Reader String := do
  match String.fromUTF8? (← take count).toByteArray with
  | some s => return s
  | none => throw .invalidUtf8

/-- A length-prefixed string, or none for a length of -1. -/
def string? : Reader (Option String) := do
  let n ← i32
  if n = -1 then return none
  if n < 0 then throw .invalidLength
  return some (← text n.toNat)

/-- A length-prefixed string that is present. -/
def string : Reader String := do
  match ← string? with
  | some s => return s
  | none => throw .invalidLength

/-- `count` values one after the other. -/
def repeated {α : Type} (item : Reader α) : Nat → Reader (List α)
  | 0 => return []
  | count + 1 => do
    let first ← item
    return first :: (← repeated item count)

/-- Succeeds at the end of the bytes. -/
def finish : Reader Unit := fun bytes =>
  if bytes.isEmpty then .ok ((), []) else .error .trailingBytes

/-- The value that `item` makes of exactly the given bytes. -/
def whole {α : Type} (item : Reader α) (bytes : Bytes) : Except LinkError α := do
  let (value, rest) ← item bytes
  if rest.isEmpty then return value
  throw .trailingBytes

end Reader

/-! ## Writers -/

/-- The bytes of a value, or the failure to encode it. -/
abbrev Written := Except LinkError Bytes

namespace Written

/-- The four bytes of a count that fits an unsigned word. -/
def count (n : Nat) : Written :=
  if n < UInt32.size then .ok (wordBytes 4 n) else .error .tooLarge

/-- The four bytes of a length or index that fits a signed word. -/
def length (n : Nat) : Written :=
  if n < signBit then .ok (wordBytes 4 n) else .error .tooLarge

/-- The mark of an absent string or handler: the signed word -1. -/
def absent : Bytes := wordBytes 4 (unsigned32 (-1))

def string (s : String) : Written := do
  return (← length s.utf8ByteSize) ++ s.toUTF8.toList

/-- The bytes of several values one after the other. -/
def all {α : Type} (item : α → Written) : List α → Written
  | [] => .ok []
  | x :: rest => do return (← item x) ++ (← all item rest)

end Written

end FiberMachine.Artifact
