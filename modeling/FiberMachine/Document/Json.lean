import FiberMachine.Document
import FiberMachine.Double
import FiberMachine.Text.Hex

/-!
# Documents as JSON text

Reading follows the JSON grammar; each reader takes a value off the front of the characters and
returns it with the rest, or none when they are malformed. A repeated name in a record keeps its
last value, nesting is limited, a string may not hold an unpaired surrogate, and a number may not
exceed the range of doubles.
-/

namespace FiberMachine.Document.Json

def isBlank (c : Char) : Bool := c = ' ' || c = '\n' || c = '\t' || c = '\r'

def skipBlanks : List Char → List Char
  | [] => []
  | c :: rest => if isBlank c then skipBlanks rest else c :: rest

/-! ## Strings -/

/-- The number of four hexadecimal digits. -/
def hexUnit : List Char → Option (Nat × List Char)
  | a :: b :: c :: d :: rest => (Text.hexNumber? 0 [a, b, c, d]).map (·, rest)
  | _ => none

/-- The character of an escaped code unit, which may need the low half of a surrogate pair. -/
def escapedUnit (unit : Nat) (rest : List Char) : Option (Char × List Char) :=
  if 0xD800 ≤ unit ∧ unit < 0xDC00 then
    match rest with
    | '\\' :: 'u' :: rest => do
      let (low, rest) ← hexUnit rest
      if 0xDC00 ≤ low ∧ low < 0xE000 then
        some (Char.ofNat (0x10000 + (unit - 0xD800) * 0x400 + (low - 0xDC00)), rest)
      else none
    | _ => none
  else if 0xDC00 ≤ unit ∧ unit < 0xE000 then none
  else some (Char.ofNat unit, rest)

/-- The character after a backslash. -/
def escaped : List Char → Option (Char × List Char)
  | '"' :: rest => some ('"', rest)
  | '\\' :: rest => some ('\\', rest)
  | '/' :: rest => some ('/', rest)
  | 'b' :: rest => some (Char.ofNat 8, rest)
  | 'f' :: rest => some (Char.ofNat 12, rest)
  | 'n' :: rest => some ('\n', rest)
  | 'r' :: rest => some ('\r', rest)
  | 't' :: rest => some ('\t', rest)
  | 'u' :: rest => do
    let (unit, rest) ← hexUnit rest
    escapedUnit unit rest
  | _ => none

/-- The rest of a string up to its closing quote. `bound` is at least the length of the text. -/
def stringBody : Nat → List Char → List Char → Option (String × List Char)
  | 0, _, _ => none
  | _ + 1, _, [] => none
  | bound + 1, acc, c :: rest =>
    if c = '"' then some (String.ofList acc.reverse, rest)
    else if c = '\\' then do
      let (c, rest) ← escaped rest
      stringBody bound (c :: acc) rest
    else if c.toNat < 0x20 then none
    else stringBody bound (c :: acc) rest

/-! ## Numbers -/

def takeDigits : List Char → List Char × List Char
  | [] => ([], [])
  | c :: rest =>
    if c.isDigit then
      let (digits, rest) := takeDigits rest
      (c :: digits, rest)
    else ([], c :: rest)

def decimal (digits : List Char) : Nat :=
  digits.foldl (fun n c => 10 * n + (c.toNat - '0'.toNat)) 0

/-- The digits of an optional fraction. -/
def fraction : List Char → Option (Option (List Char) × List Char)
  | '.' :: rest =>
    match takeDigits rest with
    | ([], _) => none
    | (digits, rest) => some (some digits, rest)
  | rest => some (none, rest)

/-- The number that the digits of an exponent give. -/
def exponentDigits (rest : List Char) : Option (Nat × List Char) :=
  match takeDigits rest with
  | ([], _) => none
  | (digits, rest) => some (decimal digits, rest)

/-- An optional exponent. -/
def exponent : List Char → Option (Option Int × List Char)
  | c :: rest =>
    if c = 'e' || c = 'E' then
      match rest with
      | '+' :: rest => (exponentDigits rest).map fun (n, rest) => (some n, rest)
      | '-' :: rest => (exponentDigits rest).map fun (n, rest) => (some (-n), rest)
      | rest => (exponentDigits rest).map fun (n, rest) => (some n, rest)
    else some (none, c :: rest)
  | [] => some (none, [])

/-- Adds digits to `n` as long as it stays below `2 ^ 64`, and returns those that are left. -/
def significand : Nat → List Char → Nat × List Char
  | n, [] => (n, [])
  | n, c :: rest =>
    let next := 10 * n + (c.toNat - '0'.toNat)
    if next < UInt64.size then significand next rest else (n, c :: rest)

/-- The exponent of the largest power of ten among the doubles. -/
def maxPower : Nat := 308

/-- Divides by `10 ^ k`, as long as anything is left to divide. -/
def shrink (x : Double) (k : Nat) : Double :=
  if k ≤ maxPower then x.div (.powerOfTen k)
  else if x.isZero then x
  else shrink (x.div (.powerOfTen maxPower)) (k - maxPower)
termination_by k
decreasing_by
  unfold maxPower at *
  omega

/--
The double of a number, if it is in range. The leading digits that fit into 64 bits and the power of
ten that scales them are each taken as the nearest double.
-/
def double? (negative : Bool) (whole fraction : List Char) (exponent : Int) : Option Double := do
  let (n, left) := significand 0 whole
  let (n, unused) := significand n fraction
  let scale := exponent + left.length - (fraction.length - unused.length : Nat)
  let x := Double.ofUInt64 n.toUInt64
  let x ←
    if scale < 0 then some (shrink x scale.natAbs)
    else if n = 0 then some x
    else if scale ≤ maxPower then some (x.mul (.powerOfTen scale.toNat))
    else none
  if x.isInfinite then none else some (if negative then x.neg else x)

/-- The whole number with its sign, if it is one of 64 bits. A negative zero is none. -/
def integer? (negative : Bool) (n : Nat) : Option Int :=
  if negative then
    if n = 0 || -(n : Int) < Int64.minValue.toInt then none else some (-n)
  else if n < UInt64.size then some n else none

/-- A number without its sign. -/
def unsigned (negative : Bool) (input : List Char) : Option (Document × List Char) := do
  let (digits, rest) := takeDigits input
  match digits with
  | [] => none
  | first :: more =>
    if first = '0' && !more.isEmpty then none
    else
      let (point, rest) ← fraction rest
      let (power, rest) ← exponent rest
      match point, power, integer? negative (decimal digits) with
      | none, none, some i => some (.int i, rest)
      | _, _, _ =>
        (double? negative digits (point.getD []) (power.getD 0)).map fun x => (.real x, rest)

/-! ## Values -/

/-- Stores a field, in the place of one with the same name. -/
def storeField (name : String) (value : Document) :
    List (String × Document) → List (String × Document)
  | [] => [(name, value)]
  | (k, v) :: rest => if k = name then (k, value) :: rest else (k, v) :: storeField name value rest

/-- The items of a list after its first bracket or comma. -/
def items (value : List Char → Option (Document × List Char)) :
    Nat → List Char → Option (List Document × List Char)
  | 0, _ => none
  | bound + 1, input => do
    let (item, rest) ← value input
    match skipBlanks rest with
    | ',' :: rest => do
      let (more, rest) ← items value bound rest
      some (item :: more, rest)
    | ']' :: rest => some ([item], rest)
    | _ => none

/-- The fields of a record after its first brace or comma, added to those in `acc`. -/
def fields (size : Nat) (value : List Char → Option (Document × List Char)) :
    Nat → List (String × Document) → List Char → Option (List (String × Document) × List Char)
  | 0, _, _ => none
  | bound + 1, acc, input => do
    match skipBlanks input with
    | '"' :: rest => do
      let (name, rest) ← stringBody size [] rest
      match skipBlanks rest with
      | ':' :: rest => do
        let (item, rest) ← value rest
        let acc := storeField name item acc
        match skipBlanks rest with
        | ',' :: rest => fields size value bound acc rest
        | '\x7d' :: rest => some (acc, rest)
        | _ => none
      | _ => none
    | _ => none

/--
A value whose lists and records nest less than `depth` deep. No string, list or record has more
than `size` characters, items or fields.
-/
def value (size : Nat) : Nat → List Char → Option (Document × List Char)
  | 0, _ => none
  | depth + 1, input =>
    match skipBlanks input with
    | 'n' :: 'u' :: 'l' :: 'l' :: rest => some (.null, rest)
    | 't' :: 'r' :: 'u' :: 'e' :: rest => some (.bool true, rest)
    | 'f' :: 'a' :: 'l' :: 's' :: 'e' :: rest => some (.bool false, rest)
    | '"' :: rest => do
      let (s, rest) ← stringBody size [] rest
      some (.text s, rest)
    | '-' :: rest => unsigned true rest
    | '[' :: rest =>
      match skipBlanks rest with
      | ']' :: rest => if depth = 0 then none else some (.list [], rest)
      | rest => do
        let (xs, rest) ← items (value size depth) size rest
        some (.list xs, rest)
    | '\x7b' :: rest =>
      match skipBlanks rest with
      | '\x7d' :: rest => if depth = 0 then none else some (.record [], rest)
      | rest => do
        let (fs, rest) ← fields size (value size depth) size [] rest
        some (.record fs, rest)
    | input => unsigned false input

/-- One more than the deepest nesting of lists and records that is read. -/
def depthLimit : Nat := 128

/-- The document that the whole text holds. -/
def parse? (input : String) : Option Document := do
  let chars := input.toList
  let (d, rest) ← value (chars.length + 1) depthLimit chars
  if (skipBlanks rest).isEmpty then some d else none

/-! ## Writing -/

def quotedChar (c : Char) : List Char :=
  if c = '"' then ['\\', '"']
  else if c = '\\' then ['\\', '\\']
  else if c.toNat < 0x20 then '\\' :: 'u' :: Text.hexDigits 4 c.toNat []
  else [c]

def quoted (s : String) : String :=
  "\"" ++ String.ofList (s.toList.flatMap quotedChar) ++ "\""

/-- The decimal value of a double, exactly. What is not a finite number is written as null. -/
def exactly (x : Double) : String :=
  if x.isNaN || x.isInfinite then "null"
  else
    let (m, e) := x.scaled
    let sign := if x.isNegative then "-" else ""
    if e < 1075 then sign ++ toString (m * Nat.pow 5 (1075 - e)) ++ "e-" ++ toString (1075 - e)
    else sign ++ toString (m <<< (e - 1075)) ++ "e0"

mutual

/-- Writes a document after the text so far. -/
def append : String → Document → String
  | out, .null => out ++ "null"
  | out, .bool b => out ++ if b then "true" else "false"
  | out, .int i => out ++ toString i
  | out, .real x => out ++ exactly x
  | out, .text s => out ++ quoted s
  | out, .list xs => appendItems (out ++ "[") xs ++ "]"
  | out, .record fs => appendFields (out ++ "\x7b") fs ++ "\x7d"

def appendItems : String → List Document → String
  | out, [] => out
  | out, [x] => append out x
  | out, x :: rest => appendItems (append out x ++ ",") rest

def appendFields : String → List (String × Document) → String
  | out, [] => out
  | out, [(k, v)] => append (out ++ quoted k ++ ":") v
  | out, (k, v) :: rest => appendFields (append (out ++ quoted k ++ ":") v ++ ",") rest

end

/-- The JSON text of a document. -/
def render (d : Document) : String := append "" d

end FiberMachine.Document.Json
