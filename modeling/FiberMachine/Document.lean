import FiberMachine.Double
import FiberMachine.Integer

/-!
# Documents

Structured data as it is exchanged in text: null, booleans, numbers, strings, lists and records.
-/

namespace FiberMachine

inductive Document where
  | null
  | bool (value : Bool)
  | int (value : Int)
  /-- A number that is not given as an integer, or one beyond 64 bits. -/
  | real (value : Double)
  | text (value : String)
  | list (items : List Document)
  | record (fields : List (String × Document))
deriving Inhabited

namespace Document

/-- The field `name` of a record. -/
def field? (d : Document) (name : String) : Option Document :=
  match d with
  | record fields => fields.lookup name
  | _ => none

def bool? : Document → Option Bool
  | bool b => some b
  | _ => none

def int? : Document → Option Int
  | int i => some i
  | _ => none

def text? : Document → Option String
  | text s => some s
  | _ => none

def list? : Document → Option (List Document)
  | list items => some items
  | _ => none

/-- A number from zero up to, not including, `bound`. -/
def nat? (bound : Nat) : Document → Option Nat
  | int i => if 0 ≤ i ∧ i < bound then some i.toNat else none
  | _ => none

def u8? (d : Document) : Option UInt8 := (d.nat? UInt8.size).map Nat.toUInt8

def u16? (d : Document) : Option UInt16 := (d.nat? UInt16.size).map Nat.toUInt16

def u32? (d : Document) : Option UInt32 := (d.nat? UInt32.size).map Nat.toUInt32

def i64? : Document → Option Int64
  | int i => Integer.ofInt? i
  | _ => none

/-- Whether more than one field has one of the names. -/
def repeats (names : List String) (fields : List (String × Document)) : Bool :=
  names.any fun name => 1 < fields.countP fun field => field.1 == name

/--
The fields of something that has fields with the given names. A record may have other fields too,
but none with these names twice. If `positional`, a list has the first of the fields in their order.
-/
def fields? (positional : Bool) (names : List String) :
    Document → Option (List (String × Document))
  | record fields => if repeats names fields then none else some fields
  | list items =>
    if positional && items.length ≤ names.length then some (names.zip items) else none
  | _ => none

mutual

/-- How deep lists and records nest. -/
def height : Document → Nat
  | list items => heightItems items + 1
  | record fields => heightFields fields + 1
  | _ => 0

def heightItems : List Document → Nat
  | [] => 0
  | d :: rest => max d.height (heightItems rest)

def heightFields : List (String × Document) → Nat
  | [] => 0
  | (_, d) :: rest => max d.height (heightFields rest)

end

def nat (n : Nat) : Document := int n

/-- The document of a value that may be absent. -/
def ofOption {α : Type} (f : α → Document) : Option α → Document
  | some a => f a
  | none => null

end Document

end FiberMachine
