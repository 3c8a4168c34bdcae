import FiberMachine.Document
import FiberMachine.Text.Hex

/-!
# Reading documents

Readers of the parts that documents are made of, and the two points in which the formats of
documents differ: how a float is written, and whether a record may be given without the names of its
fields.
-/

namespace FiberMachine

/-- Why a document does not have the form that is read. -/
inductive ShapeError where
  /-- Something does not have the expected form. -/
  | shape
  /-- The text of a float is not sixteen hexadecimal digits. -/
  | float
deriving DecidableEq, Inhabited

/-- The value, or the complaint that the form is wrong. -/
def Shaped {α : Type} : Option α → Except ShapeError α
  | some a => .ok a
  | none => .error .shape

namespace Document

/-- Reads a field, or takes the default when it is absent. -/
def optional {α : Type} (read : Document → Except ShapeError α) (default : α) :
    Option Document → Except ShapeError α
  | some d => read d
  | none => .ok default

/-- Reads a field that must be present. -/
def required {α : Type} (read : Document → Except ShapeError α) :
    Option Document → Except ShapeError α
  | some d => read d
  | none => .error .shape

def readBool (d : Document) : Except ShapeError Bool := Shaped d.bool?

def readU32 (d : Document) : Except ShapeError UInt32 := Shaped d.u32?

def ofU32 (n : UInt32) : Document := nat n.toNat

def readText (d : Document) : Except ShapeError String := Shaped d.text?

/-- Text, or null for none. -/
def readName : Document → Except ShapeError (Option String)
  | null => .ok none
  | d => some <$> d.readText

def readList {α : Type} (read : Document → Except ShapeError α) :
    Document → Except ShapeError (List α)
  | list items => items.mapM read
  | _ => .error .shape

/-- A number as a float; an integer of 64 bits is the nearest one. -/
def readDouble : Document → Except ShapeError Double
  | real x => .ok x
  | int i =>
    match Integer.ofInt? i with
    | some i => .ok (.ofInt64 i)
    | none =>
      if 0 ≤ i ∧ i < UInt64.size then .ok (.ofUInt64 i.toNat.toUInt64) else .error .shape
  | _ => .error .shape

/-- A float as the text of the sixteen hexadecimal digits of its bits. -/
def readBits (d : Document) : Except ShapeError Double := do
  match Text.wordOfHex? (← d.readText) with
  | some bits => return ⟨bits⟩
  | none => throw .float

def ofBits (x : Double) : Document := text (Text.hexOfWord x.bits)

theorem readBits_ofBits (x : Double) : readBits (ofBits x) = .ok x := by
  have htext : readText (ofBits x) = .ok (Text.hexOfWord x.bits) := rfl
  rw [readBits, htext]
  dsimp only [bind, Except.bind]
  rw [Text.wordOfHex?_hexOfWord]
  rfl

end Document

/-- How floats and records are given. What is written for a float is read as the same float. -/
structure Format where
  /-- Whether a list may hold the fields of a record in their order. -/
  positional : Bool
  readDouble : Document → Except ShapeError Double
  ofDouble : Double → Document
  readDouble_ofDouble (x : Double) : readDouble (ofDouble x) = .ok x

namespace Format

/-- Reads what has fields with the given names. -/
def readRecord {α : Type} (format : Format) (names : List String)
    (read : List (String × Document) → Except ShapeError α) (d : Document) :
    Except ShapeError α := do
  read (← Shaped (d.fields? format.positional names))

/-- Floats are numbers. -/
def numeric : Format where
  positional := true
  readDouble := Document.readDouble
  ofDouble := .real
  readDouble_ofDouble _ := rfl

/-- Floats are the hexadecimal digits of their bits, and fields have names. -/
def hexadecimal : Format where
  positional := false
  readDouble := Document.readBits
  ofDouble := Document.ofBits
  readDouble_ofDouble := Document.readBits_ofBits

end Format

end FiberMachine
