import FiberMachine.Bitcode.Document
import FiberMachine.Document.Json
import FiberMachine.Text.Blank

/-!
# Source texts

A source text, apart from blanks around it, is either a function in its written form or a decimal
integer. The module of an integer exports it as `value`.
-/

namespace FiberMachine.Source

/-- The digits of a decimal number. -/
def digits? : List Char → Option Nat
  | [] => none
  | cs => if cs.all Char.isDigit then some (Document.Json.decimal cs) else none

/-- A decimal 64-bit integer with an optional sign. -/
def integer? (text : String) : Option Int64 := do
  let i : Int ← match text.toList with
    | '-' :: cs => (digits? cs).map fun n => -(n : Int)
    | '+' :: cs => (digits? cs).map Int.ofNat
    | cs => (digits? cs).map Int.ofNat
  Integer.ofInt? i

/-- The top-level code of a module that exports an integer. -/
def integerBody (name : String) (i : Int64) : Bitcode.Function :=
  ⟨some name, {}, [], [
    .constant (.int i),
    .name .storeGlobal rfl "value",
    .slot .loadLocal rfl 1,
    .name .export rfl "value",
    .plain .pushNull rfl,
    .plain .return rfl], List.replicate 6 {}, []⟩

/-- Compiles the source text of the module `name`, or says why it cannot be. -/
def compile (name : String) (text : String) : Except String Bitcode.Module := do
  let text := Text.trim text
  let body ←
    if text.startsWith "\x7b" then
      match Document.Json.parse? text with
      | none => throw "bad json"
      | some d =>
        match Bitcode.Function.read .hexadecimal d with
        | .ok f => pure f
        | .error _ => throw "bad bitcode"
    else
      match integer? text with
      | some i => pure (integerBody name i)
      | none => throw ("not an integer: " ++ text)
  return { name := "compiled", body }

end FiberMachine.Source
