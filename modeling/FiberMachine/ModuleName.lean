import FiberMachine.Text.Identifier
import FiberMachine.Text.Split

/-!
# Module names

A module name is one or more identifiers separated by dots.
-/

namespace FiberMachine.ModuleName

/-- An underscore or an identifier's first character, then characters that continue one. -/
def isPart (alphabet : Text.Alphabet) : List Char → Bool
  | [] => false
  | c :: rest => (c == '_' || alphabet.isStart c) && rest.all alphabet.isContinue

/-- The parts of `name` between its dots. -/
def parts (name : String) : List String := (Text.split '.' name.toList).map String.ofList

def isValid (alphabet : Text.Alphabet) (name : String) : Bool :=
  (Text.split '.' name.toList).all (isPart alphabet)

end FiberMachine.ModuleName
