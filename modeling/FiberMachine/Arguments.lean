import FiberMachine.Dict
import FiberMachine.Value

/-!
# Argument vectors

The arguments of a call: positionals in order and keywords by name.
-/

namespace FiberMachine

structure Arguments where
  positional : List Value := []
  keywords : Dict Value := {}
deriving Inhabited

namespace Arguments

/-- Appends a positional argument. -/
def push (args : Arguments) (value : Value) : Arguments :=
  { args with positional := args.positional ++ [value] }

/-- Sets a keyword argument; the last value of a name wins. -/
def setKeyword (args : Arguments) (name : String) (value : Value) : Arguments :=
  { args with keywords := args.keywords.insert name value }

def hasKeywords (args : Arguments) : Bool := !args.keywords.isEmpty

def keyword? (args : Arguments) (name : String) : Option Value := args.keywords.get? name

/-- The arguments without the first `count` positionals. -/
def dropPositional (args : Arguments) (count : Nat) : Arguments :=
  { args with positional := args.positional.drop count }

end Arguments

end FiberMachine
