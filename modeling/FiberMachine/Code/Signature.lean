import FiberMachine.Dict

/-!
# Signatures

The parameters a function accepts and the slots they occupy in its frame: the callable, the
receiver, the positional parameters, an array of excess positional arguments when variadic, the
keyword parameters in order, and an object of unknown keyword arguments when variadic.
-/

namespace FiberMachine

/-- The parameters of a function. -/
structure Signature where
  /-- The number of positional parameters. -/
  positional : UInt32 := 0
  /-- The names of the keyword parameters. -/
  keywords : List String := []
  /-- Whether excess positional arguments are collected. -/
  variadicPositional : Bool := false
  /-- Whether unknown keyword arguments are collected. -/
  variadicKeyword : Bool := false
deriving DecidableEq, Inhabited

namespace Signature

/-- The slot of the callable. -/
def callableSlot : Nat := 0

/-- The slot of the receiver. -/
def receiverSlot : Nat := 1

/-- The slot of the first parameter. -/
def firstParameter : Nat := 2

variable (s : Signature)

/-- The slot of the array of excess positional arguments. -/
def variadicPositionalSlot : Option Nat :=
  if s.variadicPositional then some (firstParameter + s.positional.toNat) else none

/-- The slot of the first keyword parameter. -/
def firstKeywordSlot : Nat :=
  firstParameter + s.positional.toNat + s.variadicPositional.toNat

/-- The slot of the object of unknown keyword arguments. -/
def variadicKeywordSlot : Option Nat :=
  if s.variadicKeyword then some (s.firstKeywordSlot + s.keywords.length) else none

/-- The number of slots that the callable, the receiver and the parameters take. -/
def parameterSlots : Nat :=
  s.firstKeywordSlot + s.keywords.length + s.variadicKeyword.toNat

/-- The slots of the keyword parameters; the last parameter of a name wins. -/
def keywordSlots : Dict Nat :=
  s.keywords.zipIdx.foldl (fun slots k => slots.insert k.1 (s.firstKeywordSlot + k.2)) {}

/-- The slot of the keyword parameter `name`. -/
def keywordSlot? (name : String) : Option Nat := s.keywordSlots.get? name

end Signature

end FiberMachine
