import FiberMachine.Heap

/-!
# Built-in methods and properties

The methods and read-only properties of values that are not objects.
-/

namespace FiberMachine

inductive Builtin where
  | length | push | pop | get | set | concat | bind | name | value | kind | message
deriving DecidableEq, Inhabited

namespace Builtin

def ofName? : String → Option Builtin
  | "length" => some length
  | "push" => some push
  | "pop" => some pop
  | "get" => some get
  | "set" => some set
  | "concat" => some concat
  | "bind" => some bind
  | "name" => some name
  | "value" => some value
  | "kind" => some kind
  | "message" => some message
  | _ => none

/-- Whether the builtin can be read as an attribute. -/
def isProperty : Builtin → Bool
  | length | name | value | kind | message => true
  | _ => false

/-- What a reference leads to. -/
def found {α : Type} : Option α → Except Fault α
  | some a => .ok a
  | none => .error .valueFreed

/-- A length as an integer. -/
def ofLength (n : Nat) : Except Fault Value :=
  if n ≤ Int64.maxValue.toInt then .ok (.int (Int64.ofNat n)) else .error .overflow

/-- A property of a value. -/
def property (h : Heap) : Value → Builtin → Except Fault Value
  | .array r, length => do ofLength (← found (h.array? r)).values.size
  | .string s, length => ofLength s.length
  | .function r, name => do
    match (← found (h.function? r)).name? with
    | some s => return .string s
    | none => return .null
  | .template r, name => do return .string (← found (h.template? r)).name
  | .error r, value => do return (← found (h.error? r)).value
  | .error r, kind => do return .string (← found (h.error? r)).category.name
  | .error r, message => do return .string (← found (h.error? r)).message
  | _, _ => .error .unknownAttribute

/-- The attribute `name` of a value as code of `caller` sees it. -/
def readAttribute (h : Heap) (target : Value) (name : String) (caller : Option ModuleId) :
    Except Fault Value :=
  match target with
  | .object r => do (← found (h.object? r)).get name caller
  | target =>
    match ofName? name with
    | some builtin =>
      if builtin.isProperty then property h target builtin else .error .unknownAttribute
    | none => .error .unknownAttribute

/-- The positional argument at `index`. -/
def argument (args : Arguments) (index : Nat) : Except Fault Value :=
  match args.positional[index]? with
  | some v => .ok v
  | none => .error .argumentCount

/-- The integer argument at `index`. -/
def integerArgument (args : Arguments) (index : Nat) : Except Fault Int64 := do
  match (← argument args index).asInt? with
  | some i => return i
  | none => throw .unsupported

/-- The text of strings one after the other. -/
def joined (s : String) : List Value → Except Fault String
  | [] => .ok s
  | .string t :: rest => joined (s ++ t) rest
  | _ :: _ => .error .unsupported

/-- Calls the builtin method `name` of a value that is not an object. -/
def call (h : Heap) (target : Value) (name : String) (args : Arguments) :
    Except Fault Outcome := do
  let some builtin := ofName? name | throw .unknownAttribute
  match target, builtin with
  | .array r, push =>
    let s ← (← found (h.array? r)).extend args.positional
    return .setArray r s .null
  | .array r, pop =>
    let (v, s) ← (← found (h.array? r)).pop
    return .setArray r s (v.getD .null)
  | .array r, get =>
    let index ← integerArgument args 0
    return .value (← (← found (h.array? r)).get index)
  | .array r, set =>
    let index ← integerArgument args 0
    let v ← argument args 1
    let (previous, s) ← (← found (h.array? r)).set index v
    return .setArray r s previous
  | .string s, concat => return .value (.string (← joined s args.positional))
  | .function r, bind =>
    let receiver ← argument args 0
    return .newFunction ((← found (h.function? r)).bind receiver)
  | target, builtin =>
    if !builtin.isProperty then throw .unknownAttribute
    if !args.positional.isEmpty || args.hasKeywords then throw .argumentCount
    return .value (← property h target builtin)

end Builtin

end FiberMachine
