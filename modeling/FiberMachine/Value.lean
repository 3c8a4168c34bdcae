import FiberMachine.Code.Basic

/-!
# Values

Primitive values are held in place. Composite values are references into a heap; copying one never
copies what it refers to.
-/

namespace FiberMachine

/-- The kinds of things a heap holds. -/
inductive Kind where
  | array | object | template | code | function | error | cell
deriving DecidableEq, Inhabited

/-- A reference to the thing of kind `k` with the given index. -/
structure Ref (k : Kind) where
  index : Nat
deriving DecidableEq, Inhabited

/-- A module of a machine, numbered in the order of registration. -/
structure ModuleId where
  index : Nat
deriving DecidableEq, Inhabited

/-- A fiber of a machine. -/
structure FiberId where
  index : Nat
deriving DecidableEq, Inhabited

inductive Value where
  | null
  | bool (value : Bool)
  | int (value : Int64)
  | float (value : Double)
  | string (value : String)
  | array (ref : Ref .array)
  | object (ref : Ref .object)
  | template (ref : Ref .template)
  | code (ref : Ref .code)
  | function (ref : Ref .function)
  | error (ref : Ref .error)
deriving DecidableEq, Inhabited

namespace Value

def isNull : Value → Bool
  | null => true
  | _ => false

def asInt? : Value → Option Int64
  | int i => some i
  | _ => none

/-- The number, with integers converted. -/
def asDouble? : Value → Option Double
  | int i => some (.ofInt64 i)
  | float d => some d
  | _ => none

def asBool? : Value → Option Bool
  | bool b => some b
  | _ => none

def asString? : Value → Option String
  | string s => some s
  | _ => none

/-- The name of the type of the value. -/
def typeName : Value → String
  | null => "null"
  | bool _ => "bool"
  | int _ => "int"
  | float _ => "float"
  | string _ => "string"
  | array _ => "array"
  | object _ => "object"
  | template _ => "template"
  | code _ => "code"
  | function _ => "function"
  | error _ => "error"

/-- Null, false, the zeros and the empty string are not truthy; everything else is. -/
def truthy : Value → Bool
  | null => false
  | bool b => b
  | int i => i != 0
  | float d => !d.isZero
  | string s => s != ""
  | _ => true

/-- Equality without overloads: numbers by their value, references by identity. -/
def equals : Value → Value → Bool
  | float a, float b => a.equals b
  | int a, float b => (Double.ofInt64 a).equals b
  | float a, int b => a.equals (.ofInt64 b)
  | a, b => decide (a = b)

def compareStrings (a b : String) : Ordering :=
  if a < b then .lt else if a = b then .eq else .gt

/-- The order of two values: none when they have no order, and absent within when one is a NaN. -/
def compare? : Value → Value → Option (Option Ordering)
  | int a, int b => some (some (Ord.compare a b))
  | float a, float b => some (a.compare b)
  | int a, float b => some ((Double.ofInt64 a).compare b)
  | float a, int b => some (a.compare (.ofInt64 b))
  | string a, string b => some (some (compareStrings a b))
  | bool a, bool b => some (some (Ord.compare a b))
  | _, _ => none

end Value

end FiberMachine
