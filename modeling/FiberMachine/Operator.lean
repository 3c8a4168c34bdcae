import FiberMachine.Heap
import FiberMachine.Integer

/-!
# Operators

What the operators do when no overload applies. Integers are exact and fault on overflow; a float
operand makes the operation one on floats. Addition also joins strings and arrays.
-/

namespace FiberMachine

/-- The operators of two operands. -/
inductive BinaryOperator where
  | add | subtract | multiply | divide | remainder
  | bitwiseAnd | bitwiseOr | bitwiseXor | shiftLeft | shiftRight
  | equal | notEqual | lessThan | lessThanOrEqual | greaterThan | greaterThanOrEqual
deriving DecidableEq, Inhabited

/-- The operators of one operand. -/
inductive UnaryOperator where
  | negate | not
deriving DecidableEq, Inhabited

/-- The attribute that overloads an operator; inequality uses that of equality. -/
def BinaryOperator.overload : BinaryOperator → String
  | .add => "+"
  | .subtract => "-"
  | .multiply => "*"
  | .divide => "/"
  | .remainder => "%"
  | .bitwiseAnd => "&"
  | .bitwiseOr => "|"
  | .bitwiseXor => "^"
  | .shiftLeft => "<<"
  | .shiftRight => ">>"
  | .equal | .notEqual => "=="
  | .lessThan => "<"
  | .lessThanOrEqual => "<="
  | .greaterThan => ">"
  | .greaterThanOrEqual => ">="

def UnaryOperator.overload : UnaryOperator → String
  | .negate => "neg"
  | .not => "not"

namespace Operator

/-- The result of a checked integer operation. -/
def checked : Option Int64 → Except Fault Value
  | some i => .ok (.int i)
  | none => .error .overflow

/-- Arithmetic on two integers, or on two numbers one of which is a float. -/
def arithmetic (int : Int64 → Int64 → Option Int64) (float : Double → Double → Double) :
    Value → Value → Except Fault Value
  | .int a, .int b => checked (int a b)
  | a, b =>
    match a.asDouble?, b.asDouble? with
    | some a, some b => .ok (.float (float a b))
    | _, _ => .error .unsupported

/-- An operation on numbers with a float among them that rejects a zero divisor. -/
def dividing (float : Double → Double → Double) (a b : Value) : Except Fault Value :=
  match a.asDouble?, b.asDouble? with
  | some a, some b => if b.isZero then .error .dividedByZero else .ok (.float (float a b))
  | _, _ => .error .unsupported

/-- Integers divide to an integer when nothing remains, and to a float otherwise. -/
def divide : Value → Value → Except Fault Value
  | .int a, .int b =>
    if b = 0 then .error .dividedByZero
    else
      match Integer.rem? a b with
      | none => .error .overflow
      | some r =>
        if r = 0 then checked (Integer.div? a b)
        else .ok (.float (Double.div (.ofInt64 a) (.ofInt64 b)))
  | a, b => dividing Double.div a b

def remainder : Value → Value → Except Fault Value
  | .int a, .int b => if b = 0 then .error .dividedByZero else checked (Integer.rem? a b)
  | a, b => dividing Double.rem a b

def bitwise (int : Int64 → Int64 → Int64) (bool : Bool → Bool → Bool) :
    Value → Value → Except Fault Value
  | .int a, .int b => .ok (.int (int a b))
  | .bool a, .bool b => .ok (.bool (bool a b))
  | _, _ => .error .unsupported

def shift (op : Int64 → UInt32 → Option Int64) : Value → Value → Except Fault Value
  | .int a, .int b => checked ((Integer.places? b).bind (op a))
  | _, _ => .error .unsupported

/-- A test of the order of two values, false when a NaN is among them. -/
def ordered (test : Ordering → Bool) (a b : Value) : Except Fault Value :=
  match a.compare? b with
  | none => .error .unsupported
  | some none => .ok (.bool false)
  | some (some o) => .ok (.bool (test o))

/-- The operators that only compute a value. -/
def compute : BinaryOperator → Value → Value → Except Fault Value
  | .add => arithmetic Integer.add? Double.add
  | .subtract => arithmetic Integer.sub? Double.sub
  | .multiply => arithmetic Integer.mul? Double.mul
  | .divide => divide
  | .remainder => remainder
  | .bitwiseAnd => bitwise (· &&& ·) (· && ·)
  | .bitwiseOr => bitwise (· ||| ·) (· || ·)
  | .bitwiseXor => bitwise (· ^^^ ·) Bool.xor
  | .shiftLeft => shift Integer.shiftLeft?
  | .shiftRight => shift Integer.shiftRight?
  | .equal => fun a b => .ok (.bool (a.equals b))
  | .notEqual => fun a b => .ok (.bool (!a.equals b))
  | .lessThan => ordered Ordering.isLT
  | .lessThanOrEqual => ordered Ordering.isLE
  | .greaterThan => ordered Ordering.isGT
  | .greaterThanOrEqual => ordered Ordering.isGE

/-- Joins the elements of two arrays in a new one. -/
def joinArrays (h : Heap) (a b : Ref .array) : Except Fault Outcome :=
  match h.array? a, h.array? b with
  | some a, some b => .ok (.newArray { values := a.values ++ b.values })
  | _, _ => .error .valueFreed

/-- The result of an operator without overload. -/
def binary (h : Heap) : BinaryOperator → Value → Value → Except Fault Outcome
  | .add, .string a, .string b => .ok (.value (.string (a ++ b)))
  | .add, .array a, .array b => joinArrays h a b
  | op, a, b => (compute op a b).map .value

def unary : UnaryOperator → Value → Except Fault Value
  | .negate, .int a => checked (Integer.neg? a)
  | .negate, .float a => .ok (.float a.neg)
  | .negate, _ => .error .unsupported
  | .not, a => .ok (.bool (!a.truthy))

end Operator

end FiberMachine
