/-!
# The instruction set

Every opcode with its name, the kind of operand it takes and its ordinal, which is its encoding in
an artifact.
-/

namespace FiberMachine

/-- What the operand of an instruction refers to. -/
inductive OperandKind where
  /-- There is no operand. -/
  | none
  /-- An entry of the constant pool. -/
  | constant
  /-- A string of the constant pool. -/
  | name
  /-- A code object of the constant pool. -/
  | code
  /-- A local slot. -/
  | slot
  /-- A captured cell of the executing function. -/
  | capture
  /-- An instruction index. -/
  | target
deriving DecidableEq, Inhabited

/-- The name of the kind. -/
def OperandKind.label : OperandKind → String
  | .none => "None"
  | .constant => "Constant"
  | .name => "Name"
  | .code => "Code"
  | .slot => "Slot"
  | .capture => "Capture"
  | .target => "Target"

/-- The operation of an instruction. -/
inductive Opcode where
  /-- Does nothing. -/
  | nop
  /-- Discards the top of the stack. -/
  | pop
  /-- Duplicates the top of the stack. -/
  | dup
  /-- Swaps the top two values. -/
  | swap
  /-- Pushes null. -/
  | pushNull
  /-- Pushes true. -/
  | pushTrue
  /-- Pushes false. -/
  | pushFalse
  /-- Pushes a pool constant. -/
  | loadConst
  /-- Pushes a local slot. -/
  | loadLocal
  /-- Pops into a local slot. -/
  | storeLocal
  /-- Pushes the value of a slot's cell. -/
  | loadCell
  /-- Pops into a slot's cell. -/
  | storeCell
  /-- Pops into a new cell for a slot. -/
  | newCell
  /-- Pushes the value of a captured cell. -/
  | loadCapture
  /-- Pops into a captured cell. -/
  | storeCapture
  /-- Pushes an attribute of the module object. -/
  | loadGlobal
  /-- Pops into an attribute of the module object. -/
  | storeGlobal
  /-- Replaces the target with one of its attributes. -/
  | getAttr
  /-- Pops a value and a target, and assigns the attribute. -/
  | setAttr
  /-- Pops a value and a target, and defines a const attribute. -/
  | declareConst
  /-- Pops a target and exports an attribute. -/
  | export
  /-- Pops a target and locks an attribute. -/
  | lock
  /-- Seals the object or array on top of the stack. -/
  | seal
  /-- Replaces a target and an index with the element. -/
  | getIndex
  /-- Pops a value, an index and a target, and assigns the element. -/
  | setIndex
  /-- Addition or concatenation. -/
  | add
  /-- Subtraction. -/
  | subtract
  /-- Multiplication. -/
  | multiply
  /-- Division. -/
  | divide
  /-- Remainder. -/
  | remainder
  /-- Bitwise and. -/
  | bitwiseAnd
  /-- Bitwise or. -/
  | bitwiseOr
  /-- Bitwise exclusive or. -/
  | bitwiseXor
  /-- Left shift. -/
  | shiftLeft
  /-- Right shift. -/
  | shiftRight
  /-- Equality. -/
  | equal
  /-- Inequality. -/
  | notEqual
  /-- Less than. -/
  | lessThan
  /-- Less than or equal. -/
  | lessThanOrEqual
  /-- Greater than. -/
  | greaterThan
  /-- Greater than or equal. -/
  | greaterThanOrEqual
  /-- Arithmetic negation. -/
  | negate
  /-- Logical negation. -/
  | not
  /-- Continues at the target. -/
  | jump
  /-- Pops a condition and jumps when it is truthy. -/
  | jumpIf
  /-- Pops a condition and jumps when it is not truthy. -/
  | jumpIfNot
  /-- Begins an argument vector. -/
  | newArgs
  /-- Appends a positional argument. -/
  | pushArg
  /-- Sets a keyword argument. -/
  | pushKeyword
  /-- Pops a receiver and a callable, and calls it with the argument vector. -/
  | call
  /-- Pops a target and calls one of its methods. -/
  | invoke
  /-- Pops a receiver and a function, and pushes the function bound to it. -/
  | bind
  /-- Instantiates a closure. -/
  | makeFunction
  /-- Builds an array from the positional arguments. -/
  | newArray
  /-- Builds an object from the keyword arguments. -/
  | newObject
  /-- Loads a module and pushes its object. -/
  | loadModule
  /-- Returns from the frame. -/
  | return
  /-- Raises the popped value. -/
  | throw
  /-- Pushes the error being handled. -/
  | popErr
deriving DecidableEq, Inhabited

namespace Opcode

/-- Every opcode in the order of the ordinals. -/
def all : List Opcode := [
  .nop, .pop, .dup, .swap, .pushNull, .pushTrue, .pushFalse, .loadConst, .loadLocal, .storeLocal,
  .loadCell, .storeCell, .newCell, .loadCapture, .storeCapture, .loadGlobal, .storeGlobal,
  .getAttr, .setAttr, .declareConst, .export, .lock, .seal, .getIndex, .setIndex, .add,
  .subtract, .multiply, .divide, .remainder, .bitwiseAnd, .bitwiseOr, .bitwiseXor, .shiftLeft,
  .shiftRight, .equal, .notEqual, .lessThan, .lessThanOrEqual, .greaterThan, .greaterThanOrEqual,
  .negate, .not, .jump, .jumpIf, .jumpIfNot, .newArgs, .pushArg, .pushKeyword, .call, .invoke,
  .bind, .makeFunction, .newArray, .newObject, .loadModule, .return, .throw, .popErr]

/-- The name of the opcode. -/
def name : Opcode → String
  | .nop => "Nop"
  | .pop => "Pop"
  | .dup => "Dup"
  | .swap => "Swap"
  | .pushNull => "PushNull"
  | .pushTrue => "PushTrue"
  | .pushFalse => "PushFalse"
  | .loadConst => "LoadConst"
  | .loadLocal => "LoadLocal"
  | .storeLocal => "StoreLocal"
  | .loadCell => "LoadCell"
  | .storeCell => "StoreCell"
  | .newCell => "NewCell"
  | .loadCapture => "LoadCapture"
  | .storeCapture => "StoreCapture"
  | .loadGlobal => "LoadGlobal"
  | .storeGlobal => "StoreGlobal"
  | .getAttr => "GetAttr"
  | .setAttr => "SetAttr"
  | .declareConst => "DeclareConst"
  | .export => "Export"
  | .lock => "Lock"
  | .seal => "Seal"
  | .getIndex => "GetIndex"
  | .setIndex => "SetIndex"
  | .add => "Add"
  | .subtract => "Subtract"
  | .multiply => "Multiply"
  | .divide => "Divide"
  | .remainder => "Remainder"
  | .bitwiseAnd => "BitwiseAnd"
  | .bitwiseOr => "BitwiseOr"
  | .bitwiseXor => "BitwiseXor"
  | .shiftLeft => "ShiftLeft"
  | .shiftRight => "ShiftRight"
  | .equal => "Equal"
  | .notEqual => "NotEqual"
  | .lessThan => "LessThan"
  | .lessThanOrEqual => "LessThanOrEqual"
  | .greaterThan => "GreaterThan"
  | .greaterThanOrEqual => "GreaterThanOrEqual"
  | .negate => "Negate"
  | .not => "Not"
  | .jump => "Jump"
  | .jumpIf => "JumpIf"
  | .jumpIfNot => "JumpIfNot"
  | .newArgs => "NewArgs"
  | .pushArg => "PushArg"
  | .pushKeyword => "PushKeyword"
  | .call => "Call"
  | .invoke => "Invoke"
  | .bind => "Bind"
  | .makeFunction => "MakeFunction"
  | .newArray => "NewArray"
  | .newObject => "NewObject"
  | .loadModule => "LoadModule"
  | .return => "Return"
  | .throw => "Throw"
  | .popErr => "PopErr"

/-- What the operand of the opcode refers to. -/
def operandKind : Opcode → OperandKind
  | .loadConst => .constant
  | .loadLocal | .storeLocal | .loadCell | .storeCell | .newCell => .slot
  | .loadCapture | .storeCapture => .capture
  | .loadGlobal | .storeGlobal | .getAttr | .setAttr | .declareConst | .export | .lock
  | .pushKeyword | .invoke | .loadModule => .name
  | .jump | .jumpIf | .jumpIfNot => .target
  | .makeFunction => .code
  | _ => .none

/-- Whether the opcode is encoded with an operand. -/
def hasOperand (op : Opcode) : Bool := op.operandKind != .none

/-- The position of the opcode in `all`. -/
def ordinal (op : Opcode) : UInt8 := (all.idxOf op).toUInt8

/-- The opcode with the given ordinal. -/
def ofOrdinal? (n : UInt8) : Option Opcode := all[n.toNat]?

/-- The opcode with the given name. -/
def ofName? (name : String) : Option Opcode := all.find? (·.name == name)

end Opcode

end FiberMachine
