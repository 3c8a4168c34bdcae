import FiberMachine.Builtin
import FiberMachine.Frame
import FiberMachine.Operator

/-!
# Executing one instruction

An instruction works on its frame and on the heap, and tells the machine what to do next. A fault
keeps the changes made before it: the operands a call has taken stay taken.
-/

namespace FiberMachine

/-- What the machine does after an instruction. -/
inductive Action where
  /-- Goes on with the frame. -/
  | next
  /-- Calls a value and delivers the result, or its negated truthiness. -/
  | call (callable receiver : Value) (args : Arguments) (negate : Bool)
  /-- Calls a method of a value and delivers the result. -/
  | invoke (target : Value) (name : String) (args : Arguments)
  /-- Loads a module and delivers its object. -/
  | load (name : String)
  /-- Completes the frame. -/
  | return (value : Value)
deriving Inhabited

/-- What an instruction works on. -/
structure Local where
  heap : Heap
  frame : Frame

/-- A computation on a frame and the heap that keeps its changes when it faults. -/
abbrev Exec := ExceptT Fault (StateM Local)

namespace Exec

/-! ## Parts of instructions -/

def modifyFrame (f : Frame → Frame) : Exec Unit :=
  modify fun ⟨heap, frame⟩ => ⟨heap, f frame⟩

def modifyHeap (f : Heap → Heap) : Exec Unit :=
  modify fun ⟨heap, frame⟩ => ⟨f heap, frame⟩

def frame : Exec Frame := return (← get).frame

def heap : Exec Heap := return (← get).heap

/-- The module of the frame, on whose behalf the instruction acts. -/
def caller : Exec (Option ModuleId) := return some (← frame).scope.module

def orElseFault {α : Type} (fault : Fault) : Option α → Exec α
  | some a => return a
  | none => throw fault

/-- What a reference leads to. -/
def found {α : Type} (a : Option α) : Exec α := orElseFault .valueFreed a

def push (value : Value) : Exec Unit := modifyFrame (·.push value)

def pop : Exec Value := do
  match (← frame).stack with
  | [] => throw .invalidInstruction
  | value :: rest =>
    modifyFrame ({ · with stack := rest })
    return value

def peek : Exec Value := do orElseFault .invalidInstruction (← frame).stack.head?

def constant (i : Nat) : Exec Value := do
  orElseFault .invalidInstruction (← frame).scope.constants[i]?

/-- The string constant at `i`. -/
def name (i : Nat) : Exec String := do orElseFault .invalidInstruction (← constant i).asString?

def capture (i : Nat) : Exec (Ref .cell) := do
  orElseFault .invalidInstruction (← frame).captures[i]?

/-- Adds something to the heap. -/
def allocate {α : Type} (f : Heap → α × Heap) : Exec α :=
  modifyGet fun ⟨heap, frame⟩ =>
    let (a, heap) := f heap
    (a, ⟨heap, frame⟩)

def newCell (value : Value) : Exec (Ref .cell) := allocate (·.newCell value)

/-- The cell of a slot, made from the slot's value on first use. -/
def cellOf (slot : Nat) : Exec (Ref .cell) := do
  match (← frame).cell? slot with
  | some cell => return cell
  | none =>
    let cell ← newCell ((← frame).slot slot)
    modifyFrame (·.setCell slot cell)
    return cell

/-- Changes the innermost argument vector. -/
def modifyArgs (f : Arguments → Arguments) : Exec Unit := do
  match (← frame).args with
  | [] => throw .invalidInstruction
  | args :: rest => modifyFrame ({ · with args := f args :: rest })

/-- Takes the innermost argument vector. -/
def takeArgs : Exec Arguments := do
  match (← frame).args with
  | [] => throw .invalidInstruction
  | args :: rest =>
    modifyFrame ({ · with args := rest })
    return args

/-- Goes on with the next instruction. -/
def next : Exec Action := do
  modifyFrame fun f => { f with instruction := f.instruction + 1 }
  return .next

/-- Goes on at another instruction. -/
def jump (target : Nat) : Exec Action := do
  modifyFrame ({ · with instruction := target })
  return .next

/-- Applies an update to an object. -/
def update (r : Ref .object) (u : Object.Update) : Exec Unit := do
  let o ← (← heap).updated r u
  modifyHeap (·.setObject r o)

/-- The object that a value refers to. -/
def objectOf : Value → Exec (Ref .object)
  | .object r => return r
  | _ => throw .unknownAttribute

/-! ## Instructions -/

/-- Fixes the attributes of an object or the length of an array. -/
def sealValue : Value → Exec Unit
  | .object r => update r .seal
  | .array r => do
    let s ← found ((← heap).array? r)
    modifyHeap (·.setArray r s.close)
  | _ => throw .unsupported

def getIndex (target index : Value) : Exec Value := do
  match target with
  | .array r =>
    let s ← found ((← heap).array? r)
    s.get (← orElseFault .unsupported index.asInt?)
  | .object r =>
    let o ← found ((← heap).object? r)
    o.get (← orElseFault .unsupported index.asString?) (← caller)
  | _ => throw .unsupported

def setIndex (target index value : Value) : Exec Unit := do
  match target with
  | .array r =>
    let s ← found ((← heap).array? r)
    let (_, s) ← s.set (← orElseFault .unsupported index.asInt?) value
    modifyHeap (·.setArray r s)
  | .object r => update r (.set (← orElseFault .unsupported index.asString?) value (← caller))
  | _ => throw .unsupported

/-- Binds a function value to an object literal it becomes a part of; other values stay. -/
def bindField (self : Ref .object) : Value → Exec Value
  | .function r => do
    let f ← found ((← heap).function? r)
    return .function (← allocate (·.newFunction (f.bind (.object self))))
  | value => return value

/-- Sets the fields of an object literal. -/
def setFields (self : Ref .object) : List (String × Value) → Exec Unit
  | [] => return
  | (name, value) :: rest => do
    update self (.set name (← bindField self value) none)
    setFields self rest

/-- The object literal of the keyword arguments. -/
def newObject (args : Arguments) : Exec Value := do
  if !args.positional.isEmpty then throw .argumentCount
  let self ← allocate (·.newObject {})
  setFields self args.keywords.entries
  return .object self

/-- The cells for a capture list. -/
def captured : List Capture → Exec (List (Ref .cell))
  | [] => return []
  | c :: rest => do
    let cell ← match c with
      | .slot i => cellOf i.toNat
      | .outer i => capture i.toNat
    return cell :: (← captured rest)

/-- Instantiates the code constant at `i` as a closure of the frame. -/
def makeFunction (i : Nat) : Exec Value := do
  match ← constant i with
  | .code r =>
    let code ← found ((← heap).code? r)
    let captures ← captured code.captures
    let f ← frame
    return .function (← allocate (·.newFunction {
      module := some f.scope.module, receiver := f.receiver, body := .interpreted code captures }))
  | _ => throw .invalidInstruction

/-- The attribute of an object that overloads an operator. -/
def overload? (operand : Value) (name : String) : Exec (Option Value) := do
  match operand with
  | .object r => return (← found ((← heap).object? r)).lookup? name
  | _ => return none

def binary (op : BinaryOperator) : Exec Action := do
  let right ← pop
  let left ← pop
  match ← overload? left op.overload with
  | some overload => return .call overload left { positional := [right] } (op = .notEqual)
  | none =>
    let outcome ← Operator.binary (← heap) op left right
    push (← allocate (·.realize outcome))
    next

def unary (op : UnaryOperator) : Exec Action := do
  let operand ← pop
  match ← overload? operand op.overload with
  | some overload => return .call overload operand {} false
  | none =>
    push (← Operator.unary op operand)
    next

/-- Executes an instruction. -/
def instruction (i : Instruction) : Exec Action := do
  let operand := i.operand.toNat
  match i.opcode with
  | .nop => next
  | .pop =>
    let _ ← pop
    next
  | .dup =>
    push (← peek)
    next
  | .swap =>
    let b ← pop
    let a ← pop
    push b
    push a
    next
  | .pushNull =>
    push .null
    next
  | .pushTrue =>
    push (.bool true)
    next
  | .pushFalse =>
    push (.bool false)
    next
  | .loadConst =>
    push (← constant operand)
    next
  | .loadLocal =>
    push ((← frame).slot operand)
    next
  | .storeLocal =>
    let value ← pop
    modifyFrame (·.setSlot operand value)
    next
  | .loadCell =>
    let cell ← cellOf operand
    push (← found ((← heap).cell? cell))
    next
  | .storeCell =>
    let value ← pop
    let cell ← cellOf operand
    modifyHeap (·.setCell cell value)
    next
  | .newCell =>
    let value ← pop
    let cell ← newCell value
    modifyFrame (·.setCell operand cell)
    next
  | .loadCapture =>
    let cell ← capture operand
    push (← found ((← heap).cell? cell))
    next
  | .storeCapture =>
    let value ← pop
    let cell ← capture operand
    modifyHeap (·.setCell cell value)
    next
  | .loadGlobal =>
    let name ← name operand
    let globals ← found ((← heap).object? (← frame).scope.globals)
    push (← globals.get name (← caller))
    next
  | .storeGlobal =>
    let name ← name operand
    let value ← pop
    update (← frame).scope.globals (.set name value (← caller))
    next
  | .getAttr =>
    let name ← name operand
    let target ← pop
    push (← Builtin.readAttribute (← heap) target name (← caller))
    next
  | .setAttr =>
    let name ← name operand
    let value ← pop
    let target ← pop
    update (← objectOf target) (.set name value (← caller))
    next
  | .declareConst =>
    let name ← name operand
    let value ← pop
    let target ← pop
    update (← objectOf target) (.declareConst name value (← caller))
    next
  | .export =>
    let name ← name operand
    let target ← pop
    update (← objectOf target) (.export name (← caller))
    next
  | .lock =>
    let name ← name operand
    let target ← pop
    update (← objectOf target) (.lock name (← caller))
    next
  | .seal =>
    sealValue (← peek)
    next
  | .getIndex =>
    let index ← pop
    let target ← pop
    push (← getIndex target index)
    next
  | .setIndex =>
    let value ← pop
    let index ← pop
    let target ← pop
    setIndex target index value
    next
  | .add => binary .add
  | .subtract => binary .subtract
  | .multiply => binary .multiply
  | .divide => binary .divide
  | .remainder => binary .remainder
  | .bitwiseAnd => binary .bitwiseAnd
  | .bitwiseOr => binary .bitwiseOr
  | .bitwiseXor => binary .bitwiseXor
  | .shiftLeft => binary .shiftLeft
  | .shiftRight => binary .shiftRight
  | .equal => binary .equal
  | .notEqual => binary .notEqual
  | .lessThan => binary .lessThan
  | .lessThanOrEqual => binary .lessThanOrEqual
  | .greaterThan => binary .greaterThan
  | .greaterThanOrEqual => binary .greaterThanOrEqual
  | .negate => unary .negate
  | .not => unary .not
  | .jump => jump operand
  | .jumpIf =>
    let condition ← pop
    if condition.truthy then jump operand else next
  | .jumpIfNot =>
    let condition ← pop
    if condition.truthy then next else jump operand
  | .newArgs =>
    modifyFrame fun f => { f with args := {} :: f.args }
    next
  | .pushArg =>
    let value ← pop
    modifyArgs (·.push value)
    next
  | .pushKeyword =>
    let name ← name operand
    let value ← pop
    modifyArgs (·.setKeyword name value)
    next
  | .call =>
    let receiver ← pop
    let callable ← pop
    return .call callable receiver (← takeArgs) false
  | .invoke =>
    let name ← name operand
    let target ← pop
    return .invoke target name (← takeArgs)
  | .bind =>
    let receiver ← pop
    match ← pop with
    | .function r =>
      let f ← found ((← heap).function? r)
      push (.function (← allocate (·.newFunction (f.bind receiver))))
      next
    | _ => throw .notInvokable
  | .makeFunction =>
    push (← makeFunction operand)
    next
  | .newArray =>
    let args ← takeArgs
    if args.hasKeywords then throw .unknownKeyword
    push (.array (← allocate (·.newArray (.ofList args.positional))))
    next
  | .newObject =>
    push (← newObject (← takeArgs))
    next
  | .loadModule => return .load (← name operand)
  | .return => return .return ((← frame).stack.headD .null)
  | .throw => throw (.exception (← pop))
  | .popErr =>
    push ((← frame).pending.getD .null)
    next

/-- Executes the current instruction; past the last one the frame returns null. -/
def step : Exec Action := do
  let f ← frame
  match f.code.instructions[f.instruction]? with
  | some i => instruction i
  | none => return .return .null

end Exec

end FiberMachine
