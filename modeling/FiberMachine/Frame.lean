import FiberMachine.Heap

/-!
# Frames

A frame is one activation of an interpreted function: its slots, the cells of slots that closures
captured, the operand and argument stacks, and where it is in its code.
-/

namespace FiberMachine

/-- What the caller of a frame receives when the frame completes. -/
inductive Continuation where
  /-- The returned value. -/
  | result
  /-- The negated truthiness of the returned value. -/
  | negated
  /-- Finishes loading a module; the caller receives its object when `object`, else the value. -/
  | module (id : ModuleId) (object : Bool)
deriving DecidableEq, Inhabited

/-- The module that a frame's code belongs to, with its constants and its object. -/
structure Scope where
  module : ModuleId
  constants : Array Value
  globals : Ref .object
deriving Inhabited

structure Frame where
  code : Code
  scope : Scope
  /-- The cells that the function captured. -/
  captures : List (Ref .cell)
  slots : Array Value
  /-- The cells of the slots that have one. -/
  cells : Array (Option (Ref .cell)) := #[]
  /-- The operands, the top first. -/
  stack : List Value := []
  /-- The argument vectors under construction, the innermost first. -/
  args : List Arguments := []
  instruction : Nat := 0
  /-- The error that is being handled. -/
  pending : Option Value := none
  continuation : Continuation := .result
deriving Inhabited

namespace Signature

/-- Why arguments do not fit the signature, if so. -/
def mismatch? (s : Signature) (args : Arguments) : Option Fault :=
  let required := s.positional.toNat
  let supplied := args.positional.length
  if supplied < required || (required < supplied && !s.variadicPositional) then some .argumentCount
  else if !s.variadicKeyword && args.keywords.keys.any fun name => (s.keywordSlot? name).isNone then
    some .unknownKeyword
  else none

/--
The slots that a call writes with their values, in the order of writing: the callable, the receiver,
the required positional arguments, what collects the excess ones, the keyword arguments that have a
parameter, and what collects the others.
-/
def writes (s : Signature) (function : Ref .function) (receiver : Value) (args : Arguments)
    (excess others : List (Nat × Value)) : List (Nat × Value) :=
  [(callableSlot, .function function), (receiverSlot, receiver)] ++
    ((args.positional.take s.positional.toNat).zipIdx firstParameter).map Prod.swap ++ excess ++
    args.keywords.entries.filterMap (fun k => (s.keywordSlot? k.1).map (·, k.2)) ++ others

end Signature

namespace Heap

/-- Collects the excess positional arguments in a new array, if the signature has a slot for it. -/
def collectExcess (h : Heap) (s : Signature) (args : Arguments) : List (Nat × Value) × Heap :=
  match s.variadicPositionalSlot with
  | none => ([], h)
  | some slot =>
    let (r, h) := h.newArray (.ofList (args.positional.drop s.positional.toNat))
    ([(slot, .array r)], h)

/--
Collects the keyword arguments without a parameter in a new object, if the signature has a slot for
it.
-/
def collectOthers (h : Heap) (s : Signature) (args : Arguments) :
    Except Fault (List (Nat × Value)) × Heap :=
  match s.variadicKeywordSlot with
  | none => (.ok [], h)
  | some slot =>
    let fields := args.keywords.entries.filter fun k => (s.keywordSlot? k.1).isNone
    match Object.setAll {} fields with
    | .error fault => (.error fault, h)
    | .ok o =>
      let (r, h) := h.newObject o
      (.ok [(slot, .object r)], h)

/-- Checks the arguments of a call, collects those without a parameter and finds the slots. -/
def assign (h : Heap) (function : Ref .function) (s : Signature) (receiver : Value)
    (args : Arguments) : Except Fault (List (Nat × Value)) × Heap :=
  match s.mismatch? args with
  | some fault => (.error fault, h)
  | none =>
    let (excess, h) := h.collectExcess s args
    match h.collectOthers s args with
    | (.error fault, h) => (.error fault, h)
    | (.ok others, h) => (.ok (s.writes function receiver args excess others), h)

end Heap

namespace Frame

/-- The slots of a call before any is written. -/
def blank (s : Signature) : Array Value :=
  Array.replicate (max s.parameterSlots Signature.firstParameter) .null

/-- Writes values to slots, one after the other. -/
def fill (slots : Array Value) (writes : List (Nat × Value)) : Array Value :=
  writes.foldl (fun slots w => slots.setIfInBounds w.1 w.2) slots

/--
The frame that executes `code` with the given arguments. Its slots are null but for those that are
written for the call.
-/
def bind (h : Heap) (function : Ref .function) (code : Code) (captures : List (Ref .cell))
    (scope : Scope) (receiver : Value) (args : Arguments) : Except Fault Frame × Heap :=
  match h.assign function code.signature receiver args with
  | (.error fault, h) => (.error fault, h)
  | (.ok writes, h) =>
    (.ok { code, scope, captures, slots := fill (blank code.signature) writes }, h)

/-- The receiver that the function was called with. -/
def receiver (f : Frame) : Value := f.slots.getD Signature.receiverSlot .null

/-- The value of a slot, null beyond the last one. -/
def slot (f : Frame) (i : Nat) : Value := f.slots.getD i .null

/-- An array with `value` at `i`, filled up with `filler` as needed. -/
def grow {α : Type} (filler : α) (a : Array α) (i : Nat) (value : α) : Array α :=
  if i < a.size then a.setIfInBounds i value
  else (a ++ Array.replicate (i - a.size) filler).push value

def setSlot (f : Frame) (i : Nat) (value : Value) : Frame :=
  { f with slots := grow .null f.slots i value }

/-- The cell of a slot that has one. -/
def cell? (f : Frame) (i : Nat) : Option (Ref .cell) := f.cells.getD i none

def setCell (f : Frame) (i : Nat) (cell : Ref .cell) : Frame :=
  { f with cells := grow none f.cells i (some cell) }

def push (f : Frame) (value : Value) : Frame := { f with stack := value :: f.stack }

/-- Delivers the result of the call that the frame waits for. -/
def deliver (f : Frame) (value : Value) : Frame :=
  { f with stack := value :: f.stack, instruction := f.instruction + 1 }

/-- The handler of the current instruction. -/
def handler? (f : Frame) : Option Nat :=
  match f.code.instructions[f.instruction]? with
  | some i => i.handler.map UInt32.toNat
  | none => none

/-- The frame that goes on at the handler of its current instruction, if there is one. -/
def handle? (f : Frame) (error : Value) : Option Frame :=
  f.handler?.map fun handler =>
    { f with stack := [], args := [], pending := some error, instruction := handler }

def stackFrame (f : Frame) : StackFrame := { code := f.code, instruction := f.instruction }

end Frame

/-- The frames of a stack with the innermost first, as a backtrace with the outermost first. -/
def backtraceOf (frames : List Frame) : List StackFrame := frames.reverse.map Frame.stackFrame

namespace Heap

/-- The envelope of a fault that is raised in the given frames; a raised envelope is itself. -/
def envelope (h : Heap) (frames : List Frame) : Fault → Value × Heap
  | .exception (.error r) => (.error r, h)
  | fault =>
    let (r, h) := h.newError {
      value := fault.raised, category := fault.category, message := fault.message
      backtrace := backtraceOf frames }
    (.error r, h)

end Heap

end FiberMachine
