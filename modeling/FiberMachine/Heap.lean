import FiberMachine.Host
import FiberMachine.Sequence

/-!
# The heap

What references lead to. There is one store per kind, and a store only grows, so a reference stays
valid and a change of one thing leaves everything else as it was.
-/

namespace FiberMachine

/-- What a function executes. -/
inductive FunctionBody where
  /-- Code with the cells it captured, in the order of its capture list. -/
  | interpreted (code : Code) (captures : List (Ref .cell))
  | native (name : String) (routine : Routine)
deriving Inhabited

/-- A callable value: a body with a receiver, null when unbound. -/
structure FunctionObject where
  /-- The module the function was defined in. -/
  module : Option ModuleId
  receiver : Value
  body : FunctionBody
deriving Inhabited

namespace FunctionObject

/-- The same body and cells with another receiver. -/
def bind (f : FunctionObject) (receiver : Value) : FunctionObject := { f with receiver }

def name? (f : FunctionObject) : Option String :=
  match f.body with
  | .interpreted code _ => code.name
  | .native name _ => some name

end FunctionObject

/-- A factory for objects with a fixed set of methods, declared in a module. -/
structure Template where
  name : String
  sealed : Bool
  methods : List (String × Code)
  module : ModuleId
deriving Inhabited

/-- A raised value with what is known about its raising. -/
structure Envelope where
  value : Value
  category : Category
  message : String
  /-- The frames that were executing, outermost first. -/
  backtrace : List StackFrame
deriving Inhabited

structure Heap where
  arrays : Array Sequence := #[]
  objects : Array Object := #[]
  templates : Array Template := #[]
  codes : Array Code := #[]
  functions : Array FunctionObject := #[]
  errors : Array Envelope := #[]
  cells : Array Value := #[]
deriving Inhabited

namespace Heap

variable (h : Heap)

/-! ## Looking things up -/

def array? (r : Ref .array) : Option Sequence := h.arrays[r.index]?
def object? (r : Ref .object) : Option Object := h.objects[r.index]?
def template? (r : Ref .template) : Option Template := h.templates[r.index]?
def code? (r : Ref .code) : Option Code := h.codes[r.index]?
def function? (r : Ref .function) : Option FunctionObject := h.functions[r.index]?
def error? (r : Ref .error) : Option Envelope := h.errors[r.index]?
def cell? (r : Ref .cell) : Option Value := h.cells[r.index]?

/-- What a program finds at a reference. -/
def content? : {kind : Kind} → Ref kind → Option kind.Content
  | .array, r => h.array? r
  | .object, r => h.object? r
  | .cell, r => h.cell? r
  | .template, _ | .code, _ | .function, _ | .error, _ => none

/-! ## Adding things -/

def newArray (s : Sequence) : Ref .array × Heap :=
  (⟨h.arrays.size⟩, { h with arrays := h.arrays.push s })

def newObject (o : Object) : Ref .object × Heap :=
  (⟨h.objects.size⟩, { h with objects := h.objects.push o })

def newTemplate (t : Template) : Ref .template × Heap :=
  (⟨h.templates.size⟩, { h with templates := h.templates.push t })

def newCode (c : Code) : Ref .code × Heap :=
  (⟨h.codes.size⟩, { h with codes := h.codes.push c })

def newFunction (f : FunctionObject) : Ref .function × Heap :=
  (⟨h.functions.size⟩, { h with functions := h.functions.push f })

def newError (e : Envelope) : Ref .error × Heap :=
  (⟨h.errors.size⟩, { h with errors := h.errors.push e })

def newCell (v : Value) : Ref .cell × Heap :=
  (⟨h.cells.size⟩, { h with cells := h.cells.push v })

section

variable {h}

theorem array?_size : h.array? ⟨h.arrays.size⟩ = none := by simp [array?]

theorem array?_newArray_self (s : Sequence) :
    (h.newArray s).2.array? (h.newArray s).1 = some s := by
  simp [array?, newArray]

theorem array?_newArray {r : Ref .array} {a : Sequence} (ha : h.array? r = some a) (s : Sequence) :
    (h.newArray s).2.array? r = some a := by
  have hlt : r.index < h.arrays.size := (Array.getElem?_eq_some_iff.mp ha).1
  simp only [array?, newArray, Array.getElem?_push_lt hlt]
  exact (Array.getElem?_eq_getElem hlt).symm.trans ha

theorem object?_size : h.object? ⟨h.objects.size⟩ = none := by simp [object?]

theorem object?_newObject_self (o : Object) :
    (h.newObject o).2.object? (h.newObject o).1 = some o := by
  simp [object?, newObject]

theorem object?_newObject {r : Ref .object} {o : Object} (ho : h.object? r = some o) (o' : Object) :
    (h.newObject o').2.object? r = some o := by
  have hlt : r.index < h.objects.size := (Array.getElem?_eq_some_iff.mp ho).1
  simp only [object?, newObject, Array.getElem?_push_lt hlt]
  exact (Array.getElem?_eq_getElem hlt).symm.trans ho

end

/-! ## Changing things -/

def setArray (r : Ref .array) (s : Sequence) : Heap :=
  { h with arrays := h.arrays.setIfInBounds r.index s }

def setObject (r : Ref .object) (o : Object) : Heap :=
  { h with objects := h.objects.setIfInBounds r.index o }

def setCell (r : Ref .cell) (v : Value) : Heap :=
  { h with cells := h.cells.setIfInBounds r.index v }

/-- The object after an update. -/
def updated (r : Ref .object) (u : Object.Update) : Except Fault Object :=
  match h.object? r with
  | none => .error .valueFreed
  | some o => o.update u

end Heap

/-- A value computed from a heap, with the one change of the heap that it takes. -/
inductive Outcome where
  | value (value : Value)
  | newArray (sequence : Sequence)
  | newFunction (function : FunctionObject)
  /-- Replaces the contents of an array. -/
  | setArray (ref : Ref .array) (sequence : Sequence) (value : Value)
deriving Inhabited

namespace Heap

/-- Makes the change of an outcome and returns its value. -/
def realize (h : Heap) : Outcome → Value × Heap
  | .value v => (v, h)
  | .newArray s =>
    let (r, h) := h.newArray s
    (.array r, h)
  | .newFunction f =>
    let (r, h) := h.newFunction f
    (.function r, h)
  | .setArray r s v => (v, h.setArray r s)

end Heap

end FiberMachine
