import FiberMachine.Dict
import FiberMachine.Fault

/-!
# Objects

An object is a collection of named attributes. An attribute can be const, which lets it be assigned
once, locked, which rejects every write, and exported, which makes an attribute of a module object
visible to other modules. A sealed object takes no new attributes.
-/

namespace FiberMachine

structure Attribute where
  value : Value
  /-- Whether the attribute has a value yet. -/
  assigned : Bool := true
  constant : Bool := false
  exported : Bool := false
  locked : Bool := false
deriving DecidableEq, Inhabited

structure Object where
  /-- The module whose declarations the object holds, if it is a module object. -/
  module : Option ModuleId := none
  attributes : Dict Attribute := {}
  sealed : Bool := false
  /-- Whether the module is still being initialized, so that missing attributes may yet appear. -/
  initializing : Bool := false
deriving Inhabited

namespace Object

/-- The object for the declarations of `id`. -/
def forModule (id : ModuleId) : Object := { module := some id, initializing := true }

/-- Whether code of `caller` is foreign to the module that the object belongs to. -/
def isForeign (o : Object) (caller : Option ModuleId) : Bool :=
  match o.module with
  | some id => caller != some id
  | none => false

/-- Foreign code may only touch exported attributes. -/
def mayAccess (o : Object) (a : Attribute) (caller : Option ModuleId) : Bool :=
  !o.isForeign caller || a.exported

/-- The value of `name` as code of `caller` sees it. -/
def get (o : Object) (name : String) (caller : Option ModuleId) : Except Fault Value :=
  match o.attributes.get? name with
  | some a =>
    if !o.mayAccess a caller then .error .forbidden
    else if a.assigned then .ok a.value
    else .error .uninitialized
  | none => if o.initializing then .error .uninitialized else .error .unknownAttribute

/-- The assigned value of `name`, whoever asks. -/
def lookup? (o : Object) (name : String) : Option Value :=
  match o.attributes.get? name with
  | some a => if a.assigned then some a.value else none
  | none => none

/-- Stores an attribute. -/
def put (o : Object) (name : String) (a : Attribute) : Object :=
  { o with attributes := o.attributes.insert name a }

/-- Why code of `caller` may not write `name`, if so. -/
def writeFault? (o : Object) (name : String) (caller : Option ModuleId) : Option Fault :=
  match o.attributes.get? name with
  | some a =>
    if !o.mayAccess a caller then some .forbidden
    else if a.locked then some .locked
    else if a.constant && a.assigned then some .immutable
    else none
  | none =>
    if o.sealed then some .sealed
    else if o.isForeign caller then some .forbidden
    else none

/-- Assigns `value` to `name`, which is created if needed. -/
def set (o : Object) (name : String) (value : Value) (caller : Option ModuleId) :
    Except Fault Object :=
  match o.writeFault? name caller with
  | some fault => .error fault
  | none =>
    match o.attributes.get? name with
    | some a => .ok (o.put name { a with value, assigned := true })
    | none => .ok (o.put name { value })

/-- Sets attributes one after the other, as code of no module. -/
def setAll (o : Object) : List (String × Value) → Except Fault Object
  | [] => .ok o
  | (name, value) :: rest => do setAll (← o.set name value none) rest

/-- Makes `name` a const attribute with the given value. -/
def declareConst (o : Object) (name : String) (value : Value) (caller : Option ModuleId) :
    Except Fault Object :=
  match o.writeFault? name caller with
  | some fault => .error fault
  | none =>
    match o.attributes.get? name with
    | some a => .ok (o.put name { a with value, assigned := true, constant := true })
    | none => .ok (o.put name { value, constant := true })

/-- Makes `name` a const attribute that has no value yet. -/
def reserveConst (o : Object) (name : String) : Except Fault Object :=
  if o.attributes.contains name then .error .immutable
  else if o.sealed then .error .sealed
  else .ok (o.put name { value := .null, assigned := false, constant := true })

/-- Changes an existing attribute on behalf of code that is not foreign. -/
def adjust (o : Object) (name : String) (caller : Option ModuleId)
    (change : Attribute → Attribute) : Except Fault Object :=
  match o.attributes.get? name with
  | none => .error .unknownAttribute
  | some a => if o.isForeign caller then .error .forbidden else .ok (o.put name (change a))

/-- Makes `name` visible to other modules. -/
def exportName (o : Object) (name : String) (caller : Option ModuleId) : Except Fault Object :=
  o.adjust name caller fun a => { a with exported := true }

/-- Rejects every further write to `name`. -/
def lock (o : Object) (name : String) (caller : Option ModuleId) : Except Fault Object :=
  o.adjust name caller fun a => { a with locked := true }

/-- Rejects new attributes. -/
def close (o : Object) : Object := { o with sealed := true }

def isExported (o : Object) (name : String) : Bool :=
  match o.attributes.get? name with
  | some a => a.exported
  | none => false

/-- A change of an object. -/
inductive Update where
  | set (name : String) (value : Value) (caller : Option ModuleId)
  | declareConst (name : String) (value : Value) (caller : Option ModuleId)
  | reserveConst (name : String)
  | export (name : String) (caller : Option ModuleId)
  | lock (name : String) (caller : Option ModuleId)
  | seal
deriving DecidableEq, Inhabited

/-- The object after an update, or the fault that leaves it as it is. -/
def update (o : Object) : Update → Except Fault Object
  | .set name value caller => o.set name value caller
  | .declareConst name value caller => o.declareConst name value caller
  | .reserveConst name => o.reserveConst name
  | .export name caller => o.exportName name caller
  | .lock name caller => o.lock name caller
  | .seal => .ok o.close

end Object

end FiberMachine
