import FiberMachine.Builtin
import FiberMachine.Finder.Basic
import FiberMachine.Frame

/-!
# Machines

A machine is what its fibers share: the heap, the table of modules, and how to find new ones. A
module is registered, then loading by one fiber, then loaded or failed for good.
-/

namespace FiberMachine

inductive ModuleState where
  | registered
  /-- The fiber executes the module's initialization. -/
  | loading (fiber : FiberId)
  | loaded
  /-- The initialization ended with an error. -/
  | failed (error : Value)
deriving DecidableEq, Inhabited

structure ModuleEntry where
  name : String
  /-- The module object. -/
  object : Ref .object
  /-- The top-level code; a native module has none. -/
  body : Option Code
  constants : Array Value
  state : ModuleState := .registered
deriving Inhabited

structure Machine where
  heap : Heap := {}
  modules : Array ModuleEntry := #[]
  /-- The module that each name stands for. -/
  names : Dict ModuleId := {}
  natives : Dict Initializer := {}
  finder : Finder := {}
  workspace : Workspace := {}
  /-- The module that each fiber waits for. -/
  waits : Array (Option ModuleId) := #[]
deriving Inhabited

namespace Machine

/-- Works on the heap, which is detached from the machine meanwhile and so changed in place. -/
@[inline] def onHeap {α : Type} (m : Machine) (f : Heap → α × Heap) : α × Machine :=
  let heap := m.heap
  let m := { m with heap := {} }
  let (a, heap) := f heap
  (a, { m with heap })

def module? (m : Machine) (id : ModuleId) : Option ModuleEntry := m.modules[id.index]?

/-- The object of the module with the given name. -/
def object? (m : Machine) (name : String) : Option (Ref .object) := do
  let id ← m.names.get? name
  return (← m.module? id).object

def scope? (m : Machine) (id : ModuleId) : Option Scope :=
  (m.module? id).map fun entry =>
    { module := id, constants := entry.constants, globals := entry.object }

/-! ## Registering modules -/

/-- The methods of a template by name; those without one are left out. -/
def namedMethods (methods : List Code) : List (String × Code) :=
  methods.filterMap fun method => method.name.map (·, method)

/-- The value of a constant of the module `id`. -/
def instantiate (id : ModuleId) (h : Heap) : Constant → Value × Heap
  | .bool b => (.bool b, h)
  | .int i => (.int i, h)
  | .float d => (.float d, h)
  | .string s => (.string s, h)
  | .code c =>
    let (r, h) := h.newCode c
    (.code r, h)
  | .template t =>
    let (r, h) := h.newTemplate {
      name := t.name, sealed := t.sealed, methods := namedMethods t.methods, module := id }
    (.template r, h)

/-- The values of constants in order. -/
def instantiateAll (id : ModuleId) : Heap → List Constant → List Value × Heap
  | h, [] => ([], h)
  | h, c :: rest =>
    let (value, h) := instantiate id h c
    let (values, h) := instantiateAll id h rest
    (value :: values, h)

/-- Adds an entry to the module table; its name stands for it from now on. -/
def addModule (m : Machine) (entry : ModuleEntry) : ModuleId × Machine :=
  let id : ModuleId := ⟨m.modules.size⟩
  (id, { m with modules := m.modules.push entry, names := m.names.insert entry.name id })

/-- Registers a linked module without executing it. -/
def register (m : Machine) (linked : LinkedModule) : ModuleId × Machine :=
  let id : ModuleId := ⟨m.modules.size⟩
  let ((constants, object), m) := m.onHeap fun h =>
    let (constants, h) := instantiateAll id h linked.pool.toList
    let (object, h) := h.newObject (.forModule id)
    ((constants, object), h)
  m.addModule {
    name := linked.name, object, body := linked.body?, constants := constants.toArray }

/-- Registers a native module that is about to be loaded. -/
def registerNative (m : Machine) (name : String) : ModuleId × Machine :=
  let id : ModuleId := ⟨m.modules.size⟩
  let (object, m) := m.onHeap fun h => h.newObject (.forModule id)
  m.addModule { name, object, body := none, constants := #[] }

/-! ## Loading modules -/

def setState (m : Machine) (id : ModuleId) (state : ModuleState) : Machine :=
  { m with modules := m.modules.modify id.index fun entry => { entry with state } }

/-- Ends the loading of a module, which failed if there is an error. -/
def finishModule (m : Machine) (id : ModuleId) (error : Option Value) : Machine :=
  let m := m.setState id (match error with
    | some e => .failed e
    | none => .loaded)
  match m.module? id with
  | none => m
  | some entry =>
    (m.onHeap fun h =>
      match h.object? entry.object with
      | some o => ((), h.setObject entry.object { o with initializing := false })
      | none => ((), h)).2

/-- The module that a fiber waits for. -/
def waitOf (m : Machine) (fiber : FiberId) : Option ModuleId := m.waits.getD fiber.index none

def setWait (m : Machine) (fiber : FiberId) (wait : Option ModuleId) : Machine :=
  { m with waits := m.waits.setIfInBounds fiber.index wait }

/-- The fiber that loads the module which `fiber` waits for. -/
def blocker? (m : Machine) (fiber : FiberId) : Option FiberId := do
  let id ← m.waitOf fiber
  match (← m.module? id).state with
  | .loading loader => some loader
  | _ => none

/-- Whether following the fibers that block each other from `current` leads to `waiter`. -/
def reaches (m : Machine) (waiter : FiberId) : Nat → FiberId → Bool
  | 0, _ => false
  | bound + 1, current =>
    match m.blocker? current with
    | none => false
    | some loader => if loader = waiter then true else m.reaches waiter bound loader

/--
Whether `waiter` would never wake if it waited for `loader`, which itself waits, directly or not,
for a module that `waiter` loads.
-/
def wouldDeadlock (m : Machine) (waiter loader : FiberId) : Bool :=
  m.reaches waiter (m.modules.size + 1) loader

/-! ## Preparing calls -/

/-- What calling a value comes to. -/
inductive Invocation where
  /-- The call is complete. -/
  | complete (value : Value)
  /-- The call executes a frame. -/
  | enter (frame : Frame)
  /-- The call runs a program of the host. -/
  | run (program : Program)
  | fail (fault : Fault)
deriving Inhabited

/-- Declares the methods of a template as consts of a new instance. -/
def declareMethods (id : ModuleId) (self : Ref .object) :
    Heap → Object → List (String × Code) → Except Fault Object × Heap
  | h, o, [] => (.ok o, h)
  | h, o, (name, code) :: rest =>
    let (f, h) := h.newFunction {
      module := some id, receiver := .object self, body := .interpreted code [] }
    match o.declareConst name (.function f) none with
    | .ok o => declareMethods id self h o rest
    | .error fault => (.error fault, h)

/-- Makes an instance of a template: its methods, then the keyword arguments. -/
def construct (h : Heap) (t : Template) (args : Arguments) : Except Fault Value × Heap :=
  if !args.positional.isEmpty then (.error .argumentCount, h)
  else
    let (self, h) := h.newObject {}
    match declareMethods t.module self h {} t.methods with
    | (.error fault, h) => (.error fault, h)
    | (.ok o, h) =>
      match o.setAll args.keywords.entries with
      | .error fault => (.error fault, h)
      | .ok o => (.ok (.object self), h.setObject self (if t.sealed then o.close else o))

/-- Prepares a call of `callable`; the receiver a function is bound to wins over the given one. -/
def prepareCall (m : Machine) (callable receiver : Value) (args : Arguments) :
    Invocation × Machine :=
  match callable with
  | .function r =>
    match m.heap.function? r with
    | none => (.fail .valueFreed, m)
    | some f =>
      let receiver := if f.receiver.isNull then receiver else f.receiver
      match f.body with
      | .native _ routine => (.run (routine receiver args), m)
      | .interpreted code captures =>
        match f.module.bind m.scope? with
        | none => (.fail .invalidInstruction, m)
        | some scope =>
          match m.onHeap fun h => Frame.bind h r code captures scope receiver args with
          | (.ok frame, m) => (.enter frame, m)
          | (.error fault, m) => (.fail fault, m)
  | .template r =>
    match m.heap.template? r with
    | none => (.fail .valueFreed, m)
    | some t =>
      match m.onHeap fun h => construct h t args with
      | (.ok value, m) => (.complete value, m)
      | (.error fault, m) => (.fail fault, m)
  | _ => (.fail .notInvokable, m)

/-- Prepares a call of the method `name` of `target` by code of `caller`. -/
def prepareInvoke (m : Machine) (target : Value) (name : String) (args : Arguments)
    (caller : Option ModuleId) : Invocation × Machine :=
  match target with
  | .object r =>
    match m.heap.object? r with
    | none => (.fail .valueFreed, m)
    | some o =>
      match o.get name caller with
      | .ok method => m.prepareCall method target args
      | .error fault => (.fail fault, m)
  | target =>
    match Builtin.call m.heap target name args with
    | .error fault => (.fail fault, m)
    | .ok outcome =>
      let (value, m) := m.onHeap (·.realize outcome)
      (.complete value, m)

end Machine

end FiberMachine
