import FiberMachine.Arguments
import FiberMachine.Object
import FiberMachine.Sequence

/-!
# Host programs

Native functions and native modules are programs of the host. A program is a value: it either
finishes, or asks its machine for something and goes on with the answer. Asking to run guest code
is one of the requests, so a machine can suspend a program while the guest code runs.
-/

namespace FiberMachine

/-- Whether a deadline has passed. Time does not advance within a machine. -/
inductive Deadline where
  /-- A moment that is over. -/
  | past
  /-- A moment that is not reached. -/
  | future
deriving DecidableEq, Inhabited

/-- How long an execution may take. -/
inductive Limit where
  | unlimited
  | deadline (deadline : Deadline)
  /-- The moment is too far away to be represented. -/
  | unrepresentable
deriving DecidableEq, Inhabited

/-- A way to start executing on a fiber. -/
inductive Entry where
  /-- Registers a module and executes its top-level code. -/
  | execute (module : LinkedModule) (limit : Limit)
  /-- Loads a module by name. -/
  | load (name : String)
  /-- Calls a value. -/
  | call (callable receiver : Value) (args : Arguments)
  /-- Calls a method of a value. -/
  | invoke (target : Value) (name : String) (args : Arguments)
  /-- Continues an execution that ran out of budget or time. -/
  | resume (limit : Limit)
deriving Inhabited

/-- The code that executes in a frame and the instruction it is at. -/
structure StackFrame where
  code : Code
  instruction : Nat
deriving DecidableEq, Inhabited

/-- A setting of a fiber. -/
inductive Setting where
  /-- Limits the number of frames. -/
  | maxDepth (depth : Nat)
  /-- Sets the number of instructions per unit of budget. -/
  | stepsPerCharge (steps : Nat)
  /-- Adds to the budget. -/
  | budget (amount : Nat)
deriving DecidableEq, Inhabited

/-- What a program finds at a reference. It follows references to arrays, objects and cells only. -/
abbrev Kind.Content : Kind → Type
  | .array => Sequence
  | .object => Object
  | .cell => Value
  | .template | .code | .function | .error => Empty

/-- A program of the host that yields a value or a fault. -/
inductive Program where
  | finish (result : Except Fault Value)
  /-- Executes on the fiber that runs the program. -/
  | enter (entry : Entry) (next : Except Failure Value → Program)
  | newArray (values : List Value) (next : Value → Program)
  | newObject (next : Ref .object → Program)
  /-- Makes a native function of a module. -/
  | newFunction (name : String) (module : ModuleId) (routine : Value → Arguments → Program)
      (next : Value → Program)
  /-- Looks at what a reference leads to. -/
  | read {kind : Kind} (target : Ref kind) (next : Option kind.Content → Program)
  | update (target : Ref .object) (update : Object.Update) (next : Except Fault Unit → Program)
  /-- Asks for the frames of the fiber, outermost first. -/
  | backtrace (next : List StackFrame → Program)
  | configure (setting : Setting) (next : Program)
deriving Inhabited

/-- A native function: a program for each receiver and argument vector. -/
abbrev Routine := Value → Arguments → Program

/-- The initialization of a native module with the given object. -/
abbrev Initializer := ModuleId → Ref .object → Program

end FiberMachine
