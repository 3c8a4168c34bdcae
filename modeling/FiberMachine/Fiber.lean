import FiberMachine.Machine
import FiberMachine.Meter

/-!
# Fibers

A fiber executes one stack of frames. What it is doing at the moment is its `Activity`, which also
holds everything that waits for the result: runs of guest code started by programs of the host,
and programs of the host called by guest code, nested in each other to any depth.
-/

namespace FiberMachine

mutual

/-- What receives the result of an invocation. -/
inductive Pending where
  /--
  An instruction of the top frame, in a run of the frames above the first `base`. It receives the
  value or its negated truthiness.
  -/
  | instruction (base : Nat) (negate : Bool) (caller : Caller)
  /-- The entry that started the invocation. -/
  | entry (caller : Caller)

/-- What receives the outcome of an entry. -/
inductive Caller where
  | host
  /-- A program that is suspended at the entry. -/
  | program (next : Except Failure Value → Program) (purpose : Purpose)

/-- What a program of the host runs for. -/
inductive Purpose where
  /-- A call of a native function. -/
  | call (pending : Pending)
  /-- The initialization of a native module. -/
  | load (id : ModuleId) (pending : Pending)

end

instance : Inhabited Caller := ⟨.host⟩

/-- What a fiber is doing. -/
inductive Activity where
  | idle
  /-- Executes the frames above the first `base`. -/
  | running (base : Nat) (caller : Caller)
  /-- Runs a program of the host. -/
  | program (program : Program) (purpose : Purpose)
  /-- Looks for a module by its name. -/
  | finding (name : String) (pending : Pending)
  /-- Has searched for a module that was not known. -/
  | found (name : String) (result : Except FinderError (Option LinkedModule)) (pending : Pending)
  /-- Enters a module; the result is the module object if `object`, else what its code returns. -/
  | entering (id : ModuleId) (object : Bool) (pending : Pending)
  /-- Waits until another fiber has loaded the module. -/
  | waiting (id : ModuleId) (object : Bool) (pending : Pending)
  /-- An invocation has a result. -/
  | answered (result : Except Fault Value) (pending : Pending)
  /-- An entry has an outcome. -/
  | replied (outcome : Except Failure Value) (caller : Caller)
deriving Inhabited

structure Fiber where
  /-- The frames, the innermost first. -/
  frames : List Frame := []
  meter : Meter := {}
  deadline : Option Deadline := none
  /-- The largest number of frames, if limited. -/
  maxDepth : Option Nat := none
  activity : Activity := .idle
deriving Inhabited

namespace Fiber

/-- Whether the depth limit admits no further frame. -/
def isFull (f : Fiber) : Bool :=
  match f.maxDepth with
  | none => false
  | some depth => depth ≤ f.frames.length

/-- The module of the top frame. -/
def currentModule? (f : Fiber) : Option ModuleId := f.frames.head?.map (·.scope.module)

def configure (f : Fiber) : Setting → Fiber
  | .maxDepth depth => { f with maxDepth := some depth }
  | .stepsPerCharge steps => { f with meter := f.meter.setSteps steps }
  | .budget amount => { f with meter := f.meter.allocate amount }

/-- The outcome of the last entry of the host, if it has ended. -/
def outcome? (f : Fiber) : Option (Except Failure Value) :=
  match f.activity with
  | .replied outcome .host => some outcome
  | _ => none

end Fiber

end FiberMachine
