import FiberMachine.Host

/-!
# Host routines

A set of native functions that let guest code call back, inspect and configure its fiber, and the
initialization of native modules that hold them.
-/

namespace FiberMachine

/-- The positional argument at `index`, or null. -/
def Arguments.valueAt (args : Arguments) (index : Nat) : Value :=
  args.positional[index]?.getD .null

namespace Program

def ok (value : Value) : Program := finish (.ok value)

def fail (fault : Fault) : Program := finish (.error fault)

/-- Ends with the outcome of an entry. -/
def ofOutcome : Except Failure Value → Program
  | .ok value => ok value
  | .error failure => fail failure.fault

/-- Ends with the outcome of an entry, but returns an error that was raised. -/
def ofCaught : Except Failure Value → Program
  | .error (.exception envelope) => ok envelope
  | outcome => ofOutcome outcome

/-- Goes on with the string among the arguments. -/
def withText (value : Value) (next : String → Program) : Program :=
  match value with
  | .string s => next s
  | _ => fail .unsupported

/-- Applies updates to an object one after the other. -/
def updateAll (target : Ref .object) (next : Program) : List Object.Update → Program
  | [] => next
  | u :: rest => update target u fun
    | .ok () => updateAll target next rest
    | .error fault => fail fault

/-- Makes one array after the other, and goes on with all of them. -/
def newArrays (next : List Value → Program) (done : List Value) : List (List Value) → Program
  | [] => next done
  | values :: rest => newArray values fun v => newArrays next (done ++ [v]) rest

/-- Applies a setting whose amount is an integer from zero up to `bound`. -/
def configureWith (setting : Nat → Setting) (bound : Int) (amount : Value) : Program :=
  match amount with
  | .int i =>
    if 0 ≤ i.toInt ∧ i.toInt ≤ bound then configure (setting i.toInt.toNat) (ok .null)
    else fail .unsupported
  | _ => fail .unsupported

end Program

namespace Routine

open Program

/-- Describes what it was called with. -/
def describeCall : Routine := fun receiver args =>
  newArray args.positional fun positional =>
  newObject fun keywords =>
  updateAll keywords (newArray [receiver, positional, .object keywords] ok)
    (args.keywords.entries.map fun (name, value) => .set name value none)

/-- The keyword argument with the name given as an argument. -/
def keyword : Routine := fun _ args =>
  withText (args.valueAt 0) fun name => ok ((args.keyword? name).getD .null)

/-- Calls the first argument with the others. -/
def apply (next : Except Failure Value → Program) : Routine := fun _ args =>
  enter (.call (args.valueAt 0) .null (args.dropPositional 1)) next

/-- Calls the first argument on the second with the others. -/
def applyWith : Routine := fun _ args =>
  enter (.call (args.valueAt 0) (args.valueAt 1) (args.dropPositional 2)) ofOutcome

/-- Calls the method of the first argument that the second names. -/
def invoke : Routine := fun _ args =>
  withText (args.valueAt 1) fun name =>
  enter (.invoke (args.valueAt 0) name (args.dropPositional 2)) ofOutcome

def load : Routine := fun _ args =>
  withText (args.valueAt 0) fun name => enter (.load name) ofOutcome

def resume : Routine := fun _ _ => enter (.resume .unlimited) ofOutcome

/-- Fails with the fault that the first argument names. -/
def fault : Routine := fun _ args =>
  withText (args.valueAt 0) fun name =>
  fail ((Fault.ofSymbol? (args.valueAt 1) name).getD .unsupported)

/-- The name of the code and the instruction of every frame, outermost first. -/
def frames : Routine := fun _ _ =>
  backtrace fun frames =>
  newArrays (newArray · ok) [] (frames.map fun frame =>
    [(frame.code.name.map Value.string).getD .null, .int (Int64.ofNat frame.instruction)])

def depth : Routine := fun _ _ =>
  backtrace fun frames => ok (.int (Int64.ofNat frames.length))

/-- Reserves a const of the first argument. -/
def reserve : Routine := fun _ args =>
  match args.valueAt 0, args.valueAt 1 with
  | .object target, .string name => updateAll target (ok .null) [.reserveConst name]
  | _, _ => fail .unsupported

def typeName : Routine := fun _ args => ok (.string (args.valueAt 0).typeName)

/-- The routine with the given name; the others return null. -/
def ofName : String → Routine
  | "args" => describeCall
  | "keyword" => keyword
  | "apply" => apply ofOutcome
  | "apply_with" => applyWith
  | "try" => apply ofCaught
  | "invoke" => invoke
  | "load" => load
  | "resume" => resume
  | "fault" => fault
  | "backtrace" => frames
  | "depth" => depth
  | "budget" => fun _ args => configureWith .budget Int64.maxValue.toInt (args.valueAt 0)
  | "steps" => fun _ args => configureWith .stepsPerCharge (UInt16.size - 1) (args.valueAt 0)
  | "max_depth" => fun _ args => configureWith .maxDepth Int64.maxValue.toInt (args.valueAt 0)
  | "reserve" => reserve
  | "type" => typeName
  | _ => fun _ _ => ok .null

end Routine

/-- A part of the initialization of a native module. -/
inductive Definition where
  /-- Defines and exports a value. -/
  | value (name : String) (value : Value)
  /-- Defines and exports a native function. -/
  | routine (name : String) (routine : Routine)
  /-- Fails. -/
  | fail (fault : Fault)
  /-- Loads a module. -/
  | load (name : String)
deriving Inhabited

namespace Definition

/-- Defines and exports `name`. -/
def define (id : ModuleId) (object : Ref .object) (name : String) (value : Value)
    (next : Program) : Program :=
  Program.updateAll object next [.declareConst name value (some id), .export name (some id)]

/-- Executes the definitions of a module in order. -/
def execute (id : ModuleId) (object : Ref .object) : List Definition → Program
  | [] => .ok .null
  | value name v :: rest => define id object name v (execute id object rest)
  | routine name r :: rest =>
    .newFunction name id r fun f => define id object name f (execute id object rest)
  | fail fault :: _ => .fail fault
  | load name :: rest => .enter (.load name) fun
    | .ok _ => execute id object rest
    | .error failure => .fail failure.fault

end Definition

end FiberMachine
