import FiberMachine.Fiber
import FiberMachine.Step

/-!
# Executing fibers

One transition of a fiber on its machine, `Context.advance`, and runs of transitions. Nothing here
recurses through guest code or through programs of the host: calls in both directions are
suspended in the fiber's activity and frames.
-/

namespace FiberMachine

/-! ## Completing frames -/

/-- What completing frames leaves behind. -/
structure Unwound where
  machine : Machine
  frames : List Frame
  /-- The result of the run; none if it goes on in the top frame. -/
  result : Option (Except Value Value)

namespace Machine

/-- Makes of a frame's result what its caller receives. -/
def conclude (m : Machine) (continuation : Continuation) (result : Except Value Value) :
    Except Value Value × Machine :=
  match continuation, result with
  | .result, result => (result, m)
  | .negated, .ok value => (.ok (.bool !value.truthy), m)
  | .negated, .error e => (.error e, m)
  | .module id object, .ok value =>
    let m := m.finishModule id none
    match object, m.module? id with
    | true, some entry => (.ok (.object entry.object), m)
    | _, _ => (.ok value, m)
  | .module id _, .error e => (.error e, m.finishModule id (some e))

/--
Completes the top frame with a result, in a run of the frames above the first `base`. A value goes
to the caller's frame. An error completes one frame after the other until one of them handles it.
-/
def complete (base : Nat) : Machine → Except Value Value → List Frame → Unwound
  | m, result, [] => ⟨m, [], some result⟩
  | m, result, top :: rest =>
    let (result, m) := m.conclude top.continuation result
    if (rest.drop base).isEmpty then ⟨m, rest, some result⟩
    else
      match result, rest with
      | .ok value, frame :: below => ⟨m, frame.deliver value :: below, none⟩
      | .error e, frame :: below =>
        match frame.handle? e with
        | some frame => ⟨m, frame :: below, none⟩
        | none => complete base m (.error e) (frame :: below)
      | result, [] => ⟨m, [], some result⟩

/-- Discards the frames above the first `base`; the modules they load have failed. -/
def discard (base : Nat) : Machine → List Frame → Machine × List Frame
  | m, [] => (m, [])
  | m, top :: rest =>
    if ((top :: rest).drop base).isEmpty then (m, top :: rest)
    else
      match top.continuation with
      | .module id _ =>
        let (error, m) := m.onHeap (·.envelope rest .moduleFailed)
        discard base (m.finishModule id (some error)) rest
      | _ => discard base m rest

end Machine

/-! ## Transitions -/

/-- A fiber on its machine. -/
structure Context where
  machine : Machine
  id : FiberId
  fiber : Fiber
deriving Inhabited

namespace Context

def setActivity (c : Context) (activity : Activity) : Context :=
  let ⟨m, id, f⟩ := c
  ⟨m, id, { f with activity }⟩

def answer (c : Context) (result : Except Fault Value) (pending : Pending) : Context :=
  c.setActivity (.answered result pending)

/-- Makes a fault the envelope that is raised in the current frames. -/
def envelope (c : Context) (fault : Fault) : Value × Context :=
  let ⟨m, id, f⟩ := c
  let (error, m) := m.onHeap (·.envelope f.frames fault)
  (error, ⟨m, id, f⟩)

/-- Ends an entry. The deadline does not outlive a successful end of the outermost one. -/
def finish (c : Context) (result : Except Fault Value) (caller : Caller) : Context :=
  match result with
  | .ok value =>
    let ⟨m, id, f⟩ := c
    let deadline := if f.frames.isEmpty then none else f.deadline
    ⟨m, id, { f with deadline, activity := .replied (.ok value) caller }⟩
  | .error .noBudget => c.setActivity (.replied (.error .noBudget) caller)
  | .error .timeout => c.setActivity (.replied (.error .timeout) caller)
  | .error (.link e) => c.setActivity (.replied (.error (.link e)) caller)
  | .error fault =>
    let (error, c) := c.envelope fault
    c.setActivity (.replied (.error (.exception error)) caller)

/-- Completes the top frame of a run. -/
def complete (c : Context) (result : Except Value Value) (base : Nat) (caller : Caller) : Context :=
  let ⟨m, id, ⟨frames, meter, deadline, maxDepth, _⟩⟩ := c
  let ⟨m, frames, finished⟩ := Machine.complete base m result frames
  let c : Context := ⟨m, id, ⟨frames, meter, deadline, maxDepth, .running base caller⟩⟩
  match finished with
  | none => c
  | some (.ok value) => c.finish (.ok value) caller
  | some (.error e) => c.finish (.error (.exception e)) caller

/-- Raises a fault in the top frame. -/
def raise (c : Context) (fault : Fault) (base : Nat) (caller : Caller) : Context :=
  let (error, ⟨m, id, f⟩) := c.envelope fault
  match f.frames with
  | frame :: rest =>
    match frame.handle? error with
    | some frame => ⟨m, id, { f with frames := frame :: rest, activity := .running base caller }⟩
    | none => complete ⟨m, id, f⟩ (.error error) base caller
  | [] => complete ⟨m, id, f⟩ (.error error) base caller

/--
Ends a run with a fatal fault. The outermost run keeps its frames when it ran out of budget or
time, so that it can be resumed; a run started by a program cannot be resumed midway.
-/
def abandon (c : Context) (fault : Fault) (base : Nat) (caller : Caller) : Context :=
  if base = 0 ∧ (fault = .noBudget ∨ fault = .timeout) then c.finish (.error fault) caller
  else
    let ⟨m, id, f⟩ := c
    let (m, frames) := Machine.discard base m f.frames
    finish ⟨m, id, { f with frames }⟩ (.error fault) caller

/-- Ends an instruction with a fault. -/
def fail (c : Context) (fault : Fault) (base : Nat) (caller : Caller) : Context :=
  if fault.isFatal then c.abandon fault base caller else c.raise fault base caller

/-- Delivers a value to the instruction that waits for it. -/
def deliver (c : Context) (value : Value) (base : Nat) (caller : Caller) : Context :=
  match c with
  | ⟨m, id, ⟨frame :: rest, meter, deadline, maxDepth, _⟩⟩ =>
    ⟨m, id, ⟨frame.deliver value :: rest, meter, deadline, maxDepth, .running base caller⟩⟩
  | c => c.raise .invalidInstruction base caller

/-- Executes a new frame, if the depth limit admits it. -/
def enter (c : Context) (frame : Frame) (pending : Pending) : Context :=
  match pending with
  | .instruction base negate caller =>
    if c.fiber.isFull then c.raise .stackOverflow base caller
    else
      let ⟨m, id, f⟩ := c
      let frame := if negate then { frame with continuation := .negated } else frame
      ⟨m, id, { f with frames := frame :: f.frames, activity := .running base caller }⟩
  | .entry caller =>
    if c.fiber.isFull then c.finish (.error .stackOverflow) caller
    else
      let ⟨m, id, f⟩ := c
      let activity := .running f.frames.length caller
      ⟨m, id, { f with frames := frame :: f.frames, activity }⟩

/-- Goes on with a prepared invocation. -/
def proceed (c : Context) (invocation : Machine.Invocation) (pending : Pending) : Context :=
  match invocation with
  | .complete value => c.answer (.ok value) pending
  | .enter frame => c.enter frame pending
  | .run program => c.setActivity (.program program (.call pending))
  | .fail fault => c.answer (.error fault) pending

def call (c : Context) (callable receiver : Value) (args : Arguments) (pending : Pending) :
    Context :=
  let ⟨m, id, f⟩ := c
  let (invocation, m) := m.prepareCall callable receiver args
  proceed ⟨m, id, f⟩ invocation pending

def invoke (c : Context) (target : Value) (name : String) (args : Arguments) (pending : Pending) :
    Context :=
  let ⟨m, id, f⟩ := c
  let (invocation, m) := m.prepareInvoke target name args f.currentModule?
  proceed ⟨m, id, f⟩ invocation pending

/-- Executes the current instruction of the top frame. -/
def instruct (c : Context) (base : Nat) (caller : Caller) : Context :=
  match c with
  | ⟨m, id, ⟨frame :: rest, meter, deadline, maxDepth, activity⟩⟩ =>
    let ((action, frame), m) := m.onHeap fun heap =>
      let (action, ⟨heap, frame⟩) := Exec.step.run ⟨heap, frame⟩
      ((action, frame), heap)
    let c : Context := ⟨m, id, ⟨frame :: rest, meter, deadline, maxDepth, activity⟩⟩
    match action with
    | .ok .next => c
    | .ok (.call callable receiver args negate) =>
      c.call callable receiver args (.instruction base negate caller)
    | .ok (.invoke target name args) => c.invoke target name args (.instruction base false caller)
    | .ok (.load name) => c.setActivity (.finding name (.instruction base false caller))
    | .ok (.return value) => c.complete (.ok value) base caller
    | .error fault => c.fail fault base caller
  | c => c.raise .invalidInstruction base caller

/-- Whether the deadline has passed. -/
def isLate (c : Context) : Bool := c.fiber.deadline = some .past

def clearDeadline (c : Context) : Context :=
  let ⟨m, id, f⟩ := c
  ⟨m, id, { f with deadline := none }⟩

/-- Charges for an instruction and executes it. -/
def run (c : Context) (base : Nat) (caller : Caller) : Context :=
  match c.fiber.meter.admit? with
  | none => c.abandon .noBudget base caller
  | some (meter, charged) =>
    let ⟨m, id, f⟩ := c
    let c : Context := ⟨m, id, { f with meter }⟩
    if charged && c.isLate then c.clearDeadline.abandon .timeout base caller
    else c.instruct base caller

/-- Starts an entry. -/
def start (c : Context) (entry : Entry) (caller : Caller) : Context :=
  match entry with
  | .execute _ .unrepresentable | .resume .unrepresentable =>
    c.setActivity (.replied (.error .timeout) caller)
  | .execute linked limit =>
    let ⟨m, id, f⟩ := c
    let deadline := match limit with
      | .deadline d => some d
      | _ => none
    let (module, m) := m.register linked
    ⟨m, id, { f with deadline, activity := .entering module false (.entry caller) }⟩
  | .load name => c.setActivity (.finding name (.entry caller))
  | .call callable receiver args => c.call callable receiver args (.entry caller)
  | .invoke target name args => c.invoke target name args (.entry caller)
  | .resume limit =>
    let ⟨m, id, f⟩ := c
    let deadline := match limit with
      | .deadline d => some d
      | _ => f.deadline
    let activity :=
      if f.frames.isEmpty then .replied (.ok .null) caller else .running 0 caller
    ⟨m, id, { f with deadline, activity }⟩

/-- Takes the next step of a program. -/
def step (c : Context) (program : Program) (purpose : Purpose) : Context :=
  match program with
  | .finish result =>
    match purpose with
    | .call pending => c.answer result pending
    | .load module pending =>
      match result with
      | .ok _ =>
        let ⟨m, id, f⟩ := c
        let m := m.finishModule module none
        let value := ((m.module? module).map (Value.object ·.object)).getD .null
        answer ⟨m, id, f⟩ (.ok value) pending
      | .error fault =>
        let (error, ⟨m, id, f⟩) := c.envelope (if fault.isFatal then .moduleFailed else fault)
        let fault := if fault.isFatal then fault else .exception error
        answer ⟨m.finishModule module (some error), id, f⟩ (.error fault) pending
  | .enter entry next => c.start entry (.program next purpose)
  | .newArray values next =>
    let ⟨m, id, f⟩ := c
    let (r, m) := m.onHeap (·.newArray (.ofList values))
    setActivity ⟨m, id, f⟩ (.program (next (.array r)) purpose)
  | .newObject next =>
    let ⟨m, id, f⟩ := c
    let (r, m) := m.onHeap (·.newObject {})
    setActivity ⟨m, id, f⟩ (.program (next r) purpose)
  | .newFunction name module routine next =>
    let ⟨m, id, f⟩ := c
    let (r, m) := m.onHeap (·.newFunction {
      module := some module, receiver := .null, body := .native name routine })
    setActivity ⟨m, id, f⟩ (.program (next (.function r)) purpose)
  | .read target next => c.setActivity (.program (next (c.machine.heap.content? target)) purpose)
  | .update target update next =>
    match c.machine.heap.updated target update with
    | .error fault => c.setActivity (.program (next (.error fault)) purpose)
    | .ok o =>
      let ⟨m, id, f⟩ := c
      let (_, m) := m.onHeap fun h => ((), h.setObject target o)
      setActivity ⟨m, id, f⟩ (.program (next (.ok ())) purpose)
  | .backtrace next => c.setActivity (.program (next (backtraceOf c.fiber.frames)) purpose)
  | .configure setting next =>
    let ⟨m, id, f⟩ := c
    setActivity ⟨m, id, f.configure setting⟩ (.program next purpose)

/-- Looks a module up by its name, among the known modules, the native ones and in the files. -/
def find (c : Context) (name : String) (pending : Pending) : Context :=
  match c.machine.names.get? name with
  | some module => c.setActivity (.entering module true pending)
  | none =>
    let ⟨m, id, f⟩ := c
    if m.natives.contains name then
      let (module, m) := m.registerNative name
      setActivity ⟨m, id, f⟩ (.entering module true pending)
    else
      let (result, workspace) := m.finder.resolve m.workspace name
      setActivity ⟨{ m with workspace }, id, f⟩ (.found name result pending)

/-- Registers a module that was found in the files, unless its name is known by now. -/
def adopt (c : Context) (name : String) (result : Except FinderError (Option LinkedModule))
    (pending : Pending) : Context :=
  match result with
  | .ok (some linked) =>
    match c.machine.names.get? name with
    | some module => c.setActivity (.entering module true pending)
    | none =>
      let ⟨m, id, f⟩ := c
      let (module, m) := m.register linked
      setActivity ⟨m, id, f⟩ (.entering module true pending)
  | .ok none => c.answer (.error .moduleNotFound) pending
  | .error (.invalidName _) => c.answer (.error .invalidModuleName) pending
  | .error (.link _ e) => c.answer (.error (.link e)) pending
  | .error e => c.answer (.error (.moduleUnavailable e)) pending

/-- Starts loading a registered module. -/
def load (c : Context) (module : ModuleId) (entry : ModuleEntry) (object : Bool)
    (pending : Pending) : Context :=
  let ⟨m, id, f⟩ := c
  let m := m.setState module (.loading id)
  match entry.body with
  | none =>
    let program := match m.natives.get? entry.name with
      | some initializer => initializer module entry.object
      | none => .finish (.error .moduleNotFound)
    setActivity ⟨m, id, f⟩ (.program program (.load module pending))
  | some code =>
    let self := Value.object entry.object
    let scope := { module, constants := entry.constants, globals := entry.object }
    let (bound, m) := m.onHeap fun h =>
      let (function, h) := h.newFunction {
        module := some module, receiver := self, body := .interpreted code [] }
      Frame.bind h function code [] scope self {}
    match bound with
    | .ok frame => enter ⟨m, id, f⟩ { frame with continuation := .module module object } pending
    | .error fault =>
      let (error, ⟨m, id, f⟩) := envelope ⟨m, id, f⟩ fault
      answer ⟨m.finishModule module (some error), id, f⟩ (.error (.exception error)) pending

/--
Enters a module: loads it, or waits for the fiber that does. A fiber that enters a module which it
is loading itself gets the unfinished module object.
-/
def enterModule (c : Context) (module : ModuleId) (object : Bool) (pending : Pending) : Context :=
  match c.machine.module? module with
  | none => c.answer (.error .invalidInstruction) pending
  | some entry =>
    match entry.state with
    | .loaded => c.answer (.ok (.object entry.object)) pending
    | .failed _ => c.answer (.error .moduleFailed) pending
    | .loading loader =>
      if loader = c.id then c.answer (.ok (.object entry.object)) pending
      else if c.machine.wouldDeadlock c.id loader then c.answer (.error .circularImport) pending
      else
        let ⟨m, id, f⟩ := c
        setActivity ⟨m.setWait id (some module), id, f⟩ (.waiting module object pending)
    | .registered => c.load module entry object pending

/-- Wakes up from waiting for a module. -/
def wake (c : Context) (module : ModuleId) (object : Bool) (pending : Pending) : Context :=
  let ⟨m, id, f⟩ := c
  let c : Context := ⟨m.setWait id none, id, f⟩
  if c.isLate then c.clearDeadline.answer (.error .timeout) pending
  else c.setActivity (.entering module object pending)

/-- One transition. -/
def advance (c : Context) : Context :=
  match c.fiber.activity with
  | .idle => c
  | .running base caller => c.run base caller
  | .program program purpose => c.step program purpose
  | .finding name pending => c.find name pending
  | .found name result pending => c.adopt name result pending
  | .entering module object pending => c.enterModule module object pending
  | .waiting module object pending => c.wake module object pending
  | .answered (.ok value) (.instruction base negate caller) =>
    c.deliver (if negate then .bool !value.truthy else value) base caller
  | .answered (.error fault) (.instruction base _ caller) => c.fail fault base caller
  | .answered result (.entry caller) => c.finish result caller
  | .replied outcome (.program next purpose) => c.setActivity (.program (next outcome) purpose)
  | .replied _ .host => c

/-- Whether the fiber has nothing to do, or nothing until another fiber has loaded a module. -/
def isSettled (c : Context) : Bool :=
  match c.fiber.activity with
  | .idle | .replied _ .host => true
  | .waiting module _ _ =>
    !c.isLate && match c.machine.module? module with
      | some { state := .loading _, .. } => true
      | _ => false
  | _ => false

/-- Advances until the fiber is settled, by at most `fuel` transitions. -/
def drive : Nat → Context → Context
  | 0, c => c
  | fuel + 1, c => if c.isSettled then c else drive fuel c.advance

end Context

end FiberMachine
