import FiberMachine.Execution

/-!
# Worlds

A machine together with its fibers. One fiber runs at a time, until it is settled; a fiber that
waits for a module goes on in a later run.
-/

namespace FiberMachine

structure World where
  machine : Machine := {}
  /-- The fibers by number; a dropped one leaves its number unused. -/
  fibers : Array (Option Fiber) := #[]
deriving Inhabited

namespace World

def fiber? (w : World) (id : FiberId) : Option Fiber := w.fibers.getD id.index none

def setFiber (w : World) (id : FiberId) (fiber : Option Fiber) : World :=
  { w with fibers := w.fibers.setIfInBounds id.index fiber }

def modifyFiber (w : World) (id : FiberId) (f : Fiber → Fiber) : World :=
  { w with fibers := w.fibers.modify id.index (·.map f) }

/-- Makes a new fiber. -/
def spawn (w : World) : FiberId × World :=
  let id : FiberId := ⟨w.fibers.size⟩
  let machine := { w.machine with waits := w.machine.waits.push none }
  (id, { machine, fibers := w.fibers.push (some {}) })

/-- The modules that a fiber is loading. -/
def loadedBy (w : World) (id : FiberId) : List ModuleId :=
  ((List.range w.machine.modules.size).map ModuleId.mk).filter fun module =>
    ((w.machine.module? module).map ModuleEntry.state) = some (.loading id)

/-- Fails modules that nobody loads any more. -/
def failAll (m : Machine) : List ModuleId → Machine
  | [] => m
  | module :: rest =>
    let (error, m) := m.onHeap (·.envelope [] .moduleFailed)
    failAll (m.finishModule module (some error)) rest

/-- Removes a fiber; the modules it was loading have failed. -/
def drop (w : World) (id : FiberId) : World :=
  let modules := w.loadedBy id
  let w := w.setFiber id none
  { w with machine := failAll (w.machine.setWait id none) modules }

/-- Lets a fiber start an entry. It runs when driven. -/
def start (w : World) (id : FiberId) (entry : Entry) : World :=
  match w.fiber? id with
  | none => w
  | some fiber =>
    let ⟨machine, _, fiber⟩ := Context.start ⟨w.machine, id, fiber⟩ entry .host
    setFiber { w with machine } id (some fiber)

/-- Runs a fiber until it is settled, by at most `fuel` transitions. -/
def drive (fuel : Nat) (w : World) (id : FiberId) : World :=
  match w.fiber? id with
  | none => w
  | some fiber =>
    let ⟨machine, fibers⟩ := w
    let fibers := fibers.setIfInBounds id.index none
    let ⟨machine, _, fiber⟩ := Context.drive fuel ⟨machine, id, fiber⟩
    { machine, fibers := fibers.setIfInBounds id.index (some fiber) }

/-- The outcome of the last entry on a fiber, if it has ended. -/
def outcome? (w : World) (id : FiberId) : Option (Except Failure Value) :=
  (w.fiber? id).bind Fiber.outcome?

end World

end FiberMachine
