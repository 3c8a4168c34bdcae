/-!
# Budgets

A meter counts instructions. Each `stepsPerCharge` of them cost one unit of budget; without a
budget they cost nothing.
-/

namespace FiberMachine

structure Meter where
  /-- The units left, if budgeting is on. -/
  budget : Option Nat := none
  /-- The instructions until the next charge, that one included. -/
  counter : Nat := 16
  stepsPerCharge : Nat := 16
deriving DecidableEq, Inhabited

namespace Meter

/-- The largest budget. -/
def maxBudget : Nat := UInt64.size - 2

/-- Adds to the budget, which turns budgeting on. -/
def allocate (m : Meter) (amount : Nat) : Meter :=
  { m with budget := some (min (m.budget.getD 0 + amount) maxBudget) }

/-- Sets the number of instructions per unit, at least one. -/
def setSteps (m : Meter) (steps : Nat) : Meter :=
  let steps := max steps 1
  { m with stepsPerCharge := steps, counter := min m.counter steps }

/-- Takes one unit of budget, if there is one. -/
def charge? (m : Meter) : Option Meter :=
  match m.budget with
  | none => some { m with counter := m.stepsPerCharge }
  | some 0 => none
  | some (n + 1) => some { m with budget := some n, counter := m.stepsPerCharge }

/-- Admits an instruction, unless the budget is used up. The flag tells whether it was charged. -/
def admit? (m : Meter) : Option (Meter × Bool) :=
  if 1 < m.counter then some ({ m with counter := m.counter - 1 }, false)
  else m.charge?.map (·, true)

end Meter

end FiberMachine
