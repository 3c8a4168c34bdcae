import FiberMachine.Bitcode.Basic

/-!
# Building functions

A `Builder` holds a function under construction, the next label it may hand out, and the source
range recorded for the operations pushed from now on.
-/

namespace FiberMachine.Bitcode

/-- A function under construction. -/
structure Builder where
  name : Option String := none
  signature : Signature := {}
  captures : List Capture := []
  ops : List Op := []
  ranges : List SourceRange := []
  regions : List TryRegion := []
  nextLabel : Label := 0
  range : SourceRange := {}
deriving Inhabited

namespace Builder

/-- The function built so far. -/
def function (b : Builder) : Function :=
  ⟨b.name, b.signature, b.captures, b.ops, b.ranges, b.regions⟩

/-- Appends an operation with the current source range. -/
def push (b : Builder) (op : Op) : Builder :=
  { b with ops := b.ops ++ [op], ranges := b.ranges ++ [b.range] }

def extend (b : Builder) (ops : List Op) : Builder := ops.foldl push b

/-- One more than the highest label that `ops` mark, or zero. -/
def labelBound (ops : List Op) : Label :=
  (ops.filterMap Op.marked?).foldl (fun bound l => max bound (l + 1)) 0

/-- A label above every label that was handed out or is marked. -/
def newLabel (b : Builder) : Label × Builder :=
  let label := max b.nextLabel (labelBound b.ops)
  (label, { b with nextLabel := label + 1 })

/-- Marks `label` here. -/
def mark (b : Builder) (label : Label) : Builder := b.push (.label label)

/-- Handles the errors of the operations between two labels at a third one. -/
def protect (b : Builder) (region : TryRegion) : Builder :=
  { b with regions := b.regions ++ [region] }

/-- Pushes the operation that loads `literal`. -/
def load (b : Builder) (literal : Literal) : Builder := b.push (.constant literal)

/--
Pushes a call of the callable and receiver on the stack. The operations of each argument leave one
value, which becomes a positional argument.
-/
def callWith (b : Builder) (args : List (List Op)) : Builder :=
  let b := b.push (.plain .newArgs rfl)
  let b := args.foldl (fun b ops => (b.extend ops).push (.plain .pushArg rfl)) b
  b.push (.plain .call rfl)

end Builder

end FiberMachine.Bitcode
