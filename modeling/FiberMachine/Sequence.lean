import FiberMachine.Fault

/-!
# Arrays of values

A growable list of values. A sealed one still accepts writes to its elements, but its length is
fixed.
-/

namespace FiberMachine

structure Sequence where
  values : Array Value := #[]
  sealed : Bool := false
deriving Inhabited

namespace Sequence

def ofList (values : List Value) : Sequence := { values := values.toArray }

/-- The element position of an integer, if it lies within the sequence. -/
def position? (s : Sequence) (index : Int64) : Option Nat :=
  if 0 ≤ index.toInt ∧ index.toInt < s.values.size then some index.toInt.toNat else none

def get (s : Sequence) (index : Int64) : Except Fault Value :=
  match (s.position? index).bind (s.values[·]?) with
  | some value => .ok value
  | none => .error .outOfBounds

/-- Replaces an element and returns the previous one. -/
def set (s : Sequence) (index : Int64) (value : Value) : Except Fault (Value × Sequence) :=
  match s.position? index with
  | none => .error .outOfBounds
  | some i =>
    match s.values[i]? with
    | none => .error .outOfBounds
    | some previous => .ok (previous, { s with values := s.values.setIfInBounds i value })

def push (s : Sequence) (value : Value) : Except Fault Sequence :=
  if s.sealed then .error .sealed else .ok { s with values := s.values.push value }

/-- Appends several values. -/
def extend (s : Sequence) : List Value → Except Fault Sequence
  | [] => .ok s
  | value :: rest => do (← s.push value).extend rest

/-- Removes and returns the last element, if there is one. -/
def pop (s : Sequence) : Except Fault (Option Value × Sequence) :=
  if s.sealed then .error .sealed
  else .ok (s.values.back?, { s with values := s.values.pop })

/-- Fixes the length. -/
def close (s : Sequence) : Sequence := { s with sealed := true }

end Sequence

end FiberMachine
