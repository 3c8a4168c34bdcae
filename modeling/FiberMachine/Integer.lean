/-!
# Checked integer arithmetic

Operations on 64-bit integers that are absent when the result does not fit.
-/

namespace FiberMachine.Integer

/-- The 64-bit integer with the given value, if there is one. -/
def ofInt? (i : Int) : Option Int64 :=
  if Int64.minValue.toInt ≤ i ∧ i ≤ Int64.maxValue.toInt then some (Int64.ofInt i) else none

def add? (a b : Int64) : Option Int64 := ofInt? (a.toInt + b.toInt)

def sub? (a b : Int64) : Option Int64 := ofInt? (a.toInt - b.toInt)

def mul? (a b : Int64) : Option Int64 := ofInt? (a.toInt * b.toInt)

def neg? (a : Int64) : Option Int64 := ofInt? (-a.toInt)

/-- The quotient toward zero, absent for a zero divisor. -/
def div? (a b : Int64) : Option Int64 :=
  if b = 0 then none else ofInt? (a.toInt.tdiv b.toInt)

/-- The remainder of the quotient toward zero, absent where that quotient is. -/
def rem? (a b : Int64) : Option Int64 :=
  if b = 0 then none else (div? a b).bind fun _ => ofInt? (a.toInt.tmod b.toInt)

/-- The integer as a number of places to shift by, which has 32 bits. -/
def places? (b : Int64) : Option UInt32 :=
  if 0 ≤ b.toInt ∧ b.toInt < UInt32.size then some b.toInt.toNat.toUInt32 else none

/-- A shift by fewer places than the word has. -/
def shift? (op : Int64 → Int64 → Int64) (a : Int64) (places : UInt32) : Option Int64 :=
  if places < 64 then some (op a (Int64.ofNat places.toNat)) else none

/-- The bits moved up; those that leave the word are lost. -/
def shiftLeft? : Int64 → UInt32 → Option Int64 := shift? (· <<< ·)

/-- The bits moved down, with copies of the sign. -/
def shiftRight? : Int64 → UInt32 → Option Int64 := shift? (· >>> ·)

end FiberMachine.Integer
