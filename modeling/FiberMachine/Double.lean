/-!
# Doubles by their bits

A `Double` is a 64-bit floating point number held as its IEEE 754 bits, so that equality of
doubles distinguishes the two zeros and every NaN payload. The numeric relations `equals` and
`compare` are separate operations.
-/

namespace FiberMachine

/-- A 64-bit floating point number, given by its bits. -/
structure Double where
  bits : UInt64
deriving DecidableEq, Inhabited

namespace Double

/-- The bits of the exponent of an infinity, with a zero sign. -/
def infinityBits : UInt64 := 0x7ff0000000000000

/-- The bits without the sign. -/
def magnitude (d : Double) : UInt64 := d.bits &&& 0x7fffffffffffffff

/-- Whether the sign bit is set. -/
def isNegative (d : Double) : Bool := d.bits &&& 0x8000000000000000 != 0

def isNaN (d : Double) : Bool := infinityBits < d.magnitude

def isInfinite (d : Double) : Bool := d.magnitude == infinityBits

/-- Both zeros. -/
def isZero (d : Double) : Bool := d.magnitude == 0

def toFloat (d : Double) : Float := Float.ofBits d.bits

/-- The nearest double, ties to even. -/
def ofInt64 (i : Int64) : Double := ⟨i.toFloat.toBits⟩

/-- The nearest double, ties to even. -/
def ofUInt64 (n : UInt64) : Double := ⟨n.toFloat.toBits⟩

/-- The double nearest to a power of ten. -/
def powerOfTen (exponent : Nat) : Double := ⟨(Float.ofScientific 1 false exponent).toBits⟩

/-- What an operation without a meaningful result yields: the quiet NaN with its sign set. -/
def undefined : Double := ⟨0xfff8000000000000⟩

/-- A NaN in its quiet form, which keeps sign and payload. -/
def quiet (d : Double) : Double := ⟨d.bits ||| 0x0008000000000000⟩

/--
Applies an arithmetic operation. A NaN operand is passed through, the left one first, and an
operation on numbers that yields no number gives `undefined`.
-/
def arithmetic (op : Float → Float → Float) (a b : Double) : Double :=
  if a.isNaN then a.quiet
  else if b.isNaN then b.quiet
  else
    let result := op a.toFloat b.toFloat
    if result.isNaN then undefined else ⟨result.toBits⟩

def add : Double → Double → Double := arithmetic (· + ·)
def sub : Double → Double → Double := arithmetic (· - ·)
def mul : Double → Double → Double := arithmetic (· * ·)
def div : Double → Double → Double := arithmetic (· / ·)

/-- Flips the sign, also of a zero or a NaN. -/
def neg (d : Double) : Double := ⟨d.bits ^^^ 0x8000000000000000⟩

/-- The top bit of a mantissa, which is not stored. -/
def implicitBit : Nat := 0x10000000000000

/-- A finite magnitude as `m · 2 ^ (e - 1075)` with `1 ≤ e`. -/
def scaled (d : Double) : Nat × Nat :=
  let m := (d.magnitude &&& 0x000fffffffffffff).toNat
  let e := (d.magnitude >>> 52).toNat
  if e = 0 then (m, 1) else (m + implicitBit, e)

/--
The bits of `m · 2 ^ (e - 1075)` for `m < 2 ^ 53` and `1 ≤ e`: the mantissa is shifted up while
the exponent allows it and its top bit is not set.
-/
def magnitudeOf (m : Nat) : Nat → UInt64
  | 0 => 0
  | 1 => m.toUInt64
  | e + 2 =>
    if m < implicitBit then magnitudeOf (2 * m) (e + 1)
    else (m - implicitBit + (e + 2) * implicitBit).toUInt64

/--
The remainder of truncated division, exact and with the sign of the dividend. An infinite
dividend or a zero divisor gives `undefined`; an infinite divisor leaves the dividend.
-/
def rem (a b : Double) : Double :=
  if a.isNaN then a.quiet
  else if b.isNaN then b.quiet
  else if a.isInfinite || b.isZero then undefined
  else if b.isInfinite then a
  else
    let (m, e) := a.scaled
    let (n, f) := b.scaled
    let low := min e f
    let r := (m <<< (e - low)) % (n <<< (f - low))
    let sign : UInt64 := if a.isNegative then 0x8000000000000000 else 0
    ⟨sign ||| magnitudeOf r low⟩

/-- Numeric equality: the zeros are equal and no NaN equals anything. -/
def equals (a b : Double) : Bool := a.toFloat == b.toFloat

/-- The numeric order, absent when either side is a NaN. -/
def compare (a b : Double) : Option Ordering :=
  if a.toFloat < b.toFloat then some .lt
  else if a.toFloat == b.toFloat then some .eq
  else if b.toFloat < a.toFloat then some .gt
  else none

end Double

end FiberMachine
