/-!
# Hexadecimal text
-/

namespace FiberMachine.Text

def hexDigit (n : Nat) : Char :=
  if n < 10 then Char.ofNat ('0'.toNat + n) else Char.ofNat ('a'.toNat + (n - 10))

/-- The value of a hexadecimal digit of either case. -/
def hexValue? (c : Char) : Option Nat :=
  if '0' ≤ c ∧ c ≤ '9' then some (c.toNat - '0'.toNat)
  else if 'a' ≤ c ∧ c ≤ 'f' then some (c.toNat - 'a'.toNat + 10)
  else if 'A' ≤ c ∧ c ≤ 'F' then some (c.toNat - 'A'.toNat + 10)
  else none

/-- The number whose digits follow those of `acc`. -/
def hexNumber? (acc : Nat) : List Char → Option Nat
  | [] => some acc
  | c :: rest => do hexNumber? (16 * acc + (← hexValue? c)) rest

/-- The last `count` digits of `n`, in front of `rest`. -/
def hexDigits : Nat → Nat → List Char → List Char
  | 0, _, rest => rest
  | count + 1, n, rest => hexDigits count (n / 16) (hexDigit (n % 16) :: rest)

/-- Two digits per byte. -/
def hexOfBytes (bytes : List UInt8) : String :=
  String.ofList (bytes.flatMap fun b => hexDigits 2 b.toNat [])

/-- The bytes of pairs of digits. -/
def bytesOfHex? : List Char → Option (List UInt8)
  | [] => some []
  | [_] => none
  | a :: b :: rest => do
    let high ← hexValue? a
    let low ← hexValue? b
    return (16 * high + low).toUInt8 :: (← bytesOfHex? rest)

/-- Sixteen digits. -/
def hexOfWord (word : UInt64) : String := String.ofList (hexDigits 16 word.toNat [])

/-- The word of exactly sixteen digits. -/
def wordOfHex? (text : String) : Option UInt64 :=
  let digits := text.toList
  if digits.length = 16 then (hexNumber? 0 digits).map Nat.toUInt64 else none

theorem hexValue?_hexDigit {n : Nat} (h : n < 16) : hexValue? (hexDigit n) = some n := by
  have hall : ∀ n : Fin 16, hexValue? (hexDigit n) = some n.val := by decide
  exact hall ⟨n, h⟩

theorem length_hexDigits (count n : Nat) (rest : List Char) :
    (hexDigits count n rest).length = count + rest.length := by
  induction count generalizing n rest with
  | zero => exact (Nat.zero_add _).symm
  | succ count ih =>
    rw [hexDigits, ih, List.length_cons]
    omega

/-- The digits that were split off one by one lead from what was left back to the number. -/
theorem hexNumber?_hexDigits (count n : Nat) (rest : List Char) :
    hexNumber? (n >>> (4 * count)) (hexDigits count n rest) = hexNumber? n rest := by
  induction count generalizing n rest with
  | zero => rfl
  | succ count ih =>
    have hshift : n >>> (4 * (count + 1)) = (n / 16) >>> (4 * count) := by
      rw [Nat.mul_succ, Nat.add_comm, Nat.shiftRight_add, Nat.shiftRight_eq_div_pow n 4]
    rw [hexDigits, hshift, ih, hexNumber?, hexValue?_hexDigit (Nat.mod_lt n (by decide))]
    exact congrArg (hexNumber? · rest) (Nat.div_add_mod n 16)

theorem wordOfHex?_hexOfWord (word : UInt64) : wordOfHex? (hexOfWord word) = some word := by
  have hleft : word.toNat >>> (4 * 16) = 0 := by
    rw [Nat.shiftRight_eq_div_pow]
    exact Nat.div_eq_of_lt word.toNat_lt
  have hdigits := hexNumber?_hexDigits 16 word.toNat []
  rw [hleft] at hdigits
  have hlength : (hexDigits 16 word.toNat []).length = 16 := length_hexDigits ..
  simp only [wordOfHex?, hexOfWord, String.toList_ofList, hlength, hdigits, hexNumber?]
  exact congrArg some UInt64.ofNat_toNat

end FiberMachine.Text
