namespace Peg.Decimal

/-- The quotient rounded to the nearest integer, and to the even one of two that are as near. -/
def roundDiv (num den : Nat) : Nat :=
  let q := num / den
  match compare (2 * (num % den)) den with
  | .lt => q
  | .gt => q + 1
  | .eq => q + q % 2

def digitCount (n : Nat) : Nat := (Nat.toDigits 10 n).length

/-- The exponent of the leading decimal digit of a positive fraction. -/
def leadingExponent (num den : Nat) : Int :=
  if den ≤ num then (digitCount (num / den) : Int) - 1
  else -(digitCount ((den + num - 1) / num - 1) : Int)

/-- A number with a fixed count of decimal digits, the leading one at the exponent. -/
structure Rounded where
  digits : Nat
  exponent : Int
deriving DecidableEq, Repr

/-- A positive fraction to `n` decimal digits. A number that rounds up to one digit more is a power
of ten. -/
def round (n num den : Nat) : Rounded :=
  let e := leadingExponent num den
  let shift := (n : Int) - 1 - e
  let digits := roundDiv (num * Nat.pow 10 shift.toNat) (den * Nat.pow 10 (-shift).toNat)
  if digits = Nat.pow 10 n then ⟨Nat.pow 10 (n - 1), e + 1⟩ else ⟨digits, e⟩

end Peg.Decimal
