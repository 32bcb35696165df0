import Peg.Decimal.Double

namespace Peg.Decimal

/-- Blanks that may stand before a number: space, tab, line feed, vertical tab, form feed, carriage
return. -/
def IsSpace (c : UInt8) : Prop := c = 0x20 ∨ 0x09 ≤ c ∧ c ≤ 0x0D

instance (c : UInt8) : Decidable (IsSpace c) := inferInstanceAs (Decidable (_ ∨ _))

/-- The 64-bit number at the start of a text, behind blanks and a sign. A negative number counts
down from zero, round to the greatest one. -/
def readWord? (s : Octets) : Option Nat :=
  let s := s.dropWhile fun c => decide (IsSpace c)
  let negative := decide (s.head? = some 0x2D)
  let s := if s.head? = some 0x2D ∨ s.head? = some 0x2B then s.drop 1 else s
  let digits := s.takeWhile fun c => decide (IsDigit c)
  let n := digitsValue 0 digits
  if digits = [] ∨ Nat.pow 2 64 ≤ n then none
  else some (if negative then (Nat.pow 2 64 - n) % Nat.pow 2 64 else n)

end Peg.Decimal
