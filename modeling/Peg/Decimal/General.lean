import Peg.Decimal.Rounded
import Peg.Octets

namespace Peg.Decimal

/-- How numbers are written: the count of digits, and the least exponent that is written without an
exponent mark. -/
structure Notation where
  digits : Nat := 6
  plainFrom : Int := -4

def zero : UInt8 := 0x30

def withoutTrailingZeros (s : Octets) : Octets := (s.reverse.dropWhile (· = zero)).reverse

/-- A point and the digits behind it, or nothing if they are all zero. -/
def fraction (s : Octets) : Octets :=
  let s := withoutTrailingZeros s
  if s.isEmpty then [] else ascii "." ++ s

/-- At least two digits, behind a sign. -/
def exponentMark (e : Int) : Octets :=
  let digits := decimal e.natAbs
  ascii (if e < 0 then "e-" else "e+") ++ List.replicate (2 - digits.length) zero ++ digits

/-- A rounded number without a sign. It is written plainly unless that takes more digits than it
has, or too many zeros in front. -/
def Notation.layout (n : Notation) (r : Rounded) : Octets :=
  let digits := decimal r.digits
  if r.exponent < n.plainFrom ∨ (n.digits : Int) ≤ r.exponent then
    digits.take 1 ++ fraction (digits.drop 1) ++ exponentMark r.exponent
  else if r.exponent < 0 then
    [zero] ++ fraction (List.replicate (-r.exponent - 1).toNat zero ++ digits)
  else
    let whole := r.exponent.toNat + 1
    digits.take whole ++ fraction (digits.drop whole)

end Peg.Decimal
