import Peg.Decimal.General

namespace Peg.Decimal

/-- What the bits of a double say. A finite one is a mantissa times a power of two. -/
inductive Double where
  | finite (negative : Bool) (mantissa : Nat) (exponent : Int)
  | infinite (negative : Bool)
  | notANumber
deriving DecidableEq, Repr

def Double.ofBits (bits : Nat) : Double :=
  let negative := decide (Nat.pow 2 63 ≤ bits)
  let biased : Nat := bits / Nat.pow 2 52 % Nat.pow 2 11
  let mantissa : Nat := bits % Nat.pow 2 52
  if biased = 0 then .finite negative mantissa (-1074)
  else if biased < Nat.pow 2 11 - 1 then .finite negative (Nat.pow 2 52 + mantissa) ((biased : Int) - 1075)
  else if mantissa = 0 then .infinite negative
  else .notANumber

def sign (negative : Bool) : Octets := ascii (if negative then "-" else "")

def Notation.text (n : Notation) : Double → Octets
  | .finite negative 0 _ => sign negative ++ [zero]
  | .finite negative mantissa e =>
      sign negative ++ n.layout (round n.digits (mantissa * Nat.pow 2 e.toNat) (Nat.pow 2 (-e).toNat))
  | .infinite negative => sign negative ++ ascii "inf"
  | .notANumber => ascii "nan"

def writeFloat (n : Notation) (f : Float) : Octets := n.text (.ofBits f.toBits.toNat)

def IsDigit (c : UInt8) : Prop := zero ≤ c ∧ c ≤ 0x39

instance (c : UInt8) : Decidable (IsDigit c) := inferInstanceAs (Decidable (_ ∧ _))

def digitsValue (acc : Nat) : Octets → Nat
  | [] => acc
  | c :: rest => digitsValue (10 * acc + (c.toNat - zero.toNat)) rest

/-- An unsigned decimal number as an integer and the count of its digits behind the point. -/
def readDecimal (s : Octets) : Nat × Nat :=
  let whole := s.takeWhile fun c => decide (IsDigit c)
  let places := (s.drop (whole.length + 1)).takeWhile fun c => decide (IsDigit c)
  (digitsValue 0 (whole ++ places), places.length)

/-- Whether `m / 10 ^ places` is below the normal doubles, even after rounding, and no double. -/
def Underflows (m places : Nat) : Prop :=
  m * Nat.pow 2 1076 < (Nat.pow 2 54 - 1) * Nat.pow 10 places ∧ m * Nat.pow 2 1074 % Nat.pow 10 places ≠ 0

instance (m places : Nat) : Decidable (Underflows m places) := inferInstanceAs (Decidable (_ ∧ _))

/-- The double nearest to an unsigned decimal number, unless it is out of the range of doubles. -/
def readFloat? (s : Octets) : Option Float :=
  let (m, places) := readDecimal s
  let f := Float.ofScientific m true places
  if f.isInf ∨ Underflows m places then none else some f

end Peg.Decimal
