import Peg.Octets

namespace Peg

/-- A code point. Only some code points are Unicode scalar values. -/
abbrev Rune := Nat

namespace Utf8

/-- A Unicode scalar value: at most U+10FFFF and no surrogate. -/
def IsScalar (r : Rune) : Prop := r < 0x110000 ∧ ¬(0xD800 ≤ r ∧ r < 0xE000)

instance (r : Rune) : Decidable (IsScalar r) := inferInstanceAs (Decidable (_ ∧ _))

/-- Stands for what is not a scalar value and for what is not well-formed. -/
def replacement : Rune := 0xFFFD

def continuation (bits : Nat) : UInt8 := (0x80 + bits % 0x40).toUInt8

def encodeScalar (r : Rune) : Octets :=
  if r < 0x80 then [r.toUInt8]
  else if r < 0x800 then [(0xC0 + r / 0x40).toUInt8, continuation r]
  else if r < 0x10000 then
    [(0xE0 + r / 0x1000).toUInt8, continuation (r / 0x40), continuation r]
  else
    [(0xF0 + r / 0x40000).toUInt8, continuation (r / 0x1000), continuation (r / 0x40), continuation r]

def encode? (r : Rune) : Option Octets := if IsScalar r then some (encodeScalar r) else none

/-- The encoding of a scalar value, and that of U+FFFD for any other number. -/
def encode (r : Rune) : Octets := (encode? r).getD (encodeScalar replacement)

theorem encode_of_isScalar {r : Rune} (h : IsScalar r) : encode r = encodeScalar r := by
  simp only [encode, encode?, if_pos h, Option.getD_some]

end Utf8

end Peg
