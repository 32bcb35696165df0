import Peg.Utf8.Decode

namespace Peg.Utf8

/-- The small letter of a capital one, in the ASCII, Latin-1, Greek and Cyrillic blocks. Every other
rune is its own fold. -/
def fold (r : Rune) : Rune :=
  if 0x41 ≤ r ∧ r ≤ 0x5A then r + 0x20
  else if 0xC0 ≤ r ∧ r ≤ 0xDE ∧ r ≠ 0xD7 then r + 0x20
  else if 0x391 ≤ r ∧ r ≤ 0x3AB ∧ r ≠ 0x3A2 then r + 0x20
  else if 0x400 ≤ r ∧ r ≤ 0x40F then r + 0x50
  else if 0x410 ≤ r ∧ r ≤ 0x42F then r + 0x20
  else r

def foldedPrefixAtMost : Nat → Octets → Octets → Option Nat
  | _, _, [] => some 0
  | 0, _, _ => none
  | _ + 1, [], _ :: _ => none
  | n + 1, c :: s, d :: t =>
      let a := decode (c :: s)
      let b := decode (d :: t)
      if fold a.rune = fold b.rune then
        (foldedPrefixAtMost n ((c :: s).drop a.size) ((d :: t).drop b.size)).map (a.size + ·)
      else none

/-- How many octets of `s` its leading runes take that fold as the runes of `t` do, if there are
such. -/
def foldedPrefix? (s t : Octets) : Option Nat := foldedPrefixAtMost t.length s t

end Peg.Utf8
