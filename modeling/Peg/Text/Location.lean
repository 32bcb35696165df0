import Peg.Utf8.Decode

namespace Peg

/-- The length of the line ending at the start of a text: one for CR or LF, two for CRLF. -/
def lineEnding : Octets → Nat
  | [] => 0
  | c :: rest =>
      if c = newline then 1
      else if c = carriageReturn then
        match rest with
        | [] => 1
        | d :: _ => if d = newline then 2 else 1
      else 0

/-- The line endings of a text, where an LF right behind a CR is part of the CR's ending. -/
def lineEndings (behindReturn : Bool) : Octets → Nat
  | [] => 0
  | c :: rest =>
      if c = carriageReturn then 1 + lineEndings true rest
      else if c = newline then (if behindReturn then 0 else 1) + lineEndings false rest
      else lineEndings false rest

/-- What follows the last line ending, where `line` is the text since the line began. -/
def lastLine (line : Octets) : Octets → Octets
  | [] => line
  | c :: rest => if c = carriageReturn ∨ c = newline then lastLine rest rest else lastLine line rest

/-- How far a tab moves: by `width` columns, but back to a column after a multiple of `alignment`. A
width of zero makes a tab an ordinary rune, and an alignment of zero lets it stop anywhere. -/
structure TabStops where
  width : Nat := 8
  alignment : Nat := 8
deriving DecidableEq, Repr

/-- Lines and columns count from one. -/
structure Location where
  line : Nat
  column : Nat
deriving DecidableEq, Repr

def TabStops.tabTo (tabs : TabStops) (column : Nat) : Nat :=
  let far := column + tabs.width
  let aligned := if tabs.alignment = 0 then far else far - (far - 1) % tabs.alignment
  max (min far aligned) (column + 1)

def TabStops.advance (tabs : TabStops) (column : Nat) (r : Rune) : Nat :=
  if r = 0x09 ∧ tabs.width ≠ 0 then tabs.tabTo column else column + 1

/-- Where a text ends that begins at line one and column one. -/
def TabStops.locationAfter (tabs : TabStops) (s : Octets) : Location where
  line := 1 + lineEndings false s
  column := (Utf8.runes (lastLine s s)).foldl tabs.advance 1

end Peg
