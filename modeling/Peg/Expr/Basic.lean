import Peg.Match
import Peg.Text.Escape

namespace Peg

/-- A text as a grammar writes it, and the text that it denotes. -/
structure Literal where
  raw : Octets
  text : Octets
  decodes : Escape.decode? raw = some text
deriving DecidableEq

/-- A range of runes with its bounds as a grammar writes them. -/
structure RuneRange where
  rawLow : Octets
  rawHigh : Octets
  low : Rune
  high : Rune
  low_decodes : Escape.decodeRune? rawLow = some low
  high_decodes : Escape.decodeRune? rawHigh = some high
  low_le_high : low ≤ high
deriving DecidableEq

/-- How often a repeated part has to match, and may match. -/
inductive Count where
  | zeroOrMore
  | oneOrMore
  | exactly (n : Nat)
  | atLeast (n : Nat)
  | atMost (n : Nat)
  | between (low high : Nat) (low_le_high : low ≤ high)
deriving DecidableEq

namespace Count

def min : Count → Nat
  | zeroOrMore => 0
  | oneOrMore => 1
  | exactly n => n
  | atLeast n => n
  | atMost _ => 0
  | between low _ _ => low

def max? : Count → Option Nat
  | zeroOrMore => none
  | oneOrMore => none
  | exactly n => some n
  | atLeast _ => none
  | atMost n => some n
  | between _ high _ => some high

theorem min_le_of_max? {c : Count} {n : Nat} (h : c.max? = some n) : c.min ≤ n := by
  cases c with
  | zeroOrMore | oneOrMore | atLeast => cases h
  | exactly m => simp only [max?, Option.some.injEq] at h; subst h; exact Nat.le_refl _
  | atMost m => exact Nat.zero_le _
  | between low high low_le_high =>
      simp only [max?, Option.some.injEq] at h
      subst h
      exact low_le_high

end Count

inductive Expr where
  | literal (l : Literal)
  | folded (l : Literal)
  | range (r : RuneRange)
  | ref (name : Octets)
  | look (polarity : Polarity) (e : Expr)
  | seq (first second : Expr)
  | choice (first second : Expr)
  | optional (e : Expr)
  | repeated (count : Count) (e : Expr)
  | capture (e : Expr)
  | scan (first : Literal) (rest : List Literal)
deriving DecidableEq

end Peg
