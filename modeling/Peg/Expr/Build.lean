import Peg.Expr.Basic

namespace Peg

inductive BuildError where
  | badText
  | badRune
  | reversedRange
  | reversedCount
  | nothingToScanFor
deriving DecidableEq, Repr

def BuildError.message : BuildError → Octets
  | .badText => ascii "incorrect string literal"
  | .badRune => ascii "incorrect char literal"
  | .reversedRange => ascii "character range is reversed"
  | .reversedCount => ascii "repetition minimum exceeds maximum"
  | .nothingToScanFor => ascii "skip_to requires at least one literal"

def Literal.ofRaw (raw : Octets) : Except BuildError Literal :=
  match h : Escape.decode? raw with
  | some text => .ok ⟨raw, text, h⟩
  | none => .error .badText

/-- Both bounds are read before they are compared, the lower one first. -/
def RuneRange.ofRaw (rawLow rawHigh : Octets) : Except BuildError RuneRange :=
  match hl : Escape.decodeRune? rawLow, hh : Escape.decodeRune? rawHigh with
  | some low, some high =>
      if h : low ≤ high then .ok ⟨rawLow, rawHigh, low, high, hl, hh, h⟩ else .error .reversedRange
  | _, _ => .error .badRune

def Count.ofBounds (low high : Nat) : Except BuildError Count :=
  if h : low ≤ high then .ok (.between low high h) else .error .reversedCount

namespace Expr

/-- A scan for texts given as a grammar writes them. The first faulty one is reported. -/
def scanFor : List Octets → Except BuildError Expr
  | [] => .error .nothingToScanFor
  | raw :: raws => do
      let first ← Literal.ofRaw raw
      let rest ← raws.mapM Literal.ofRaw
      return scan first rest

/-- Sequences and choices of several parts nest to the right. -/
def seqAll (e : Expr) : List Expr → Expr
  | [] => e
  | f :: rest => seq e (seqAll f rest)

def choiceAll (e : Expr) : List Expr → Expr
  | [] => e
  | f :: rest => choice e (choiceAll f rest)

end Expr

end Peg
