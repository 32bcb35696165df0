import Peg.Match

namespace Peg

/-- The rules that were wanted in vain at an offset, and those that were not wanted and yet
matched. -/
structure Attempts where
  offset : Nat := 0
  expected : Array Octets := #[]
  unexpected : Array Octets := #[]
deriving DecidableEq, Repr

structure AttemptCount where
  expected : Nat
  unexpected : Nat
deriving DecidableEq, Repr

def AttemptCount.total (c : AttemptCount) : Nat := c.expected + c.unexpected

namespace Attempts

def countAt (p : Nat) (a : Attempts) : AttemptCount :=
  if p = a.offset then ⟨a.expected.size, a.unexpected.size⟩ else ⟨0, 0⟩

def cutTo (c : AttemptCount) (a : Attempts) : Attempts :=
  { a with expected := a.expected.shrink c.expected, unexpected := a.unexpected.shrink c.unexpected }

def add (name : Octets) : Polarity → Attempts → Attempts
  | .positive, a => { a with expected := a.expected.push name }
  | .negative, a => { a with unexpected := a.unexpected.push name }

/-- Puts a rule on record that was tried at `p`, where `before` counts the record when it began. It
takes the place of what its parts put there, except that a single part says more than the rule. Only
the furthest offset is kept. -/
def record (name : Octets) (polarity : Polarity) (p : Nat) (before : AttemptCount) (a : Attempts) :
    Attempts :=
  if (a.countAt p).total = before.total + 1 ∨ p < a.offset then a
  else if p = a.offset then (a.cutTo before).add name polarity
  else ({ offset := p } : Attempts).add name polarity

end Attempts

end Peg
