import Peg.Octets

namespace Peg

/-- A source of octets with its status: the end was met, a read got nothing, the source broke. -/
structure Stream where
  rest : Octets
  atEnd : Bool := false
  failed : Bool := false
  broken : Bool := false
deriving DecidableEq, Repr

inductive StreamError where
  | broken
deriving DecidableEq, Repr

def StreamError.message : StreamError → Octets
  | .broken => ascii "error reading input stream: iostream error"

namespace Stream

def ofOctets (s : Octets) : Stream := { rest := s }

def isGood (s : Stream) : Bool := !s.atEnd && !s.failed && !s.broken

/-- Whether the last read, if any, got something. -/
def isSound (s : Stream) : Bool := !s.failed && !s.broken

def clear (s : Stream) : Stream := { s with atEnd := false, failed := false, broken := false }

def breakOff (s : Stream) : Stream := { s with broken := true }

/-- Splits a text behind the first delimiter. Without one, the whole text comes first. -/
def splitBehind (delimiter : UInt8) : Octets → Octets × Octets
  | [] => ([], [])
  | c :: rest =>
      if c = delimiter then ([c], rest)
      else
        let (taken, left) := splitBehind delimiter rest
        (c :: taken, left)

/-- A read that ended with the octets `taken`. It fails if it took none. -/
def settle (taken rest : Octets) (endMet : Bool) (s : Stream) : Octets × Stream :=
  (taken, { s with rest := rest, atEnd := endMet, failed := taken.isEmpty })

def readAll (s : Stream) : Octets × Stream :=
  if s.isGood then s.settle s.rest [] true else ([], { s with failed := true })

def readThrough (delimiter : UInt8) (s : Stream) : Octets × Stream :=
  if s.isGood then
    let (taken, rest) := splitBehind delimiter s.rest
    s.settle taken rest (taken.getLast? != some delimiter)
  else ([], { s with failed := true })

def readLine (s : Stream) : Octets × Stream := s.readThrough newline

def linesAtMost : Nat → Stream → List Octets
  | 0, _ => []
  | n + 1, s =>
      let (line, s) := s.readLine
      if s.isSound then line :: linesAtMost n s else []

def lines (s : Stream) : List Octets := linesAtMost (s.rest.length + 1) s

/-- The whole text, refused if the source is broken. -/
def readSource (s : Stream) : Except StreamError Octets × Stream :=
  let (text, s) := s.readAll
  (if s.broken then .error .broken else .ok text, s)

end Stream

end Peg
