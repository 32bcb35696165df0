import Peg.Subject
import Peg.Utf8.Fold

namespace Peg

inductive Match where
  | matched (offset : Nat)
  | failed (offset : Nat)
deriving DecidableEq, Repr

inductive Polarity where
  | positive
  | negative
deriving DecidableEq, Repr

namespace Match

def offset : Match → Nat
  | matched p => p
  | failed p => p

def succeeded : Match → Bool
  | matched _ => true
  | failed _ => false

def andThen : Match → (Nat → Match) → Match
  | matched p, f => f p
  | failed p, _ => failed p

/-- An optional part that fails matches nothing at `p`. -/
def orNothing (p : Nat) : Match → Match
  | matched q => matched q
  | failed _ => matched p

/-- A whole that began at `p` fails at `p`, wherever its part failed. -/
def whole (p : Nat) : Match → Match
  | matched q => matched q
  | failed _ => failed p

/-- A look ahead from `p` moves nowhere. It succeeds if the attempt turned out as the polarity wants. -/
def lookedAhead (p : Nat) : Polarity → Match → Match
  | .positive, matched _ => matched p
  | .positive, failed _ => failed p
  | .negative, matched _ => failed p
  | .negative, failed _ => matched p

/-- The success that ends first, and the left result if the right one is no better. -/
def closer : Match → Match → Match
  | matched p, matched q => if q < p then matched q else matched p
  | failed _, matched q => matched q
  | a, failed _ => a

end Match

abbrev Matcher := Nat → Match

namespace Matcher

def chain : List Matcher → Matcher
  | [], p => .matched p
  | m :: ms, p => (m p).andThen (chain ms)

def optional (m : Matcher) : Matcher := fun p => (m p).orNothing p

def whole (m : Matcher) : Matcher := fun p => (m p).whole p

def look (polarity : Polarity) (m : Matcher) : Matcher := fun p => (m p).lookedAhead p polarity

/-- At most `n` matches on end, up to the first one that fails or does not advance. -/
def atMost (m : Matcher) : Nat → Matcher
  | 0, p => .matched p
  | n + 1, p =>
      match m p with
      | .matched q => if q ≤ p then .matched p else atMost m n q
      | .failed _ => .matched p

end Matcher

namespace Subject

variable (x : Subject)

/-- Matches on end, up to the first one that fails or does not advance. A subject has no room for
more of them than the bound allows. -/
def many (m : Matcher) : Matcher := fun p => m.atMost (x.size + 1 - p) p

def text (t : Octets) : Matcher := fun p =>
  if t.isPrefixOf (x.after p) then .matched (p + t.length) else .failed p

def foldedText (t : Octets) : Matcher := fun p =>
  match Utf8.foldedPrefix? (x.after p) t with
  | some n => .matched (p + n)
  | none => .failed p

def runeIn (low high : Rune) : Matcher := fun p =>
  match x.after p with
  | [] => .failed p
  | c :: rest =>
      let d := Utf8.decode (c :: rest)
      if low ≤ d.rune ∧ d.rune ≤ high then .matched (p + d.size) else .failed p

def forward? : Nat → Nat → Option Nat
  | 0, p => some p
  | n + 1, p =>
      match x.after p with
      | [] => none
      | c :: rest => forward? n (p + (Utf8.decode (c :: rest)).size)

def skip (n : Nat) : Matcher := fun p =>
  match x.forward? n p with
  | some q => .matched q
  | none => .failed p

/-- Moves to the next place where a text occurs, without matching the text itself. -/
def skipUntil (t : Octets) : Matcher := fun p =>
  match firstOccurrence? t (x.after p) with
  | some n => .matched (p + n)
  | none => .failed p

def skipUntilAny (t : Octets) (ts : List Octets) : Matcher := fun p =>
  ts.foldl (fun m u => m.closer (x.skipUntil u p)) (x.skipUntil t p)

def atStart : Matcher := fun p => if p = 0 then .matched p else .failed p

def atEnd : Matcher := fun p => if p = x.size then .matched p else .failed p

end Subject

end Peg
