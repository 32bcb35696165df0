import Peg.Expr.Basic

namespace Peg

def Literal.quoted (l : Literal) : Octets := ascii "\"" ++ l.raw ++ ascii "\""

def Count.suffix : Count → Octets
  | zeroOrMore => ascii "*"
  | oneOrMore => ascii "+"
  | exactly n => ascii "\x7b" ++ decimal n ++ ascii "\x7d"
  | atLeast n => ascii "\x7b" ++ decimal n ++ ascii ", \x7d"
  | atMost n => ascii "\x7b, " ++ decimal n ++ ascii "\x7d"
  | between low high _ => ascii "\x7b" ++ decimal low ++ ascii ", " ++ decimal high ++ ascii "\x7d"

def Polarity.sign : Polarity → Octets
  | positive => ascii "&"
  | negative => ascii "!"

namespace Expr

/-- How tightly an expression binds: a choice least, then a sequence, then all others. -/
def tightness : Expr → Nat
  | choice _ _ => 0
  | seq _ _ => 1
  | _ => 2

/-- A part in its place, in parentheses if it binds less tightly than the place demands. -/
def bracketed (demanded : Nat) (e : Expr) (text : Octets) : Octets :=
  if e.tightness < demanded then ascii "(" ++ text ++ ascii ")" else text

def text : Expr → Octets
  | literal l => l.quoted
  | folded l => ascii "^" ++ l.quoted
  | range r => ascii "'" ++ r.rawLow ++ ascii "'..'" ++ r.rawHigh ++ ascii "'"
  | ref name => name
  | look polarity e => polarity.sign ++ bracketed 2 e e.text
  | seq a b => bracketed 1 a a.text ++ ascii " ~ " ++ bracketed 1 b b.text
  | choice a b => a.text ++ ascii " | " ++ b.text
  | optional e => bracketed 2 e e.text ++ ascii "?"
  | repeated count e => bracketed 2 e e.text ++ count.suffix
  | capture e => ascii "push(" ++ e.text ++ ascii ")"
  | scan l ls =>
      ascii "(!(" ++ (ascii " | ").intercalate ((l :: ls).map Literal.quoted) ++ ascii ") ~ any)*"

end Expr

end Peg
