import Peg.Forest
import Peg.Token

namespace Peg

/-- A matched rule, seen as the place of its start token. -/
structure Pair where
  tokens : Array Token
  index : Nat
deriving DecidableEq

/-- Matched rules side by side, seen as the stretch of their tokens. -/
structure Pairs where
  tokens : Array Token
  first : Nat
  last : Nat
deriving DecidableEq

namespace Pairs

def ofTokens (tokens : Array Token) : Pairs := ⟨tokens, 0, tokens.size⟩

def isEmpty (ps : Pairs) : Bool := ps.first == ps.last

end Pairs

namespace Pair

def token? (p : Pair) : Option Token := p.tokens[p.index]?

def rule (p : Pair) : Octets := (p.token?.map Token.rule).getD []

def partner (p : Pair) : Nat := (p.token?.map Token.partner).getD 0

def start (p : Pair) : Nat := (p.token?.map Token.offset).getD 0

def stop (p : Pair) : Nat := (p.tokens[p.partner]?.map Token.offset).getD 0

def span (p : Pair) : Span := ⟨p.start, p.stop⟩

def inner (p : Pair) : Pairs := ⟨p.tokens, p.index + 1, p.partner⟩

end Pair

namespace Pairs

def listFrom (tokens : Array Token) (last : Nat) : Nat → Nat → List Pair
  | 0, _ => []
  | n + 1, i =>
      if i = last then []
      else
        let p : Pair := ⟨tokens, i⟩
        p :: listFrom tokens last n (p.partner + 1)

/-- The rules side by side, each one behind the stop token of the one before. There are fewer of them
than tokens. -/
def toList (ps : Pairs) : List Pair := listFrom ps.tokens ps.last (ps.last - ps.first) ps.first

def size (ps : Pairs) : Nat := ps.toList.length

/-- The rules at every depth, in the order of their start tokens. -/
def flatten (ps : Pairs) : List Pair :=
  ((List.range' ps.first (ps.last - ps.first)).map (Pair.mk ps.tokens)).filter fun p =>
    p.token?.map Token.edge = some .start

def forestFrom (tokens : Array Token) : Nat → Nat → Nat → Forest
  | 0, _, _ => .nil
  | n + 1, i, last =>
      if i = last then .nil
      else
        let p : Pair := ⟨tokens, i⟩
        .cons p.rule p.span (forestFrom tokens n (i + 1) p.partner) (forestFrom tokens n (p.partner + 1) last)

def forest (ps : Pairs) : Forest := forestFrom ps.tokens (ps.last - ps.first) ps.first ps.last

def text (ps : Pairs) : Octets := ps.forest.text

end Pairs

def Pair.text (p : Pair) : Octets := Forest.treeText p.rule p.span p.inner.forest.treeTexts

end Peg
