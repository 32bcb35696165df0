import Peg.Octets

namespace Peg

inductive Edge where
  | start
  | stop
deriving DecidableEq, Repr

/-- One edge of a matched rule. The partner is the index of the other edge. -/
structure Token where
  edge : Edge
  rule : Octets
  partner : Nat
  offset : Nat
deriving DecidableEq, Repr

end Peg
