import Peg.Text.Location

namespace Peg

/-- Why a subject was refused: how far it was read, and which rules were wanted there or not
wanted. -/
structure Failure where
  offset : Nat
  location : Location
  expected : List Octets
  unexpected : List Octets
deriving DecidableEq, Repr

namespace Failure

/-- A list in words: "a", "a or b", "a, b, or c". -/
def enumeration : List Octets → Octets
  | [] => []
  | [a] => a
  | [a, b] => a ++ ascii " or " ++ b
  | names => (ascii ", ").intercalate names.dropLast ++ ascii ", or " ++ names.getLastD []

def expectation (f : Failure) : Octets :=
  match f.expected, f.unexpected with
  | [], [] => ascii "unknown parsing error"
  | e, [] => ascii "expected " ++ enumeration e
  | [], u => ascii "unexpected " ++ enumeration u
  | e, u => ascii "expected " ++ enumeration e ++ ascii ", unexpected " ++ enumeration u

def text (f : Failure) : Octets :=
  decimal f.location.line ++ ascii ":" ++ decimal f.location.column ++ ascii ": " ++ f.expectation

end Failure

end Peg
