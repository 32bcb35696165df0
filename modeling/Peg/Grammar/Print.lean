import Peg.Expr.Print
import Peg.Grammar.Basic

namespace Peg

def RuleKind.opening : RuleKind → Octets
  | normal => ascii "\x7b"
  | silent => ascii "_\x7b"
  | atomic => ascii "@\x7b"
  | compoundAtomic => ascii "$\x7b"
  | nonAtomic => ascii "!\x7b"

def Rule.text (r : Rule) : Octets :=
  r.name ++ ascii " = " ++ r.kind.opening ++ ascii " " ++ r.body.text ++ ascii " \x7d"

end Peg
