import Peg.Expr.Build
import Peg.Grammar.Basic

namespace Peg

/-- A literal that is written in a program and known to be well-formed. -/
def Literal.written (s : String) (h : (Literal.ofRaw (ascii s)).toOption.isSome) : Literal :=
  (Literal.ofRaw (ascii s)).toOption.get h

namespace Expr

def written (s : String)
    (h : (Literal.ofRaw (ascii s)).toOption.isSome := by exact Eq.refl true) : Expr :=
  literal (.written s h)

def writtenFolded (s : String)
    (h : (Literal.ofRaw (ascii s)).toOption.isSome := by exact Eq.refl true) : Expr :=
  folded (.written s h)

def writtenRange (low high : String)
    (h : (RuneRange.ofRaw (ascii low) (ascii high)).toOption.isSome := by exact Eq.refl true) : Expr :=
  range ((RuneRange.ofRaw (ascii low) (ascii high)).toOption.get h)

def rule (name : String) : Expr := ref (ascii name)

def startOfInput : Expr := ref Builtin.startOfInput.name

def endOfInput : Expr := ref Builtin.endOfInput.name

def zeroOrMore (e : Expr) : Expr := repeated .zeroOrMore e

def oneOrMore (e : Expr) : Expr := repeated .oneOrMore e

end Expr

def Rule.written (name : String) (kind : RuleKind) (body : Expr) : Rule := ⟨ascii name, kind, body⟩

end Peg
