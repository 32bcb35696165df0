import Peg.Match

namespace Peg

inductive RunError where
  | callDepth
  | undefinedRule (name : Octets)
  | emptyStack (name : Octets)
deriving DecidableEq, Repr

def RunError.message : RunError → Octets
  | .callDepth => ascii "rule call depth exceeds configured limit"
  | .undefinedRule name => untilZero (ascii "undefined rule " ++ name)
  | .emptyStack name => name ++ ascii " was called on empty stack"

/-- How a run ends. An error comes with the state in which it arose. A run that is `exhausted` was cut
off for want of steps and says nothing. -/
inductive Outcome (σ : Type) where
  | done (m : Match) (s : σ)
  | raised (e : RunError) (s : σ)
  | exhausted
deriving DecidableEq

namespace Outcome

variable {σ : Type}

@[inline] def andThen (o : Outcome σ) (f : Nat → σ → Outcome σ) : Outcome σ :=
  match o with
  | done (.matched q) s => f q s
  | done (.failed q) s => done (.failed q) s
  | raised e s => raised e s
  | exhausted => exhausted

@[inline] def orElse (o : Outcome σ) (f : Nat → σ → Outcome σ) : Outcome σ :=
  match o with
  | done (.matched q) s => done (.matched q) s
  | done (.failed q) s => f q s
  | raised e s => raised e s
  | exhausted => exhausted

@[inline] def mapMatch (o : Outcome σ) (f : Match → Match) : Outcome σ :=
  match o with
  | done m s => done (f m) s
  | raised e s => raised e s
  | exhausted => exhausted

/-- Ends a scope, whatever came of it. -/
@[inline] def leave (o : Outcome σ) (f : Match → σ → σ) : Outcome σ :=
  match o with
  | done m s => done m (f m s)
  | raised e s => raised e s
  | exhausted => exhausted

end Outcome

end Peg
