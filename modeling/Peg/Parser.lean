import Peg.Eval
import Peg.Failure
import Peg.Pairs

namespace Peg

/-- A call limit of zero is no limit. -/
structure Parser where
  grammar : Grammar
  tabs : TabStops := {}
  callLimit : Nat := 0

inductive Verdict where
  | accepted (tokens : Array Token)
  | refused (failure : Failure)
deriving DecidableEq

/-- Names are reported only if they were tried where the subject was left. -/
def State.failure (x : Subject) (tabs : TabStops) (s : State) : Failure where
  offset := s.furthest
  location := x.location tabs s.furthest
  expected := if s.attempts.offset = s.furthest then s.attempts.expected.toList else []
  unexpected := if s.attempts.offset = s.furthest then s.attempts.unexpected.toList else []

/-- A depth that no run without left recursion exceeds: at one offset each rule is called at most
once, and a builtin calls nothing. -/
def Grammar.ampleDepth (g : Grammar) (text : Octets) : Nat := g.rules.length * (text.length + 1) + 1

namespace Parser

/-- How deep calls are followed. Within a call limit no run goes deeper than this. -/
def depth (p : Parser) (patience : Nat) : Nat := if p.callLimit = 0 then patience else p.callLimit + 1

def run (p : Parser) (patience : Nat) (start : Octets) (x : Subject) : Outcome State :=
  p.grammar.caller x (p.depth patience) start 0 { callLimit := p.callLimit }

/-- The verdict on a text. Without a call limit a run may never end, so it is given up where calls
nest deeper than `patience`. -/
def parse? (p : Parser) (patience : Nat) (start text : Octets) : Option (Except RunError Verdict) :=
  let x := Subject.ofOctets text
  match p.run patience start x with
  | .done (.matched _) s => some (.ok (.accepted s.tokens))
  | .done (.failed _) s => some (.ok (.refused (s.failure x p.tabs)))
  | .raised e _ => some (.error e)
  | .exhausted => none

/-- The verdict on a text. Calls that nest deeper than any run without left recursion are an error. -/
def parse (p : Parser) (start text : Octets) : Except RunError Verdict :=
  (p.parse? (p.grammar.ampleDepth text) start text).getD (.error .callDepth)

end Parser

end Peg
