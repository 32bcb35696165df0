import Peg.Outcome
import Peg.State

namespace Peg

abbrev Recogniser := Nat → State → Outcome State

namespace Recogniser

def ofMatcher (m : Matcher) : Recogniser := fun p s => .done (m p) s

def nothing : Recogniser := fun p s => .done (.matched p) s

def andThen (a b : Recogniser) : Recogniser := fun p s => (a p s).andThen b

def orElse (a b : Recogniser) : Recogniser := fun p s => (a p s).orElse fun _ s => b p s

def optional (r : Recogniser) : Recogniser := fun p s => (r p s).mapMatch (Match.orNothing p)

/-- Matches on end, up to the first one that fails or does not advance. Whoever runs out of the bound
has not finished. -/
def atMost (r : Recogniser) : Nat → Recogniser
  | 0, _, _ => .exhausted
  | n + 1, p, s =>
      match r p s with
      | .done (.matched q) s => if q ≤ p then .done (.matched p) s else atMost r n q s
      | .done (.failed _) s => .done (.matched p) s
      | .raised e s => .raised e s
      | .exhausted => .exhausted

def noted (r : Recogniser) : Recogniser := fun p s => (r p s).leave State.note

def inCall (rule : Octets) (r : Recogniser) : Recogniser := fun p s =>
  if s.AtCallLimit then .raised .callDepth s
  else (r p (s.enterCall ⟨rule, p⟩)).leave fun _ s => s.leaveCall

def inAtomicity (mode : Atomicity) (r : Recogniser) : Recogniser := fun p s =>
  let outer := s.atomicity
  (r p (s.setAtomicity mode)).leave fun _ s => s.setAtomicity outer

def inRule (rule : Octets) (r : Recogniser) : Recogniser := fun p s =>
  let frame := s.ruleFrame rule p
  (r p (s.openRule frame)).leave (State.closeRule frame)

/-- All or nothing: a failure leaves the tokens and the captures as they were. -/
def attempt (r : Recogniser) : Recogniser := fun p s =>
  let mark := s.mark
  ((r p s).leave (State.rollBack mark)).mapMatch (Match.whole p)

def look (polarity : Polarity) (r : Recogniser) : Recogniser := fun p s =>
  let outer := s.lookahead
  let moment := s.captures.snapshot
  ((r p (s.lookInto polarity)).leave fun _ s => s.lookBack outer moment).mapMatch
    (Match.lookedAhead p polarity)

def capture (r : Recogniser) : Recogniser := fun p s =>
  (r p s).andThen fun q s => .done (.matched q) (s.modifyCaptures (CaptureStack.push ⟨p, q⟩))

end Recogniser

end Peg
