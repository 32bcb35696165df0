import Peg.Recogniser

namespace Peg

namespace Recogniser

def further (skip r : Recogniser) : Nat → Recogniser
  | 0 => nothing
  | n + 1 => (skip.andThen r).andThen (further skip r n)

/-- Matches of `r` behind separators for as long as they come and advance, but at most as many as
`room` allows. A match that does not advance is the last one. -/
def greedily (skip r : Recogniser) : Nat → Option Nat → Recogniser
  | 0, _, _, _ => .exhausted
  | n + 1, room, p, s =>
      if room = some 0 then .done (.matched p) s
      else
        match (skip.andThen r).attempt p s with
        | .done (.matched q) s =>
            if q ≤ p then .done (.matched q) s else greedily skip r n (room.map (· - 1)) q s
        | .done (.failed _) s => .done (.matched p) s
        | .raised e s => .raised e s
        | .exhausted => .exhausted

end Recogniser

namespace Subject

variable (x : Subject)

/-- Matches on end. A subject has no room for more of them than the bound allows. -/
def repeatedly (r : Recogniser) : Recogniser := fun p s => r.atMost (x.size + 1 - p) p s

def greedilyAfter (skip r : Recogniser) (max? : Option Nat) (times : Nat) : Recogniser := fun p s =>
  Recogniser.greedily skip r (x.size + 1 - p) (max?.map (· - times)) p s

/-- From `min` to `max?` matches of `r` with separators between them, and as many as come. -/
def counted (skip r : Recogniser) (min : Nat) (max? : Option Nat) : Recogniser :=
  if max? = some 0 then .nothing
  else match min with
    | 0 => (r.andThen (x.greedilyAfter skip r max? 1)).optional.attempt
    | n + 1 => ((r.andThen (.further skip r n)).andThen (x.greedilyAfter skip r max? (n + 1))).attempt

end Subject

end Peg
