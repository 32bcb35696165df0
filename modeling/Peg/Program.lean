import Peg.Outcome
import Peg.State

namespace Peg

/-- A match made by hand of the scopes of a state. -/
inductive Program where
  | nothing
  | fail
  | text (t : Octets)
  | any (n : Nat)
  | goto (p : Nat)
  | both (a b : Program)
  | either (a b : Program)
  | optional (a : Program)
  | many (a : Program)
  | note (a : Program)
  | call (a : Program)
  | rule (name : Octets) (a : Program)
  | atomicity (mode : Atomicity) (a : Program)
  | attempt (a : Program)
  | look (polarity : Polarity) (a : Program)
  | capture (a : Program)
  | uncapture
  | labelled (label : Octets) (a : Program)
  | dump
deriving DecidableEq

namespace Program

/-- What a program reports: how a labelled part ended, with the sizes of the token queue and the
capture stack then, or a whole state. -/
inductive Event where
  | finished (label : Octets) (m : Match) (tokens captures : Nat)
  | dumped (s : State)

/-- A state with the events up to it, the latest first. -/
structure Session where
  state : State
  events : List Event := []

namespace Session

def modify (f : State → State) (t : Session) : Session := { t with state := f t.state }

def finish (label : Octets) (m : Match) (t : Session) : Session :=
  { t with
    events := .finished label m t.state.tokens.size t.state.captures.items.length :: t.events }

end Session

def repeatAtMost (run : Nat → Session → Outcome Session) : Nat → Nat → Session → Outcome Session
  | 0, _, _ => .exhausted
  | n + 1, p, t =>
      match run p t with
      | .done (.matched q) t => if q ≤ p then .done (.matched p) t else repeatAtMost run n q t
      | .done (.failed _) t => .done (.matched p) t
      | .raised e t => .raised e t
      | .exhausted => .exhausted

variable (x : Subject)

def run : Program → Nat → Session → Outcome Session
  | nothing, p, t => .done (.matched p) t
  | fail, p, t => .done (.failed p) t
  | text u, p, t => .done (x.text u p) t
  | any n, p, t => .done (x.skip n p) t
  | goto q, _, t => .done (.matched q) t
  | both a b, p, t => (a.run p t).andThen b.run
  | either a b, p, t => (a.run p t).orElse fun _ t => b.run p t
  | optional a, p, t => (a.run p t).mapMatch (Match.orNothing p)
  | many a, p, t => repeatAtMost a.run (x.size + 1 - p) p t
  | note a, p, t => (a.run p t).leave fun m => Session.modify (State.note m)
  | call a, p, t =>
      if t.state.AtCallLimit then .raised .callDepth t
      else (a.run p (t.modify (State.enterCall ⟨[], p⟩))).leave fun _ => Session.modify State.leaveCall
  | rule name a, p, t =>
      let frame := t.state.ruleFrame name p
      (a.run p (t.modify (State.openRule frame))).leave fun m => Session.modify (State.closeRule frame m)
  | atomicity mode a, p, t =>
      let outer := t.state.atomicity
      (a.run p (t.modify (State.setAtomicity mode))).leave fun _ => Session.modify (State.setAtomicity outer)
  | attempt a, p, t =>
      let mark := t.state.mark
      ((a.run p t).leave fun m => Session.modify (State.rollBack mark m)).mapMatch (Match.whole p)
  | look polarity a, p, t =>
      let outer := t.state.lookahead
      let moment := t.state.captures.snapshot
      ((a.run p (t.modify (State.lookInto polarity))).leave fun _ =>
        Session.modify (State.lookBack outer moment)).mapMatch (Match.lookedAhead p polarity)
  | capture a, p, t =>
      (a.run p t).andThen fun q t =>
        .done (.matched q) (t.modify (State.modifyCaptures (CaptureStack.push ⟨p, q⟩)))
  | uncapture, p, t =>
      match t.state.captures.items with
      | [] => .done (.failed p) t
      | _ :: _ => .done (.matched p) (t.modify (State.modifyCaptures CaptureStack.pop))
  | labelled label a, p, t => (a.run p t).leave fun m => Session.finish label m
  | dump, p, t => .done (.matched p) { t with events := .dumped t.state :: t.events }

end Program

end Peg
