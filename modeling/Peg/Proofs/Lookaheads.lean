import Peg.Proofs.Associativity
import Peg.Proofs.Captures

namespace Peg

/-- Of three look aheads inside each other any two can be taken together first. -/
theorem Polarity.within_within (inner middle : Polarity) (outer : Option Polarity) :
    inner.within (some (middle.within outer)) = (inner.within (some middle)).within outer := by
  rcases outer with _ | outer
  · cases inner <;> cases middle <;> rfl
  · cases inner <;> cases middle <;> cases outer <;> rfl

theorem Match.lookedAhead_lookedAhead (p : Nat) (outer inner : Polarity) (m : Match) :
    (m.lookedAhead p inner).lookedAhead p outer = m.lookedAhead p (inner.within (some outer)) := by
  cases outer <;> cases inner <;> cases m <;> rfl

namespace State

theorem lookInto_lookInto (outer inner : Polarity) (s : State) :
    (s.lookInto outer).lookInto inner = s.lookInto (inner.within (some outer)) := by
  simp only [lookInto, Polarity.within_within]

theorem lookBack_lookBack (inner outer : Option Polarity) (moment : Nat) (s : State) :
    (s.lookBack inner moment).lookBack outer moment = s.lookBack outer moment := by
  simp only [lookBack, CaptureStack.restore_restore s.captures (Nat.le_refl moment)]

theorem note_lookBack (m : Match) (outer : Option Polarity) (moment : Nat) (s : State) :
    (s.lookBack outer moment).note m = (s.note m).lookBack outer moment := by
  cases m <;> rfl

/-- Where the outer one of two look aheads is negative, one of the two fails. -/
theorem note_lookedAhead (p : Nat) (outer inner : Polarity) (m : Match) (s : State) :
    (s.note (m.lookedAhead p inner)).note (m.lookedAhead p (inner.within (some outer))) =
      (s.note (m.lookedAhead p (inner.within (some outer)))).note ((Match.matched p).lookedAhead p outer) := by
  cases outer with
  | positive => cases inner <;> cases m <;> first | rfl | exact note_note p s
  | negative => cases inner <;> cases m <;> first | rfl | exact (note_note p s).symm

end State

/-- Two look aheads at once are one. The outer one adds nothing but the failure of itself or of the inner one
where it is negative. -/
theorem Recogniser.look_look (outer inner : Polarity) (r : Recogniser) (p : Nat) (s : State) :
    ((r.look inner).noted.look outer).noted p s =
      ((r.look (inner.within (some outer))).noted p s).leave fun _ =>
        State.note ((Match.matched p).lookedAhead p outer) := by
  have hr : r p ((s.lookInto outer).lookInto inner) = r p (s.lookInto (inner.within (some outer))) := by
    rw [State.lookInto_lookInto]
  simp only [noted, look, hr]
  rcases r p (s.lookInto (inner.within (some outer))) with ⟨m, t⟩ | ⟨e, t⟩ | _
  · simp only [Outcome.leave, Outcome.mapMatch]
    have hc : (s.lookInto outer).captures = s.captures := rfl
    rw [Match.lookedAhead_lookedAhead, hc]
    simp only [State.note_lookBack, State.lookBack_lookBack]
    rw [State.note_lookedAhead]
  · rfl
  · rfl

namespace Expr

variable (g : Grammar) (x : Subject) (call : Caller)

/-- The rules that `e` tries go on the same record either way, whatever stands around. All that tells the two
apart is that one of the negative look aheads fails, which is noted where they stand. An error ends both at once. -/
theorem run_look_negative_look_negative (e : Expr) (p : Nat) (s : State) :
    (look .negative (look .negative e)).run g x call p s =
      ((look .positive e).run g x call p s).leave fun _ t => { t with furthest := max p t.furthest } := by
  have hn : (fun t : State => t.note (.failed p)) = fun t => { t with furthest := max p t.furthest } := by
    funext t
    rw [State.note, Nat.max_comm]
  rw [← hn]
  exact Recogniser.look_look .negative .negative (e.run g x call) p s

end Expr

end Peg
