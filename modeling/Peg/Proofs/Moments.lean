import Mathlib.Logic.Relation
import Peg.Parser
import Peg.Proofs.Tasks

namespace Peg

def RuleScope.enter (p : Nat) (s : State) : RuleScope → State
  | node rule => s.openRule (s.ruleFrame rule p)
  | mode m => s.setAtomicity m

/-- The state in which the body of a rule is matched, if the rule is called in the state `s`. -/
def Rule.enter (r : Rule) (p : Nat) (s : State) : State := r.scopes.foldl (RuleScope.enter p) s

/-- A moment of a run: what is asked, where and in which state, and how deep calls may still nest. -/
structure Moment where
  depth : Nat
  task : Task
  offset : Nat
  state : State

namespace Moment

def outcome (g : Grammar) (x : Subject) (m : Moment) : Outcome State :=
  m.task.run g x (g.caller x m.depth) m.offset m.state

/-- One moment leads to another if what is asked in it begins by asking the other, or goes on so. -/
inductive Leads (g : Grammar) (x : Subject) : Moment → Moment → Prop
  | ref (n name p s) : Leads g x ⟨n, .expr (.ref name), p, s⟩ ⟨n, .call name, p, s⟩
  | look (n polarity e p s) : Leads g x ⟨n, .expr (.look polarity e), p, s⟩ ⟨n, .expr e, p, s.lookInto polarity⟩
  | seq (n d e p s) : Leads g x ⟨n, .expr (.seq d e), p, s⟩ ⟨n, .both (.expr d) (.both .skip (.expr e)), p, s⟩
  | choice_first (n d e p s) : Leads g x ⟨n, .expr (.choice d e), p, s⟩ ⟨n, .expr d, p, s⟩
  | choice_second (n d e p s) {q t} (h : outcome g x ⟨n, .expr d, p, s⟩ = .done (.failed q) t) :
      Leads g x ⟨n, .expr (.choice d e), p, s⟩ ⟨n, .expr e, p, t⟩
  | optional (n e p s) : Leads g x ⟨n, .expr (.optional e), p, s⟩ ⟨n, .expr e, p, s⟩
  | repeated (n count e p s) (hc : count.max? ≠ some 0) :
      Leads g x ⟨n, .expr (.repeated count e), p, s⟩ ⟨n, .occurrences count e, p, s⟩
  | capture (n e p s) : Leads g x ⟨n, .expr (.capture e), p, s⟩ ⟨n, .expr e, p, s⟩
  | rule (n name p s) {r} (hb : Builtin.ofName? name = none) (hf : g.find? name = some r) (hl : ¬s.AtCallLimit) :
      Leads g x ⟨n + 1, .call name, p, s⟩ ⟨n, .expr r.body, p, r.enter p (s.enterCall ⟨name, p⟩)⟩
  | skip (n p s) (hm : s.atomicity = .nonAtomic) : Leads g x ⟨n, .skip, p, s⟩ ⟨n, g.gapTask, p, s⟩
  | both_first (n t u p s) : Leads g x ⟨n, .both t u, p, s⟩ ⟨n, t, p, s⟩
  | both_second (n t u p s) {q s'} (h : outcome g x ⟨n, t, p, s⟩ = .done (.matched q) s') :
      Leads g x ⟨n, .both t u, p, s⟩ ⟨n, u, q, s'⟩
  | many_first (n room t p s) (hr : room ≠ some 0) : Leads g x ⟨n, .many room t, p, s⟩ ⟨n, t, p, s⟩
  | many_more (n room t p s) {q s'} (hr : room ≠ some 0) (h : outcome g x ⟨n, t, p, s⟩ = .done (.matched q) s')
      (hq : p < q) : Leads g x ⟨n, .many room t, p, s⟩ ⟨n, .many (room.map (· - 1)) t, q, s'⟩

/-- The later moment is a part of the earlier one. -/
def Contains (g : Grammar) (x : Subject) : Moment → Moment → Prop := Relation.ReflTransGen (Leads g x)

end Moment

/-- The moment in which a run begins. -/
def Parser.beginning (p : Parser) (n : Nat) (start : Octets) : Moment :=
  ⟨p.depth n, .call start, 0, { callLimit := p.callLimit }⟩

theorem Parser.outcome_beginning (p : Parser) (n : Nat) (start : Octets) (x : Subject) :
    (p.beginning n start).outcome p.grammar x = p.run n start x := rfl

end Peg
