import Mathlib.Data.List.Forall2
import Peg.Parser

namespace Peg

/-- Of the grammar an expression knows its calls and its separators only. -/
theorem Expr.run_eq_of_separators {g g' : Grammar} {x : Subject} {call : Caller}
    (hs : g.separators x call = g'.separators x call) (e : Expr) : e.run g x call = e.run g' x call := by
  induction e with
  | literal | folded | range | ref | scan => rfl
  | look polarity e ih | optional e ih | repeated count e ih | capture e ih => simp only [Expr.run, ih, hs]
  | seq d e ihd ihe | choice d e ihd ihe => simp only [Expr.run, ihd, ihe, hs]

/-- The rules of two grammars bear the same names in the same order, and they are related one by one. -/
def Grammar.Rulewise (R : Rule → Rule → Prop) (g g' : Grammar) : Prop :=
  List.Forall₂ (fun r r' => r.name = r'.name ∧ R r r') g.rules g'.rules

namespace Grammar.Rulewise

variable {R : Rule → Rule → Prop} {g g' : Grammar}

theorem find? (h : g.Rulewise R g') (name : Octets) :
    Option.Rel (fun r r' => r.name = r'.name ∧ R r r') (g.find? name) (g'.find? name) := by
  unfold Grammar.find?
  rw [Rulewise] at h
  generalize g.rules = rules at h
  generalize g'.rules = rules' at h
  induction h with
  | nil => exact .none
  | @cons r r' rules rules' hr _ ih =>
      rw [List.find?_cons, List.find?_cons, ← hr.1]
      cases decide (r.name = name) with
      | true => exact .some hr
      | false => exact ih

theorem isSome_find? (h : g.Rulewise R g') (name : Octets) : (g.find? name).isSome = (g'.find? name).isSome := by
  have hf := h.find? name
  generalize g.find? name = o at hf
  generalize g'.find? name = o' at hf
  cases hf <;> rfl

theorem hasWhitespace_eq (h : g.Rulewise R g') : g.hasWhitespace = g'.hasWhitespace := h.isSome_find? whitespaceName

theorem hasComment_eq (h : g.Rulewise R g') : g.hasComment = g'.hasComment := h.isSome_find? commentName

theorem length_rules_eq (h : g.Rulewise R g') : g.rules.length = g'.rules.length := List.Forall₂.length_eq h

theorem ampleDepth_eq (h : g.Rulewise R g') (text : Octets) : g.ampleDepth text = g'.ampleDepth text := by
  rw [Grammar.ampleDepth, Grammar.ampleDepth, h.length_rules_eq]

theorem run_eq (h : g.Rulewise R g') (x : Subject) (call : Caller) (e : Expr) : e.run g x call = e.run g' x call := by
  refine Expr.run_eq_of_separators ?_ e
  unfold Grammar.separators
  rw [h.hasWhitespace_eq, h.hasComment_eq]

/-- Calls are related at every depth if what they are made of is: builtins, undefined names, rules whose own
calls are related, and the frame of a call. -/
theorem caller {P : Recogniser → Recogniser → Prop} {x : Subject} (h : g.Rulewise R g')
    (hexhausted : P (fun _ _ => .exhausted) (fun _ _ => .exhausted)) (hbuiltin : ∀ b : Builtin, P (b.run x) (b.run x))
    (hundefined : ∀ name, P (fun _ s => .raised (.undefinedRule name) s) (fun _ s => .raised (.undefinedRule name) s))
    (hrule : ∀ n r r', r.name = r'.name → R r r' → (∀ name, P (g.caller x n name) (g'.caller x n name)) →
      P (r.run g x (g.caller x n)) (r'.run g' x (g'.caller x n)))
    (hcall : ∀ name a b, P a b → P (a.inCall name).noted (b.inCall name).noted) (n : Nat) (name : Octets) :
    P (g.caller x n name) (g'.caller x n name) := by
  induction n generalizing name with
  | zero => exact hexhausted
  | succ n ih =>
      refine hcall name _ _ ?_
      unfold Grammar.resolve
      have hf := h.find? name
      split
      · exact hbuiltin _
      · generalize g.find? name = o at hf
        generalize g'.find? name = o' at hf
        cases hf with
        | none => exact hundefined name
        | some hr => exact hrule n _ _ hr.1 hr.2 ih

end Grammar.Rulewise

def Parser.withGrammar (g : Grammar) (p : Parser) : Parser := { p with grammar := g }

end Peg
