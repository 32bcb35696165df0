import Peg.Proofs.Rulewise
import Peg.Proofs.Termination
import Peg.Proofs.TwoRuns

namespace Peg

/-- The states may differ in the tokens, the atomicity, the look ahead, the names on record and the journal of
captures. -/
structure State.Alike (s t : State) : Prop where
  items : s.captures.items = t.captures.items
  furthest : s.furthest = t.furthest
  calls : s.calls = t.calls
  callLimit : s.callLimit = t.callLimit

/-- The rules bear the same names and have the same bodies, but perhaps other kinds. -/
def Grammar.Rekinds : Grammar → Grammar → Prop := Rulewise fun r r' => r.body = r'.body

/-- What a verdict says besides tokens and names: where a refused text was left. -/
def Verdict.refusal? : Verdict → Option (Nat × Location)
  | .accepted _ => none
  | .refused f => some (f.offset, f.location)

namespace State

variable {s t : State}

theorem Alike.symm (h : s.Alike t) : t.Alike s := ⟨h.items.symm, h.furthest.symm, h.calls.symm, h.callLimit.symm⟩

theorem lockstep_alike : Lockstep Alike where
  items h := h.items
  atCallLimit h := by rw [AtCallLimit, AtCallLimit, h.callLimit, h.calls]
  note m h := by
    cases m with
    | matched q => exact h
    | failed q => exact ⟨h.items, congrArg (max · q) h.furthest, h.calls, h.callLimit⟩
  enterCall c h := ⟨h.items, h.furthest, congrArg (c :: ·) h.calls, h.callLimit⟩
  leaveCall h := ⟨h.items, h.furthest, congrArg List.tail h.calls, h.callLimit⟩
  lookInto _ h := ⟨h.items, h.furthest, h.calls, h.callLimit⟩
  push span h := ⟨congrArg (span :: ·) h.items, h.furthest, h.calls, h.callLimit⟩
  pop h := by
    refine ⟨?_, h.furthest, h.calls, h.callLimit⟩
    simp only [modifyCaptures, CaptureStack.items_pop, h.items]
  rejoin h h' := ⟨h.items, h'.furthest, h.calls, h.callLimit⟩

theorem unlabelled_alike : Unlabelled Alike :=
  { lockstep_alike with
    symm := Alike.symm
    relabel := fun _ _ h => ⟨h.items, h.furthest, h.calls, h.callLimit⟩ }

theorem Alike.setAtomicity (h : s.Alike t) (mode : Atomicity) : (s.setAtomicity mode).Alike t :=
  ⟨h.items, h.furthest, h.calls, h.callLimit⟩

end State

namespace Recogniser.Related

variable {a b : Recogniser}

theorem inAtomicity_left (h : a.Related State.Alike b) (mode : Atomicity) :
    (a.inAtomicity mode).Related State.Alike b :=
  fun p _ _ hs => (h p (hs.setAtomicity mode)).leave_left fun _ _ _ hm => hm.setAtomicity _

/-- Whatever the kind of a rule does, it does around the body. -/
theorem rule_left {r : Rule} {g : Grammar} {x : Subject} {call : Caller}
    (h : (r.body.run g x call).Related State.Alike b) : (r.run g x call).Related State.Alike b := by
  rw [r.run_eq_foldr]
  exact RuleScope.foldr_around (R := fun a _ => a.Related State.Alike b)
    (fun rule _ _ => State.unlabelled_alike.inRule_left rule) (fun mode _ _ _ ha => ha.inAtomicity_left mode) (b := b) h

end Recogniser.Related

/-- Without rules for separators it makes no difference where they may stand. -/
theorem Grammar.separators_eq_nothing {g : Grammar} (hw : g.hasWhitespace = false) (hc : g.hasComment = false)
    (x : Subject) (call : Caller) : g.separators x call = .nothing := by
  funext p s
  rw [separators, hw, hc]
  split <;> rfl

theorem Grammar.Rekinds.related_caller {g g' : Grammar} (h : g.Rekinds g') (hw : g.hasWhitespace = false)
    (hc : g.hasComment = false) (x : Subject) (n : Nat) (name : Octets) :
    (g.caller x n name).Related State.Alike (g'.caller x n name) := by
  have hS := State.unlabelled_alike
  have hw' : g'.hasWhitespace = false := (Rulewise.hasWhitespace_eq h).symm.trans hw
  have hc' : g'.hasComment = false := (Rulewise.hasComment_eq h).symm.trans hc
  refine Rulewise.caller h (fun _ _ _ _ => .exhausted) (hS.builtin hS.inRule x) (fun _ _ _ _ hs => .raised _ hs)
    ?_ (fun name _ _ hr => hS.noted (hS.inCall name hr)) n name
  intro n r r' _ hb hcall
  have hs : (g.separators x (g.caller x n)).Related State.Alike (g'.separators x (g'.caller x n)) := by
    rw [separators_eq_nothing hw hc, separators_eq_nothing hw' hc']
    exact fun _ _ _ hs => .done _ hs
  have hr : (r.body.run g x (g.caller x n)).Related State.Alike (r'.body.run g' x (g'.caller x n)) := by
    rw [← hb]
    exact hS.expr (g.tidy_caller x n) (g'.tidy_caller x n) hs fun name _ => hcall name
  exact (hS.related_symm (hS.related_symm hr).rule_left).rule_left

theorem Outcome.Related.refusal_eq {o o' : Outcome State} (h : o.Related State.Alike o') (x : Subject)
    (tabs : TabStops) : (o.verdict? x tabs).map (Except.map Verdict.refusal?) =
      (o'.verdict? x tabs).map (Except.map Verdict.refusal?) := by
  cases h with
  | done m h =>
      cases m with
      | matched q => rfl
      | failed q =>
          simp only [verdict?, Option.map_some, Except.map, Verdict.refusal?, State.failure, h.furthest]
  | raised e _ => rfl
  | exhausted => rfl

/-- Without separators the kinds of rules decide on tokens and names only. Whatever kinds they are given, the run
matches or fails in the same place with the same captures on the stack, it comes equally far, and it raises the
same error. -/
theorem Parser.parse_rekinded {p : Parser} {g : Grammar} (h : p.grammar.Rekinds g)
    (hw : p.grammar.hasWhitespace = false) (hc : p.grammar.hasComment = false) (start text : Octets) :
    ((p.withGrammar g).parse start text).map Verdict.refusal? = (p.parse start text).map Verdict.refusal? ∧
      ∀ n, ((p.withGrammar g).parse? n start text).map (Except.map Verdict.refusal?) =
          (p.parse? n start text).map (Except.map Verdict.refusal?) ∧
        ((p.withGrammar g).run n start (Subject.ofOctets text)).Related State.Alike
          (p.run n start (Subject.ofOctets text)) := by
  have hrun : ∀ n, ((p.withGrammar g).run n start (Subject.ofOctets text)).Related State.Alike
      (p.run n start (Subject.ofOctets text)) :=
    fun n => Outcome.Related.symm State.Alike.symm (h.related_caller hw hc _ _ start 0 ⟨rfl, rfl, rfl, rfl⟩)
  have hparse : ∀ n, ((p.withGrammar g).parse? n start text).map (Except.map Verdict.refusal?) =
      (p.parse? n start text).map (Except.map Verdict.refusal?) := by
    intro n
    rw [parse?_eq_verdict?, parse?_eq_verdict?]
    exact (hrun n).refusal_eq _ _
  refine ⟨?_, fun n => ⟨hparse n, hrun n⟩⟩
  have hdepth : g.ampleDepth text = p.grammar.ampleDepth text := by
    rw [Grammar.ampleDepth, Grammar.ampleDepth, Grammar.Rulewise.length_rules_eq h]
  have hget : ∀ o : Option (Except RunError Verdict), (o.getD (.error .callDepth)).map Verdict.refusal? =
      (o.map (Except.map Verdict.refusal?)).getD (.error .callDepth) := by
    rintro (_ | _) <;> rfl
  rw [parse, parse, hget, hget, hparse, withGrammar, hdepth]

/-- A rule that captures and one that recalls, made silent and atomic in place of normal. -/
theorem Parser.parse_rekinded_recall :
    let letter : Expr := .capture (.choice (.written "a") (.written "b"))
    let twice : Expr := .seq (.rule "letter") (.ref Builtin.pop.name)
    let p : Parser := { grammar := ⟨[.written "letter" .normal letter, .written "twice" .normal twice],
      by decide, by decide, by decide⟩ }
    let g : Grammar := ⟨[.written "letter" .silent letter, .written "twice" .atomic twice],
      by decide, by decide, by decide⟩
    p.grammar.Rekinds g ∧ p.grammar.hasWhitespace = false ∧ p.grammar.hasComment = false ∧
      ((p.withGrammar g).parse (ascii "twice") (ascii "bb")).map Verdict.refusal? =
        (p.parse (ascii "twice") (ascii "bb")).map Verdict.refusal? ∧
      ((p.withGrammar g).parse (ascii "twice") (ascii "ba")).map Verdict.refusal? =
        (p.parse (ascii "twice") (ascii "ba")).map Verdict.refusal? := by
  intro letter twice p g
  have h : p.grammar.Rekinds g := .cons ⟨rfl, rfl⟩ (.cons ⟨rfl, rfl⟩ .nil)
  have hw : p.grammar.hasWhitespace = false := by decide
  have hc : p.grammar.hasComment = false := by decide
  exact ⟨h, hw, hc, (parse_rekinded h hw hc _ _).1, (parse_rekinded h hw hc _ _).1⟩

end Peg
