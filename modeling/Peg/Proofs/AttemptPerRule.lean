import Peg.Proofs.Progress

namespace Peg

namespace Recogniser

/-- A rule that disappoints has its name or another one added to the record, whatever came and went inside it. -/
theorem Learns.gainsOne {r : Recogniser} {x : Subject} (hl : r.Learns) (hr : r.Framed x) {rule : Octets} {p : Nat}
    {s t : State} {k : Match} (ha : s.atomicity ≠ .atomic) (h : r.inRule rule p s = .done k t)
    (hk : k.succeeded = true ↔ s.lookahead = some .negative) : s.attempts.GainsOne p t.attempts := by
  obtain ⟨u, hu, rfl⟩ := Outcome.leave_eq_done.mp h
  have hg := (hr hu).1
  rw [State.openRule_eq] at hg
  have hmode : u.atomicity = s.atomicity := hg.atomicity
  have hlook : u.lookahead = s.lookahead := hg.lookahead
  have hlearns := hl p (s.openRule (s.ruleFrame rule p))
  rw [hu] at hlearns
  have hrecord : s.attempts.Precedes u.attempts := (State.attempts_openRule s _).symm ▸ hlearns.attempts
  have hd : u.Disappoints k := by
    rw [State.Disappoints, State.polarity, hlook, Bool.eq_iff_iff, hk, decide_eq_true_eq]
    rcases s.lookahead with _ | _ | _ <;> simp
  rw [State.attempts_closeRule_eq, if_pos ⟨hd, hmode ▸ ha⟩]
  exact hrecord.gainsOne_record rule u.polarity p

end Recogniser

namespace Moment

/-- The call opens a node: of this rule, around this body, in this state. -/
inductive Opens (g : Grammar) (x : Subject) : Moment → Octets → Recogniser → State → Prop
  | endOfInput {n p s} (hl : ¬s.AtCallLimit) :
      Opens g x ⟨n + 1, .call Builtin.endOfInput.name, p, s⟩ Builtin.endOfInput.name (.ofMatcher x.atEnd)
        (s.enterCall ⟨Builtin.endOfInput.name, p⟩)
  | rule {n name p s r outer rule inner} (hb : Builtin.ofName? name = none) (hf : g.find? name = some r)
      (hl : ¬s.AtCallLimit) (hs : r.scopes = outer ++ .node rule :: inner) :
      Opens g x ⟨n + 1, .call name, p, s⟩ rule (inner.foldr RuleScope.around (r.body.run g x (g.caller x n)))
        (outer.foldl (RuleScope.enter p) (s.enterCall ⟨name, p⟩))

variable {g : Grammar} {x : Subject} {m : Moment} {rule : Octets} {body : Recogniser} {s : State}

theorem Opens.framed (h : m.Opens g x rule body s) : body.Framed x := by
  cases h with
  | endOfInput => exact (Recogniser.tidy_ofMatcher x.forward_atEnd).framed
  | @rule n _ _ _ r =>
      exact (RuleScope.foldr_around (R := fun a _ => a.Tidy x) (fun rule _ _ h => h.inRule rule)
        (fun mode _ _ _ h => h.inAtomicity mode) (b := .nothing) (r.body.tidy_run g x n)).framed

theorem Opens.learns (h : m.Opens g x rule body s) : body.Learns := by
  cases h with
  | endOfInput => exact Recogniser.learns_ofMatcher _
  | @rule n _ _ _ r =>
      exact RuleScope.foldr_around (R := fun a _ => a.Learns) (fun rule _ _ h => h.inRule rule)
        (fun mode _ _ _ h => h.inAtomicity mode) (b := .nothing) (Task.learns_run g x n (.expr r.body))

/-- The node is what the call is about: what is left of the call goes on from where the node has come to an end. -/
theorem Opens.continues (h : m.Opens g x rule body s) :
    (body.inRule rule m.offset s).Continues (m.outcome g x) := by
  have hcall : ∀ {n name p s} {o : Outcome State}, ¬s.AtCallLimit →
      o.Continues (g.resolve x (g.caller x n) name p (s.enterCall ⟨name, p⟩)) →
        o.Continues (outcome g x ⟨n + 1, .call name, p, s⟩) := by
    intro n name p s o hl ho
    rw [outcome_call g x n p s hl]
    exact (ho.leave fun _ t => .leaveCall t).leave fun k t => .note t k
  cases h with
  | endOfInput hl => exact hcall hl (.refl _)
  | @rule n name p s r outer rule inner hb hf hl hs =>
      refine hcall hl ?_
      rw [Grammar.resolve, hb, hf]
      dsimp only
      rw [r.run_eq_foldr, hs, List.foldr_append, RuleScope.foldr_around_eq]
      exact (Outcome.Continues.refl _).leave fun k t => RuleScope.trails_leaveAll p k t _ _

end Moment

/-- Each rule that fails, or that matches where it is not wanted, makes a difference of one name at the offset where it
was tried, however many attempts its parts made there, unless something was tried further on. In the course of a parse
the offset of the attempts only moves on: a part of a moment begins no further back than the moment, it comes to its end
no further back than it began, and the moment comes to its own end no further back than that. -/
theorem Parser.one_attempt_per_rule (p : Parser) (n : Nat) (start text : Octets) :
    let g := p.grammar
    let x := Subject.ofOctets text
    ∀ m, (p.beginning n start).Contains g x m →
      (∀ rule body s k t, m.Opens g x rule body s → s.atomicity ≠ .atomic →
        body.inRule rule m.offset s = .done k t → (k.succeeded = true ↔ s.lookahead = some .negative) →
          s.attempts.GainsOne m.offset t.attempts) ∧
      ∀ m', m.Contains g x m' → m.state.attempts.offset ≤ m'.state.attempts.offset ∧
        (m'.outcome g x).Leaves fun t' => m'.state.attempts.offset ≤ t'.attempts.offset ∧
          (m.outcome g x).Leaves fun t => t'.attempts.offset ≤ t.attempts.offset := by
  intro g x m hm
  have hx : m.offset ≤ x.size := hm.offset_le (Nat.zero_le _)
  constructor
  · intro rule body s k t ho ha hd hk
    exact ho.learns.gainsOne ho.framed ha hd hk
  · intro m' hm'
    refine ⟨hm'.learns.attempts.offset_le, ((m'.trails_outcome g x).and (hm'.continues hx).leaves).mono ?_⟩
    rintro t' ⟨hbegin, hend⟩
    exact ⟨hbegin.attempts_le, hend.mono fun _ h => h.attempts_le⟩

/-- The digit is not wanted and on record for a while. Then two more rules are tried, and in the end the one that
tried all three stands in place of them. -/
theorem Parser.one_attempt_per_rule_replaced :
    let e : Expr := .choice (.choice (.look .negative (.rule "d")) (.rule "b")) (.rule "c")
    let g : Grammar := ⟨[.written "a" .normal e, .written "b" .normal (.written "x"),
      .written "c" .normal (.written "y"), .written "d" .normal (.writtenRange "0" "9")],
      by decide, by decide, by decide⟩
    let p : Parser := { grammar := g }
    let x := Subject.ofOctets (ascii "1")
    ∃ (m : Moment) (s t t' : State), (p.beginning 2 (ascii "a")).Contains g x m ∧
      (s.lookahead = some .negative ∧ s.attempts = {} ∧ t.attempts = ⟨0, #[], #[ascii "d"]⟩ ∧
        s.attempts.GainsOne 0 t.attempts) ∧
      (t'.attempts = ⟨0, #[ascii "a"], #[]⟩ ∧ Attempts.GainsOne 0 {} t'.attempts) ∧
      (p.beginning 2 (ascii "a")).state.attempts.offset ≤ m.state.attempts.offset := by
  intro e g p x
  have hd : (p.beginning 2 (ascii "a")).Contains g x ⟨1, .call (ascii "d"), 0, _⟩ :=
    .head (.rule _ _ _ _ rfl rfl (by decide)) (.head (.choice_first ..) (.head (.choice_first ..)
      (.head (.look ..) (.single (.ref ..)))))
  have hone := one_attempt_per_rule p 2 (ascii "a") (ascii "1")
  have hopens := @Moment.Opens.rule g x
  have hs := (hone _ hd).1 _ _ _ _ _ (@hopens _ _ _ _ _ [] _ _ rfl rfl (by decide) rfl) (by decide) rfl (by decide)
  have ha := (hone _ .refl).1 _ _ _ _ _ (@hopens _ _ _ _ _ [] _ _ rfl rfl (by decide) rfl) (by decide) rfl (by decide)
  refine ⟨_, _, _, _, hd, ⟨rfl, rfl, ?_, hs⟩, ⟨?_, ha⟩, ((hone _ .refl).2 _ hd).1⟩
  · decide +kernel
  · decide +kernel

end Peg
