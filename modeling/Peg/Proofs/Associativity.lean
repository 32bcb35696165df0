import Peg.Grammar.Written
import Peg.Proofs.Rulewise
import Peg.Proofs.Tasks
import Peg.Proofs.Termination

namespace Peg

/-- Equal up to how sequences and choices are nested, anywhere inside. -/
inductive Expr.Reassociates : Expr → Expr → Prop
  | refl (e) : Reassociates e e
  | symm {d e} (h : Reassociates d e) : Reassociates e d
  | trans {d e f} (h : Reassociates d e) (h' : Reassociates e f) : Reassociates d f
  | seq_assoc (a b c) : Reassociates (.seq (.seq a b) c) (.seq a (.seq b c))
  | choice_assoc (a b c) : Reassociates (.choice (.choice a b) c) (.choice a (.choice b c))
  | look {d e} (polarity) (h : Reassociates d e) : Reassociates (.look polarity d) (.look polarity e)
  | seq {a b d e} (h : Reassociates a d) (h' : Reassociates b e) : Reassociates (.seq a b) (.seq d e)
  | choice {a b d e} (h : Reassociates a d) (h' : Reassociates b e) : Reassociates (.choice a b) (.choice d e)
  | optional {d e} (h : Reassociates d e) : Reassociates (.optional d) (.optional e)
  | repeated {d e} (count) (h : Reassociates d e) : Reassociates (.repeated count d) (.repeated count e)
  | capture {d e} (h : Reassociates d e) : Reassociates (.capture d) (.capture e)

/-- The same rules in the same order, but for how sequences and choices are nested in their bodies. -/
def Grammar.Reassociates : Grammar → Grammar → Prop :=
  Rulewise fun r r' => r.kind = r'.kind ∧ r.body.Reassociates r'.body

namespace State

theorem note_eq {s : State} {q : Nat} (h : q ≤ s.furthest) : s.note (.failed q) = s := by
  rw [State.note, Nat.max_eq_left h]

theorem le_furthest_note (q : Nat) (s : State) : q ≤ (s.note (.failed q)).furthest := Nat.le_max_right _ _

theorem note_note (q : Nat) (s : State) : (s.note (.failed q)).note (.failed q) = s.note (.failed q) :=
  note_eq (le_furthest_note q s)

end State

namespace Recogniser

/-- A failure is on record where the attempt began or behind it. -/
def Reports (r : Recogniser) : Prop := ∀ ⦃p s q t⦄, r p s = .done (.failed q) t → p ≤ t.furthest

variable {x : Subject} {a b c : Recogniser}

theorem Tidy.reports (h : a.noted.Tidy x) : a.noted.Reports := by
  intro p s q t hd
  cases h hd with
  | failed _ =>
      obtain ⟨u, _, rfl⟩ := Outcome.leave_eq_done.mp hd
      exact State.le_furthest_note p u

theorem Sure.reports (h : a.Sure x) : a.Reports := by
  intro p s q t hd
  obtain ⟨_, k, hk, _⟩ := h hd
  cases hk

theorem Reports.andThen (h : a.Reports) (hf : a.Framed x) (h' : b.Reports) : (a.andThen b).Reports := by
  intro p s q t hd
  rcases Outcome.andThen_eq_done.mp hd with ⟨k, u, hu, ht⟩ | ⟨k, _, hu⟩
  · exact Nat.le_trans ((hf hu).2 k rfl).1 (h' ht)
  · exact h hu

/-- What becomes of a whole that began at `p` in the state `s`, from what became of its parts. -/
def whole (s : State) (p : Nat) (o : Outcome State) : Outcome State :=
  ((o.leave (State.rollBack s.mark)).mapMatch (Match.whole p)).leave State.note

theorem whole_failed {s t : State} (h : s.Grows t) (p q : Nat) :
    whole s p (.done (.failed q) t) =
      .done (.failed p) { s with attempts := t.attempts, furthest := max t.furthest p } := by
  change Outcome.done (.failed p) ((t.rollBack s.mark (.failed q)).note (.failed p)) = _
  rw [(h.rollBack q).eq]
  rfl

/-- A whole that fails in its first part has gone back already. -/
theorem attempt_andThen_left (h : a.Framed x) (b : Recogniser) :
    (a.attempt.noted.andThen b).attempt.noted = (a.andThen b).attempt.noted := by
  funext p s
  change whole s p ((whole s p (a p s)).andThen b) = whole s p ((a p s).andThen b)
  rcases hd : a p s with ⟨q | q, t⟩ | ⟨e, t⟩ | _
  · rfl
  · have hg := (h hd).1
    rw [whole_failed hg]
    have hr : s.Restores { s with attempts := t.attempts, furthest := max t.furthest p } := rfl
    simp only [Outcome.andThen]
    rw [whole_failed hr.grows, whole_failed hg, Nat.max_assoc, Nat.max_self]
  · rfl
  · rfl

/-- A whole that fails in its last part goes back from where that part began, or from where it failed. -/
theorem attempt_andThen_right (h : a.Framed x) (hb : b.Framed x) (hr : b.Reports) :
    (a.andThen b.attempt.noted).attempt.noted = (a.andThen b).attempt.noted := by
  funext p s
  change whole s p ((a p s).andThen b.attempt.noted) = whole s p ((a p s).andThen b)
  rcases hd : a p s with ⟨q | q, t⟩ | ⟨e, t⟩ | _
  · change whole s p (whole t q (b q t)) = whole s p (b q t)
    rcases he : b q t with ⟨k | k, u⟩ | ⟨e, u⟩ | _
    · rfl
    · have hg := (h hd).1
      have hk := (hb he).1
      have ht : t.Restores { t with attempts := u.attempts, furthest := max u.furthest q } := rfl
      rw [whole_failed hk, whole_failed (hg.trans ht.grows), whole_failed (hg.trans hk),
        Nat.max_eq_left (hr he)]
    · rfl
    · rfl
  · rfl
  · rfl
  · rfl

theorem noted_orElse_assoc (a : Recogniser) (hb : b.Tidy x) (hr : b.Reports) (c : Recogniser) :
    ((a.orElse b).noted.orElse c).noted = (a.orElse (b.orElse c).noted).noted := by
  funext p s
  change (((a p s).orElse fun _ => b p).leave State.note |>.orElse fun _ => c p).leave State.note =
    ((a p s).orElse fun _ => (b.orElse c).noted p).leave State.note
  rcases a p s with ⟨q | q, t⟩ | ⟨e, t⟩ | _
  · rfl
  · change (((b p t).leave State.note).orElse fun _ => c p).leave State.note =
      (((b p t).orElse fun _ => c p).leave State.note).leave State.note
    rcases he : b p t with ⟨k | k, u⟩ | ⟨e, u⟩ | _
    · rfl
    · cases hb he with
      | failed _ =>
          change (c p (u.note (.failed p))).leave State.note = ((c p u).leave State.note).leave State.note
          rw [State.note_eq (hr he)]
          rcases c p u with ⟨j | j, v⟩ | ⟨e, v⟩ | _
          · rfl
          · exact congrArg (Outcome.done _) (State.note_note j v).symm
          · rfl
          · rfl
    · rfl
    · rfl
  · rfl
  · rfl

theorem Sure.andThen (h : a.Sure x) (h' : b.Sure x) : (a.andThen b).Sure x := by
  intro p s m t hd
  rcases Outcome.andThen_eq_done.mp hd with ⟨q, u, hu, ht⟩ | ⟨q, _, hu⟩
  · obtain ⟨hg, k, hk, hq⟩ := h hu
    obtain ⟨hg', k', hk', hq'⟩ := h' ht
    cases hk
    exact ⟨hg.trans hg', k', hk', hq.trans hq'⟩
  · obtain ⟨_, k, hk, _⟩ := h hu
    cases hk

theorem Sure.inGaps (h : a.Sure x) : a.inGaps.Sure x := by
  intro p s m t hd
  rw [Recogniser.inGaps] at hd
  split at hd
  · cases hd
    exact ⟨.refl s, p, rfl, .refl p⟩
  · exact h hd

end Recogniser

/-- Separators never fail, for none of them has to come. -/
theorem Grammar.sure_separators {g : Grammar} {x : Subject} {call : Caller} (h : ∀ name, (call name).Tidy x) :
    (g.separators x call).Sure x := by
  have hf := fun t => Task.framed_run (g := g) h t
  have hw := (hf (.call whitespaceName)).attempt.subjectLoop none
  rw [g.separators_eq, Task.gap_eq h, Grammar.gapTask]
  refine Recogniser.Sure.inGaps ?_
  cases g.hasWhitespace <;> cases g.hasComment
  · exact fun p s m t hd => by cases hd; exact ⟨.refl s, p, rfl, .refl p⟩
  · exact (hf (.call commentName)).attempt.subjectLoop none
  · exact hw
  · exact hw.andThen ((hf (.both (.call commentName) (.many none (.call whitespaceName)))).attempt.subjectLoop none)

namespace Expr

theorem exists_run_eq_noted (e : Expr) (g : Grammar) (x : Subject) (call : Caller) :
    ∃ r : Recogniser, e.run g x call = r.noted := by
  cases e <;> exact ⟨_, rfl⟩

section Nesting

variable {g : Grammar} {x : Subject} {call : Caller} (h : ∀ name, (call name).Tidy x)

include h

theorem reports_run (e : Expr) : (e.run g x call).Reports := by
  have ht := Task.tidy_expr (g := g) h e
  obtain ⟨r, hr⟩ := e.exists_run_eq_noted g x call
  rw [hr] at ht ⊢
  exact ht.reports

theorem run_seq_assoc (a b c : Expr) :
    (seq (seq a b) c).run g x call = (seq a (seq b c)).run g x call := by
  have hs := Grammar.sure_separators (g := g) h
  have hf := fun e => (Task.tidy_expr (g := g) h e).framed
  have hab := (hf a).andThen (hs.tidy.framed.andThen (hf b))
  have hbc := (hf b).andThen (hs.tidy.framed.andThen (hf c))
  have hr := (reports_run (g := g) h b).andThen (hf b)
    (hs.reports.andThen hs.tidy.framed (reports_run (g := g) h c))
  have hleft := Recogniser.attempt_andThen_left hab ((g.separators x call).andThen (c.run g x call))
  have hright := Recogniser.attempt_andThen_right ((hf a).andThen hs.tidy.framed) hbc hr
  rw [Recogniser.andThen_assoc, Recogniser.andThen_assoc] at hleft hright
  exact hleft.trans hright.symm

theorem run_choice_assoc (a b c : Expr) :
    (choice (choice a b) c).run g x call = (choice a (choice b c)).run g x call :=
  Recogniser.noted_orElse_assoc _ (Task.tidy_expr h b) (reports_run h b) _

theorem Reassociates.run_eq {d e : Expr} (hd : d.Reassociates e) : d.run g x call = e.run g x call := by
  induction hd with
  | refl e => rfl
  | symm _ ih => exact ih.symm
  | trans _ _ ih ih' => exact ih.trans ih'
  | seq_assoc a b c => exact run_seq_assoc h a b c
  | choice_assoc a b c => exact run_choice_assoc h a b c
  | look polarity _ ih | optional _ ih | repeated count _ ih | capture _ ih => simp only [Expr.run, ih]
  | seq _ _ ih ih' | choice _ _ ih ih' => simp only [Expr.run, ih, ih']

end Nesting

end Expr

/-- A rule means the same with another grammar if its body does. -/
theorem Rule.run_eq {g g' : Grammar} {x : Subject} {call : Caller} {r r' : Rule} (hn : r.name = r'.name)
    (hk : r.kind = r'.kind) (hb : r.body.run g x call = r'.body.run g' x call) :
    r.run g x call = r'.run g' x call := by
  have hs : r.IsSeparator ↔ r'.IsSeparator := by rw [IsSeparator, IsSeparator, hn]
  simp only [Rule.run, hn, hk, hb, hs]

theorem Grammar.Reassociates.caller_eq {g g' : Grammar} (h : g.Reassociates g') (x : Subject) (n : Nat) :
    g.caller x n = g'.caller x n := by
  funext name
  refine Rulewise.caller (P := Eq) h rfl (fun _ => rfl) (fun _ => rfl) ?_ ?_ n name
  · rintro n r r' hn ⟨hk, hb⟩ hc
    have hc : g.caller x n = g'.caller x n := funext hc
    rw [← hc]
    refine Rule.run_eq hn hk ?_
    rw [hb.run_eq (g.tidy_caller x n), Rulewise.run_eq h]
  · rintro name a b rfl
    rfl

/-- Of its grammar a parser knows what calls come to, and how many rules there are. -/
theorem Parser.withGrammar_congr {g g' : Grammar} (hlength : g.rules.length = g'.rules.length)
    (hcaller : ∀ x n, g.caller x n = g'.caller x n) (p : Parser) (start text : Octets) :
    (p.withGrammar g).parse start text = (p.withGrammar g').parse start text ∧
      ∀ n, (p.withGrammar g).parse? n start text = (p.withGrammar g').parse? n start text ∧
        (p.withGrammar g).run n start (Subject.ofOctets text) =
          (p.withGrammar g').run n start (Subject.ofOctets text) := by
  have hrun : ∀ n, (p.withGrammar g).run n start (Subject.ofOctets text) =
      (p.withGrammar g').run n start (Subject.ofOctets text) := by
    intro n
    rw [run, run, withGrammar, withGrammar, hcaller]
    rfl
  have hparse : ∀ n, (p.withGrammar g).parse? n start text = (p.withGrammar g').parse? n start text := by
    intro n
    rw [parse?_eq_verdict?, parse?_eq_verdict?, hrun]
    rfl
  refine ⟨?_, fun n => ⟨hparse n, hrun n⟩⟩
  have hdepth : g.ampleDepth text = g'.ampleDepth text := by rw [Grammar.ampleDepth, Grammar.ampleDepth, hlength]
  rw [parse, parse, hparse, withGrammar, withGrammar, hdepth]

/-- How sequences and choices are nested makes no difference to a parse: the verdict is the same, with its
tokens, its failure or its error, and so is the whole state of the run. -/
theorem Parser.parse_reassociated {p : Parser} {g : Grammar} (h : p.grammar.Reassociates g) (start text : Octets) :
    (p.withGrammar g).parse start text = p.parse start text ∧
      ∀ n, (p.withGrammar g).parse? n start text = p.parse? n start text ∧
        (p.withGrammar g).run n start (Subject.ofOctets text) = p.run n start (Subject.ofOctets text) :=
  Parser.withGrammar_congr (Grammar.Rulewise.length_rules_eq h).symm (fun x n => (h.caller_eq x n).symm) p start text

/-- Sequences and choices of three parts, nested to the left and to the right, with separators between them. -/
theorem Parser.parse_reassociated_nestings :
    let a : Expr := .rule "a"
    let b : Expr := .capture (.written "b")
    let c : Expr := .ref Builtin.peek.name
    let letter : Rule := .written "a" .normal (.written "a")
    let blank : Rule := .written "whitespace" .normal (.written " ")
    let g : Grammar := ⟨[blank, letter, .written "r" .normal (.choice (.choice (.seq (.seq a b) c) b) a)],
      by decide, by decide, by decide⟩
    let g' : Grammar := ⟨[blank, letter, .written "r" .normal (.choice (.seqAll a [b, c]) (.choice b a))],
      by decide, by decide, by decide⟩
    let p : Parser := { grammar := g }
    p.grammar.Reassociates g' ∧
      (p.withGrammar g').parse (ascii "r") (ascii "a bb") = p.parse (ascii "r") (ascii "a bb") ∧
      (p.withGrammar g').parse (ascii "r") (ascii "a ba") = p.parse (ascii "r") (ascii "a ba") := by
  intro a b c letter blank g g' p
  have h : g.Reassociates g' := by
    refine .cons ⟨rfl, rfl, .refl _⟩ (.cons ⟨rfl, rfl, .refl _⟩ (.cons ⟨rfl, rfl, ?_⟩ .nil))
    exact .trans (.choice_assoc _ b a) (.choice (.seq_assoc a b c) (.refl _))
  exact ⟨h, (parse_reassociated h _ _).1, (parse_reassociated h _ _).1⟩

end Peg
