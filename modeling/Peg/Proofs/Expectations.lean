import Mathlib.Algebra.Ring.Parity
import Peg.Proofs.Attempts
import Peg.Proofs.Endings

namespace Peg

/-- Whether a call of the rule in this mode may be put on record: outside atomic rules, or if the rule begins a mode
of its own that is not atomic. -/
def Rule.MayReport (r : Rule) (m : Atomicity) : Prop := m ≠ .atomic ∨ r.kind = .compoundAtomic ∨ r.kind = .nonAtomic

theorem Rule.mayReport_of_hasNode {r : Rule} {m : Atomicity} (h : r.hasNode m = true) : r.MayReport m := by
  unfold hasNode at h
  unfold MayReport
  cases hk : r.kind <;> simp_all

/-- A node that was opened with the record of `s` and whose inside left the record of `t` is put on record where it
disappoints, outside atomic rules. -/
theorem State.attempts_closeNode {s s' t u : State} {c : Prop} [Decidable c] (hs : s'.attempts = s.attempts)
    (hu : u.attempts = t.attempts) (hl : u.lookahead = t.lookahead) (hc : u.atomicity ≠ .atomic ↔ c) (rule : Octets)
    (p : Nat) (k : Match) : (u.closeRule (s'.ruleFrame rule p) k).attempts =
      if t.Disappoints k ∧ c then t.attempts.record rule t.polarity p (s.attempts.countAt p) else t.attempts := by
  have hpol : u.polarity = t.polarity := congrArg (fun l => l.getD .positive) hl
  have hd : u.Disappoints k ↔ t.Disappoints k := by rw [Disappoints, Disappoints, hpol]
  simp only [attempts_closeRule_eq, ruleFrame, hd, hc, hpol, hu, hs]

/-- A rule that was called in the state `s` is put on record where it disappoints, if the call has a node. -/
theorem Rule.attempts_leave_eq (r : Rule) {p : Nat} {s t : State} {k : Match}
    (h : t.atomicity = (r.enter p s).atomicity) : (r.leave p s k t).attempts =
      if t.Disappoints k ∧ r.hasNode s.atomicity = true then
        t.attempts.record r.name t.polarity p (s.attempts.countAt p)
      else t.attempts := by
  have ho : (s.openRule (s.ruleFrame r.name p)).atomicity = s.atomicity := by rw [State.openRule_eq]
  have hnone (hn : r.hasNode s.atomicity = false) : t.attempts =
      if t.Disappoints k ∧ r.hasNode s.atomicity = true then
        t.attempts.record r.name t.polarity p (s.attempts.countAt p)
      else t.attempts := by simp [hn]
  have houter (hn : r.hasNode s.atomicity = decide (s.atomicity ≠ .atomic)) :=
    State.attempts_closeNode (u := t.setAtomicity (s.openRule (s.ruleFrame r.name p)).atomicity)
      (rfl : s.attempts = s.attempts) rfl rfl (show _ ↔ r.hasNode s.atomicity = true by
        rw [hn, decide_eq_true_eq, State.setAtomicity, ho]) r.name p k
  unfold Rule.enter Rule.scopes at h
  unfold Rule.leave Rule.scopes
  by_cases hsep : r.IsSeparator
  · rw [if_pos hsep]
    cases hk : r.kind with
    | normal | atomic => exact houter (by rw [hasNode, hk])
    | silent | compoundAtomic | nonAtomic => exact hnone (by simp [hasNode, hk, hsep])
  · rw [if_neg hsep] at h ⊢
    cases hk : r.kind with
    | normal =>
        rw [hk] at h
        exact State.attempts_closeNode (u := t) rfl rfl rfl (by rw [hasNode, hk, decide_eq_true_eq, h.trans ho]) r.name p k
    | silent => exact hnone (by rw [hasNode, hk])
    | atomic => exact houter (by rw [hasNode, hk])
    | compoundAtomic | nonAtomic =>
        rw [hk] at h
        -- the rule sets its mode before its node is opened, so the mode outside does not matter
        refine State.attempts_closeNode (u := t) rfl rfl rfl (iff_of_true ?_ (by simp [hasNode, hk, hsep])) r.name p k
        rw [h]
        change ((s.setAtomicity _).openRule _).atomicity ≠ _
        rw [State.openRule_eq]
        simp [State.setAtomicity]

theorem Rule.attempts_leave (r : Rule) {p : Nat} {s t : State} {k : Match}
    (h : t.atomicity = (r.enter p s).atomicity) : (r.leave p s k t).attempts = t.attempts ∨
      t.Disappoints k ∧ r.MayReport s.atomicity ∧
        ∃ before, (r.leave p s k t).attempts = t.attempts.record r.name t.polarity p before := by
  rw [r.attempts_leave_eq h]
  split
  next hc => exact .inr ⟨hc.1, Rule.mayReport_of_hasNode hc.2, _, rfl⟩
  next => exact .inl rfl

/-- The end of the input is put on record where it disappoints, outside atomic rules. No other builtin is. -/
theorem Builtin.attempts_run_eq {b : Builtin} {x : Subject} {p : Nat} {s t : State} {k : Match}
    (h : b.run x p s = .done k t) : t.attempts =
      if b = endOfInput ∧ s.Disappoints k ∧ s.atomicity ≠ .atomic then
        s.attempts.record b.name s.polarity p (s.attempts.countAt p)
      else s.attempts := by
  cases b with
  | any | startOfInput =>
      cases h
      simp
  | endOfInput =>
      rw [run, Recogniser.inRule, Outcome.leave_eq_done] at h
      obtain ⟨u, hu, rfl⟩ := h
      cases hu
      rw [State.attempts_closeRule_eq, State.openRule_eq]
      simp only [true_and]
      rfl
  | peek | pop =>
      simp only [reduceCtorEq, false_and, if_false]
      rcases recallTop_eq_done h with rfl | rfl <;> rfl

theorem Builtin.attempts_run {b : Builtin} {x : Subject} {p : Nat} {s t : State} {k : Match}
    (h : b.run x p s = .done k t) : t.attempts = s.attempts ∨
      b = endOfInput ∧ s.Disappoints k ∧ s.atomicity ≠ .atomic ∧
        ∃ before, t.attempts = s.attempts.record b.name s.polarity p before := by
  rw [attempts_run_eq h]
  split
  next hc => exact .inr ⟨hc.1, hc.2.1, hc.2.2, _, rfl⟩
  next => exact .inl rfl

namespace Moment

variable {g : Grammar} {x : Subject} {m m' : Moment} {n p q : Nat} {s t : State} {k : Match} {a : Attempts}
  {name : Octets} {polarity : Polarity}

/-- Whether a call of the name in this moment may be put on record. -/
def MayReport (g : Grammar) (name : Octets) (m : Moment) : Prop :=
  (name = Builtin.endOfInput.name ∧ m.state.atomicity ≠ .atomic) ∨
    ∃ r ∈ g.rules, r.name = name ∧ r.MayReport m.state.atomicity

/-- A call that turned out otherwise than was wanted, with the polarity of what is wanted, and that may be put on
record. -/
structure Tried (g : Grammar) (x : Subject) (polarity : Polarity) (name : Octets) (m : Moment) : Prop where
  task : m.task = .call name
  wanted : m.state.polarity = polarity
  disappoints : ∃ k t, m.outcome g x = .done k t ∧ k.succeeded = decide (polarity = .negative)
  mayReport : m.MayReport g name

/-- Each name on record was there before the moment, for the same offset, or it was tried there inside the moment. -/
def Accounts (g : Grammar) (x : Subject) (m : Moment) (a : Attempts) : Prop :=
  ∀ polarity, ∀ name ∈ a.names polarity,
    (name ∈ m.state.attempts.names polarity ∧ m.state.attempts.offset = a.offset) ∨
      ∃ m', Contains g x m m' ∧ m'.offset = a.offset ∧ m'.Tried g x polarity name

theorem accounts_self : m.Accounts g x m.state.attempts :=
  fun _ _ hn => .inl ⟨hn, rfl⟩

theorem Leads.accounts (hl : Leads g x m m') (hm : m.Accounts g x m'.state.attempts) (ha : m'.Accounts g x a) :
    m.Accounts g x a := by
  intro polarity name hn
  rcases ha polarity name hn with ⟨hn, ho⟩ | ⟨m'', hc, ho, ht⟩
  · rw [← ho]
    exact hm polarity name hn
  · exact .inr ⟨m'', hc.head hl, ho, ht⟩

theorem Accounts.record (h : m.Accounts g x a) (ht : m.Tried g x polarity name) (before : AttemptCount) :
    m.Accounts g x (a.record name polarity m.offset before) := by
  intro wanted other hn
  rcases Attempts.mem_names_record hn with ⟨hn, ho⟩ | ⟨rfl, rfl, ho⟩
  · rw [← ho]
    exact h wanted other hn
  · exact .inr ⟨m, .refl, ho, ht⟩

theorem Ends.accounts (h : Ends g x m k t) (hp : m.offset ≤ x.size) : m.Accounts g x t.attempts := by
  induction h with
  | test =>
      rw [State.attempts_note]
      exact accounts_self
  | ref _ ih =>
      rw [State.attempts_note]
      exact (Leads.ref ..).accounts accounts_self (ih hp)
  | look _ ih =>
      rw [State.attempts_note]
      exact (Leads.look ..).accounts accounts_self (ih hp)
  | seq _ ih =>
      rw [State.attempts_note, State.attempts_rollBack]
      exact (Leads.seq ..).accounts accounts_self (ih hp)
  | choice_first _ ih => exact (Leads.choice_first ..).accounts accounts_self (ih hp)
  | choice_second hd _ ihd ihe =>
      rw [State.attempts_note]
      exact (Leads.choice_second _ _ _ _ _ (hd.outcome_eq hp)).accounts
        ((Leads.choice_first ..).accounts accounts_self (ihd hp)) (ihe hp)
  | optional _ ih => exact (Leads.optional ..).accounts accounts_self (ih hp)
  | repeated_never | skip_nothing | nothing | many_full => exact accounts_self
  | repeated_optional hc _ _ ih => exact (Leads.repeated _ _ _ _ _ hc).accounts accounts_self (ih hp)
  | repeated_whole hc _ _ ih =>
      rw [State.attempts_note, State.attempts_rollBack]
      exact (Leads.repeated _ _ _ _ _ hc).accounts accounts_self (ih hp)
  | capture_matched _ ih => exact (Leads.capture ..).accounts accounts_self (ih hp)
  | capture_failed _ ih =>
      rw [State.attempts_note]
      exact (Leads.capture ..).accounts accounts_self (ih hp)
  | @builtin n name p s b k t hb hl h =>
      rw [State.attempts_note]
      rcases Builtin.attempts_run h with ha | ⟨rfl, hd, hm, before, ha⟩ <;> (change Accounts _ _ _ t.attempts; rw [ha])
      · exact accounts_self
      · cases Builtin.name_of_ofName? hb
        have ho := (Ends.builtin (g := g) (n := n) hb hl h).outcome_eq hp
        exact accounts_self.record ⟨rfl, rfl, ⟨_, _, ho, hd⟩, .inl ⟨rfl, hm⟩⟩ before
  | @rule n name p s r k t hb hf hl h ih =>
      have hg := (framed_outcome g x n (.expr r.body) (h.outcome_eq hp)).1
      have hi := (Leads.rule _ _ _ _ hb hf hl).accounts (by rw [r.enter_eq]; exact accounts_self) (ih hp)
      have hpol : t.polarity = s.polarity := by
        rw [State.polarity, hg.lookahead, r.enter_eq]
        rfl
      rw [State.attempts_note]
      rcases r.attempts_leave (s := s.enterCall ⟨name, p⟩) hg.atomicity with ha | ⟨hd, hm, before, ha⟩ <;>
        (change Accounts _ _ _ (r.leave p (s.enterCall ⟨name, p⟩) k t).attempts; rw [ha])
      · exact hi
      · obtain ⟨hr, rfl⟩ := Grammar.find?_eq_some hf
        rw [State.Disappoints, hpol] at hd
        rw [hpol]
        have ho := (Ends.rule hb hf hl h).outcome_eq hp
        exact hi.record ⟨rfl, rfl, ⟨_, _, ho, hd⟩, .inr ⟨r, hr, rfl, hm⟩⟩ before
  | skip hm _ ih => exact (Leads.skip _ _ _ hm).accounts accounts_self (ih hp)
  | both_first _ ih => exact (Leads.both_first ..).accounts accounts_self (ih hp)
  | both ht _ iht ihu =>
      have ho := ht.outcome_eq hp
      exact (Leads.both_second _ _ _ _ _ ho).accounts ((Leads.both_first ..).accounts accounts_self (iht hp))
        (ihu ((reaches_of_outcome ho).2 hp))
  | many_failed hr _ ih | many_last hr _ _ ih =>
      exact (Leads.many_first _ _ _ _ _ hr).accounts accounts_self (ih hp)
  | many_more hr h hq _ ih ihm =>
      have ho := h.outcome_eq hp
      exact (Leads.many_more _ _ _ _ _ hr ho hq).accounts
        ((Leads.many_first _ _ _ _ _ hr).accounts accounts_self (ih hp)) (ihm ((reaches_of_outcome ho).2 hp))

end Moment

def Task.negations : Task → Nat
  | .expr (.look .negative _) => 1
  | _ => 0

namespace Moment

/-- The later moment is a part of the earlier one, inside this many negative look aheads. -/
inductive ContainsUnder (g : Grammar) (x : Subject) : Nat → Moment → Moment → Prop
  | refl (m) : ContainsUnder g x 0 m m
  | tail {i m m' m''} (h : ContainsUnder g x i m m') (hl : Leads g x m' m'') :
      ContainsUnder g x (i + m'.task.negations) m m''

variable {g : Grammar} {x : Subject} {m m' : Moment} {i : Nat}

theorem Contains.exists_under (h : Contains g x m m') : ∃ i, ContainsUnder g x i m m' := by
  induction h with
  | refl => exact ⟨0, .refl m⟩
  | tail _ hl ih =>
      obtain ⟨i, hi⟩ := ih
      exact ⟨_, hi.tail hl⟩

/-- Only a negative look ahead turns what is wanted into what is not. -/
theorem Leads.polarity (hl : Leads g x m m') :
    m'.state.polarity = .positive ↔ (m.state.polarity = .positive ↔ Even m.task.negations) := by
  have hsame : ∀ {s t : State}, t.lookahead = s.lookahead →
      (t.polarity = .positive ↔ (s.polarity = .positive ↔ Even 0)) := by
    intro s t ht
    rw [State.polarity, State.polarity, ht, iff_true_right Even.zero]
  cases hl with
  | look n polarity e p s =>
      cases polarity <;> rcases hs : s.lookahead with _ | _ | _ <;>
        simp [State.polarity, State.lookInto, Task.negations, hs, Polarity.within]
  | choice_second n d e p s h | both_second n t u p s h | many_more n room t p s _ h _ =>
      exact hsame (framed_outcome _ _ _ _ h).1.lookahead
  | rule => exact hsame (by rw [Rule.enter_eq]; rfl)
  | ref | seq | choice_first | optional | repeated | capture | skip | both_first | many_first => exact hsame rfl

theorem ContainsUnder.polarity (h : ContainsUnder g x i m m') :
    m'.state.polarity = .positive ↔ (m.state.polarity = .positive ↔ Even i) := by
  induction h with
  | refl => simp
  | tail _ hl ih =>
      rw [hl.polarity, ih, Nat.even_add]
      tauto

end Moment

/-- What a failure names is true. A rule that it expects, or the end of the input, was called where the failure is
reported, inside an even number of negative look aheads, and failed. One that it did not expect was called there
inside an odd number of them, and matched. Each call was made outside atomic rules, or of a rule with a mode of its
own. -/
theorem Parser.expectations_true {p : Parser} {n : Nat} {start text : Octets} {f : Failure}
    (h : p.parse? n start text = some (.ok (.refused f))) :
    let g := p.grammar
    let x := Subject.ofOctets text
    (∀ name ∈ f.expected, ∃ i m, (p.beginning n start).ContainsUnder g x i m ∧ Even i ∧ m.task = .call name ∧
        m.offset = f.offset ∧ (∃ q t, m.outcome g x = .done (.failed q) t) ∧ m.MayReport g name) ∧
      ∀ name ∈ f.unexpected, ∃ i m, (p.beginning n start).ContainsUnder g x i m ∧ Odd i ∧ m.task = .call name ∧
        m.offset = f.offset ∧ (∃ q t, m.outcome g x = .done (.matched q) t) ∧ m.MayReport g name := by
  intro g x
  obtain ⟨q, s, he, rfl⟩ := ends_of_refused h
  have htried : ∀ polarity, ∀ name ∈ s.attempts.names polarity, ∃ i m, (p.beginning n start).ContainsUnder g x i m ∧
      m.offset = s.attempts.offset ∧ m.Tried g x polarity name := by
    intro polarity name hn
    rcases he.accounts (Nat.zero_le _) polarity name hn with ⟨hnone, -⟩ | ⟨m, hc, ho, ht⟩
    · cases polarity <;> exact absurd hnone (Array.not_mem_empty _)
    · obtain ⟨i, hi⟩ := hc.exists_under
      exact ⟨i, m, hi, ho, ht⟩
  have heven : ∀ {i m}, (p.beginning n start).ContainsUnder g x i m → (m.state.polarity = .positive ↔ Even i) :=
    fun hi => hi.polarity.trans (iff_true_left rfl)
  constructor <;> intro name hn
  · change name ∈ (if s.attempts.offset = s.furthest then s.attempts.expected.toList else []) at hn
    split at hn
    next hf =>
      obtain ⟨i, m, hi, ho, htask, hw, ⟨k, t, hk, hs⟩, hm⟩ := htried .positive name (Array.mem_toList_iff.mp hn)
      cases k with
      | matched => cases hs
      | failed q => exact ⟨i, m, hi, (heven hi).mp hw, htask, ho.trans hf, ⟨q, t, hk⟩, hm⟩
    next => cases hn
  · change name ∈ (if s.attempts.offset = s.furthest then s.attempts.unexpected.toList else []) at hn
    split at hn
    next hf =>
      obtain ⟨i, m, hi, ho, htask, hw, ⟨k, t, hk, hs⟩, hm⟩ := htried .negative name (Array.mem_toList_iff.mp hn)
      have hodd : Odd i := by
        rw [← Nat.not_even_iff_odd, ← heven hi, hw]
        exact nofun
      cases k with
      | matched q => exact ⟨i, m, hi, hodd, htask, ho.trans hf, ⟨q, t, hk⟩, hm⟩
      | failed => cases hs
    next => cases hn

/-- One rule is not expected, inside a negative look ahead, and one is expected, inside two of them. -/
theorem Parser.expectations_true_nested :
    let digit : Rule := .written "d" .normal (.writtenRange "0" "9")
    let letter : Rule := .written "a" .normal (.written "a")
    let e : Expr := .choice (.look .negative (.rule "d")) (.look .negative (.look .negative (.rule "a")))
    let p : Parser := { grammar := ⟨[digit, letter, .written "r" .silent e], by decide, by decide, by decide⟩ }
    let x := Subject.ofOctets (ascii "1")
    ∃ f, p.parse? 3 (ascii "r") (ascii "1") = some (.ok (.refused f)) ∧
      (ascii "a" ∈ f.expected ∧ ∃ i m, (p.beginning 3 (ascii "r")).ContainsUnder p.grammar x i m ∧ Even i ∧
        m.task = .call (ascii "a") ∧ m.offset = f.offset ∧ (∃ q t, m.outcome p.grammar x = .done (.failed q) t) ∧
        m.MayReport p.grammar (ascii "a")) ∧
      (ascii "d" ∈ f.unexpected ∧ ∃ i m, (p.beginning 3 (ascii "r")).ContainsUnder p.grammar x i m ∧ Odd i ∧
        m.task = .call (ascii "d") ∧ m.offset = f.offset ∧ (∃ q t, m.outcome p.grammar x = .done (.matched q) t) ∧
        m.MayReport p.grammar (ascii "d")) := by
  intro digit letter e p x
  have h : ∃ f, p.parse? 3 (ascii "r") (ascii "1") = some (.ok (.refused f)) ∧ f.expected = [ascii "a"] ∧
      f.unexpected = [ascii "d"] := ⟨_, rfl, rfl, rfl⟩
  obtain ⟨f, hf, ha, hd⟩ := h
  have hma : ascii "a" ∈ f.expected := ha ▸ List.mem_singleton_self _
  have hmd : ascii "d" ∈ f.unexpected := hd ▸ List.mem_singleton_self _
  exact ⟨f, hf, ⟨hma, (expectations_true hf).1 _ hma⟩, hmd, (expectations_true hf).2 _ hmd⟩

end Peg
