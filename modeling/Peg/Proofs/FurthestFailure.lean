import Mathlib.Order.Bounds.Basic
import Peg.Proofs.Associativity
import Peg.Proofs.Progress

namespace Peg

/-- What fails of its own accord: all that is compared with the subject at once, and a look ahead for something
that is not wanted. -/
def Task.Tests : Task → Prop
  | .expr (.literal _) | .expr (.folded _) | .expr (.range _) | .expr (.scan _ _) | .expr (.look .negative _) => True
  | .call name => (Builtin.ofName? name).isSome
  | .expr _ | .skip | .nothing | .both _ _ | .many _ _ => False

theorem Task.tests_of_matcher? {x : Subject} {e : Expr} {w : Matcher} (h : e.matcher? x = some w) : (expr e).Tests := by
  cases e <;> cases h <;> trivial

theorem State.furthest_note_congr {s t : State} (h : s.furthest = t.furthest) (k : Match) :
    (s.note k).furthest = (t.note k).furthest := by
  cases k with
  | matched q => exact h
  | failed q => exact congrArg (max · q) h

theorem State.furthest_leaveCall (s : State) : s.leaveCall.furthest = s.furthest := rfl

theorem Rule.furthest_enter (r : Rule) (p : Nat) (s : State) : (r.enter p s).furthest = s.furthest := by
  rw [r.enter_eq]

theorem Rule.furthest_leave (r : Rule) (p : Nat) (s : State) (k : Match) (t : State) :
    (r.leave p s k t).furthest = t.furthest := by
  rw [r.leave_eq]

theorem Builtin.furthest_run {b : Builtin} {x : Subject} {p : Nat} {s t : State} {k : Match}
    (h : b.run x p s = .done k t) : t.furthest = s.furthest := by
  cases b with
  | any | startOfInput =>
      cases h
      rfl
  | endOfInput =>
      rw [run, Recogniser.inRule, Outcome.leave_eq_done] at h
      obtain ⟨u, hu, rfl⟩ := h
      cases hu
      rw [State.furthest_closeRule, State.furthest_openRule]
  | peek | pop => rcases recallTop_eq_done h with rfl | rfl <;> rfl

namespace Moment

variable {g : Grammar} {x : Subject} {m m' : Moment} {p q : Nat} {s t : State} {k : Match}

def Misses (g : Grammar) (x : Subject) (m : Moment) : Prop := m.task.Tests ∧ ∃ q t, m.outcome g x = .done (.failed q) t

/-- The offsets at which something inside a moment fails of its own accord, whatever comes of that failure. -/
def missed (g : Grammar) (x : Subject) (m : Moment) : Set Nat :=
  {q | ∃ m', Contains g x m m' ∧ m'.Misses g x ∧ m'.offset = q}

theorem mem_missed (h : m.Misses g x) : m.offset ∈ m.missed g x := ⟨m, .refl, h, rfl⟩

theorem Leads.missed_subset (h : Leads g x m m') : m'.missed g x ⊆ m.missed g x :=
  fun _ ⟨m'', hc, hm⟩ => ⟨m'', hc.head h, hm⟩

theorem eq_of_expr_failed {n : Nat} {e : Expr} (h : Ends g x ⟨n, .expr e, p, s⟩ (.failed q) t) (hp : p ≤ x.size) :
    q = p := by
  cases Task.tidy_expr (g.tidy_caller x n) e (h.outcome_eq hp) with
  | failed => rfl

theorem eq_of_call_failed {n : Nat} {name : Octets} (h : Ends g x ⟨n, .call name, p, s⟩ (.failed q) t)
    (hp : p ≤ x.size) : q = p := by
  cases g.tidy_caller x n name (h.outcome_eq hp) with
  | failed => rfl

/-- Misses are on record. -/
theorem Misses.le_furthest (hm : m.Misses g x) (h : Ends g x m k t) (hp : m.offset ≤ x.size) :
    m.offset ≤ t.furthest := by
  obtain ⟨htests, q, u, ho⟩ := hm
  rw [h.outcome_eq hp, Outcome.done.injEq] at ho
  obtain ⟨rfl, rfl⟩ := ho
  have ho := h.outcome_eq hp
  obtain ⟨n, task, p, s⟩ := m
  cases task with
  | expr e => exact Expr.reports_run (g.tidy_caller x n) e ho
  | call name =>
      cases n with
      | zero => cases ho
      | succ n => exact Recogniser.Tidy.reports (g.tidy_caller x (n + 1) name) ho
  | skip | nothing | both | many => exact htests.elim

theorem Ends.missed_le (h : Ends g x m k t) (hp : m.offset ≤ x.size) (hq : q ∈ m.missed g x) : q ≤ t.furthest := by
  obtain ⟨m', hc, hm, rfl⟩ := hq
  obtain ⟨k', t', h', hle⟩ := hc.ends h hp
  exact Nat.le_trans (hm.le_furthest h' (hc.offset_le hp)) hle.furthest_le

theorem Ends.misses (h : Ends g x m k t) (hp : m.offset ≤ x.size) (hk : k.succeeded = false) (ht : m.task.Tests) :
    m.Misses g x := by
  cases k with
  | matched => cases hk
  | failed q => exact ⟨ht, q, t, h.outcome_eq hp⟩

/-- Something failed of its own accord where the moment began or behind it. -/
def HasMissed (g : Grammar) (x : Subject) (m : Moment) : Prop := ∃ q ∈ m.missed g x, m.offset ≤ q

theorem Misses.hasMissed (h : m.Misses g x) : m.HasMissed g x := ⟨_, mem_missed h, Nat.le_refl _⟩

theorem Leads.hasMissed (hl : Leads g x m m') (hle : m.offset ≤ m'.offset) (h : m'.HasMissed g x) :
    m.HasMissed g x := by
  obtain ⟨q, hq, hm⟩ := h
  exact ⟨q, hl.missed_subset hq, Nat.le_trans hle hm⟩

theorem Ends.hasMissed (h : Ends g x m k t) (hp : m.offset ≤ x.size) (hk : k.succeeded = false) :
    m.HasMissed g x := by
  induction h with
  | test hw => exact ((Ends.test hw).misses hp hk (Task.tests_of_matcher? hw)).hasMissed
  | builtin hb hl h => exact ((Ends.builtin hb hl h).misses hp hk (by rw [Task.Tests, hb]; rfl)).hasMissed
  | ref _ ih => exact (Leads.ref ..).hasMissed (Nat.le_refl _) (ih hp hk)
  | @look _ polarity _ _ _ k _ h ih =>
      cases polarity with
      | negative => exact ((Ends.look h).misses hp hk trivial).hasMissed
      | positive =>
          cases k with
          | matched => cases hk
          | failed => exact (Leads.look ..).hasMissed (Nat.le_refl _) (ih hp rfl)
  | @seq _ _ _ _ _ k _ _ ih =>
      cases k with
      | matched => cases hk
      | failed => exact (Leads.seq ..).hasMissed (Nat.le_refl _) (ih hp rfl)
  | choice_second hd _ _ ih =>
      exact (Leads.choice_second _ _ _ _ _ (hd.outcome_eq hp)).hasMissed (Nat.le_refl _) (ih hp hk)
  | @optional _ _ _ _ k | @repeated_optional _ _ _ _ _ k => cases k <;> cases hk
  | @repeated_whole _ _ _ _ _ k _ hc _ _ ih =>
      cases k with
      | matched => cases hk
      | failed => exact (Leads.repeated _ _ _ _ _ hc).hasMissed (Nat.le_refl _) (ih hp rfl)
  | capture_failed _ ih => exact (Leads.capture ..).hasMissed (Nat.le_refl _) (ih hp hk)
  | rule hb hf hl _ ih => exact (Leads.rule _ _ _ _ hb hf hl).hasMissed (Nat.le_refl _) (ih hp hk)
  | skip hm _ ih => exact (Leads.skip _ _ _ hm).hasMissed (Nat.le_refl _) (ih hp hk)
  | both_first _ ih => exact (Leads.both_first ..).hasMissed (Nat.le_refl _) (ih hp hk)
  | both ht _ _ ihu =>
      have ho := ht.outcome_eq hp
      have hx := reaches_of_outcome ho
      exact (Leads.both_second _ _ _ _ _ ho).hasMissed hx.1 (ihu (hx.2 hp) hk)
  | many_more hr h hq _ _ ih =>
      have ho := h.outcome_eq hp
      have hx := reaches_of_outcome ho
      exact (Leads.many_more _ _ _ _ _ hr ho hq).hasMissed hx.1 (ih (hx.2 hp) hk)
  | choice_first | repeated_never | capture_matched | skip_nothing | nothing | many_full | many_failed | many_last =>
      cases hk

/-- A failure is on record behind its beginning even before it is noted. -/
theorem Ends.offset_le_furthest (h : Ends g x m k t) (hp : m.offset ≤ x.size) (hk : k.succeeded = false) :
    m.offset ≤ t.furthest := by
  obtain ⟨q, hq, hle⟩ := h.hasMissed hp hk
  exact Nat.le_trans hle (h.missed_le hp hq)

/-- To note the failure of a whole changes nothing, for its parts have failed there or behind. -/
theorem Ends.furthest_note (h : Ends g x m k t) (hp : m.offset ≤ x.size) :
    (t.note (k.whole m.offset)).furthest = t.furthest := by
  cases k with
  | matched q => rfl
  | failed q => exact Nat.max_eq_left (h.offset_le_furthest hp rfl)

theorem Ends.whole_expr {n : Nat} {e : Expr} (h : Ends g x ⟨n, .expr e, p, s⟩ k t) (hp : p ≤ x.size) :
    k.whole p = k := by
  cases k with
  | matched q => rfl
  | failed q => rw [eq_of_expr_failed h hp, Match.whole]

theorem Ends.whole_call {n : Nat} {name : Octets} (h : Ends g x ⟨n, .call name, p, s⟩ k t) (hp : p ≤ x.size) :
    k.whole p = k := by
  cases k with
  | matched q => rfl
  | failed q => rw [eq_of_call_failed h hp, Match.whole]

theorem Ends.furthest_note_expr {n : Nat} {e : Expr} (h : Ends g x ⟨n, .expr e, p, s⟩ k t) (hp : p ≤ x.size) :
    (t.note k).furthest = t.furthest := by
  have hn := h.furthest_note hp
  rwa [h.whole_expr hp] at hn

theorem Leads.furthest_mem (hl : Leads g x m m') (hm : m'.state.furthest ∈ insert m.state.furthest (m.missed g x))
    (ht : q ∈ insert m'.state.furthest (m'.missed g x)) : q ∈ insert m.state.furthest (m.missed g x) := by
  rcases ht with rfl | hq
  · exact hm
  · exact .inr (hl.missed_subset hq)

theorem Ends.furthest_mem_of_tests (h : Ends g x m k s) (hp : m.offset ≤ x.size) (htests : m.task.Tests)
    (hk : k.whole m.offset = k) (ht : t.furthest ∈ insert m.state.furthest (m.missed g x)) :
    (t.note k).furthest ∈ insert m.state.furthest (m.missed g x) := by
  cases k with
  | matched q => exact ht
  | failed q =>
      cases hk
      rw [State.note]
      rcases Nat.le_total t.furthest m.offset with hle | hle
      · rw [Nat.max_eq_right hle]
        exact .inr (mem_missed (h.misses hp rfl htests))
      · rwa [Nat.max_eq_left hle]

/-- The furthest failure on record is the one there was before the moment, or a failure of its own accord inside
it. -/
theorem Ends.furthest_mem (h : Ends g x m k t) (hp : m.offset ≤ x.size) :
    t.furthest ∈ insert m.state.furthest (m.missed g x) := by
  induction h with
  | @test n e p s w hw =>
      have he := @Ends.test g x n e p s w hw
      exact he.furthest_mem_of_tests hp (Task.tests_of_matcher? hw) (he.whole_expr hp) (.inl rfl)
  | @builtin n name p s b k t hb hl h =>
      have he := @Ends.builtin g x n name p s b k t hb hl h
      have ht := Builtin.furthest_run h
      exact he.furthest_mem_of_tests hp (by rw [Task.Tests, hb]; rfl) (he.whole_call hp) (.inl ht)
  | ref h ih =>
      have hn := h.furthest_note hp
      rw [h.whole_call hp] at hn
      rw [hn]
      exact (Leads.ref ..).furthest_mem (.inl rfl) (ih hp)
  | @look n polarity _ p _ k t h ih =>
      have ht := (Leads.look ..).furthest_mem (.inl rfl) (ih hp)
      cases polarity with
      | negative => exact (Ends.look h).furthest_mem_of_tests hp trivial ((Ends.look h).whole_expr hp) ht
      | positive =>
          cases k with
          | matched => exact ht
          | failed q =>
              rw [← h.furthest_note hp] at ht
              exact ht
  | seq h ih =>
      rw [State.furthest_note_congr (State.furthest_rollBack ..), h.furthest_note hp]
      exact (Leads.seq ..).furthest_mem (.inl rfl) (ih hp)
  | choice_first _ ih => exact (Leads.choice_first ..).furthest_mem (.inl rfl) (ih hp)
  | choice_second hd he ihd ihe =>
      rw [he.furthest_note_expr hp]
      exact (Leads.choice_second _ _ _ _ _ (hd.outcome_eq hp)).furthest_mem
        ((Leads.choice_first ..).furthest_mem (.inl rfl) (ihd hp)) (ihe hp)
  | optional _ ih => exact (Leads.optional ..).furthest_mem (.inl rfl) (ih hp)
  | repeated_never | skip_nothing | nothing | many_full => exact .inl rfl
  | repeated_optional hc _ _ ih => exact (Leads.repeated _ _ _ _ _ hc).furthest_mem (.inl rfl) (ih hp)
  | repeated_whole hc _ h ih =>
      rw [State.furthest_note_congr (State.furthest_rollBack ..), h.furthest_note hp]
      exact (Leads.repeated _ _ _ _ _ hc).furthest_mem (.inl rfl) (ih hp)
  | capture_matched _ ih => exact (Leads.capture ..).furthest_mem (.inl rfl) (ih hp)
  | capture_failed h ih =>
      rw [h.furthest_note_expr hp]
      exact (Leads.capture ..).furthest_mem (.inl rfl) (ih hp)
  | rule hb hf hl h ih =>
      rw [State.furthest_note_congr ((State.furthest_leaveCall _).trans (Rule.furthest_leave ..)),
        h.furthest_note_expr hp]
      exact (Leads.rule _ _ _ _ hb hf hl).furthest_mem (.inl (Rule.furthest_enter ..)) (ih hp)
  | skip hm _ ih => exact (Leads.skip _ _ _ hm).furthest_mem (.inl rfl) (ih hp)
  | both_first _ ih => exact (Leads.both_first ..).furthest_mem (.inl rfl) (ih hp)
  | both ht _ iht ihu =>
      have ho := ht.outcome_eq hp
      exact (Leads.both_second _ _ _ _ _ ho).furthest_mem ((Leads.both_first ..).furthest_mem (.inl rfl) (iht hp))
        (ihu ((reaches_of_outcome ho).2 hp))
  | many_failed hr _ ih | many_last hr _ _ ih =>
      exact (Leads.many_first _ _ _ _ _ hr).furthest_mem (.inl rfl) (ih hp)
  | many_more hr h hq _ ih ihm =>
      have ho := h.outcome_eq hp
      exact (Leads.many_more _ _ _ _ _ hr ho hq).furthest_mem
        ((Leads.many_first _ _ _ _ _ hr).furthest_mem (.inl rfl) (ih hp))
        (ihm ((reaches_of_outcome ho).2 hp))

/-- The furthest failure on record is the last of those inside the moment and of the one there was before it. -/
theorem Ends.isGreatest_furthest (h : Ends g x m k t) (hp : m.offset ≤ x.size) :
    IsGreatest (insert m.state.furthest (m.missed g x)) t.furthest := by
  refine ⟨h.furthest_mem hp, ?_⟩
  rintro q (rfl | hq)
  · exact (h.learns hp).furthest_le
  · exact h.missed_le hp hq

/-- If no failure was on record behind its beginning, then what fails brings one of its own there. -/
theorem Ends.isGreatest_missed (h : Ends g x m k t) (hp : m.offset ≤ x.size) (hk : k.succeeded = false)
    (hs : m.state.furthest ≤ m.offset) : IsGreatest (m.missed g x) t.furthest := by
  refine ⟨?_, fun q hq => h.missed_le hp hq⟩
  rcases h.furthest_mem hp with he | hmem
  · obtain ⟨q, hq, hle⟩ := h.hasMissed hp hk
    have hqt := h.missed_le hp hq
    have hqe : q = t.furthest := by omega
    exact hqe ▸ hq
  · exact hmem

end Moment

/-- A failed parse reports the last offset at which anything failed of its own accord, wherever in the run that was
and whatever became of it, and this is an offset inside the text. The failure of a whole moves it nowhere: at every
moment of the run that ends, it is afterwards what it was before, or the last such offset inside the moment. -/
theorem Parser.furthest_failure {p : Parser} {n : Nat} {start text : Octets} {f : Failure}
    (h : p.parse? n start text = some (.ok (.refused f))) :
    let x := Subject.ofOctets text
    IsGreatest ((p.beginning n start).missed p.grammar x) f.offset ∧ f.offset ≤ text.length ∧
      ∀ m, (p.beginning n start).Contains p.grammar x m → ∀ k t, m.outcome p.grammar x = .done k t →
        IsGreatest (insert m.state.furthest (m.missed p.grammar x)) t.furthest := by
  intro x
  obtain ⟨q, s, he, rfl⟩ := ends_of_refused h
  have hmissed : IsGreatest ((p.beginning n start).missed p.grammar x) s.furthest :=
    he.isGreatest_missed (Nat.zero_le _) rfl (Nat.le_refl _)
  refine ⟨hmissed, ?_, fun m hc k t ho => ?_⟩
  · obtain ⟨m, hc, -, hm⟩ := hmissed.1
    have hle := hc.offset_le (Nat.zero_le _)
    rw [hm, x.size_eq] at hle
    exact hle
  · have hle := hc.offset_le (Nat.zero_le _)
    exact ((Moment.ends_iff hle).mpr ho).isGreatest_furthest hle

/-- A look ahead that succeeds because its second part fails. That failure is behind the one that refuses the text. -/
theorem Parser.furthest_failure_lookahead :
    let e : Expr := .look .negative (.seq (.written "a") (.written "b"))
    let p : Parser := { grammar := ⟨[.written "r" .normal (.seq e (.written "c"))], by decide, by decide, by decide⟩ }
    ∃ f, p.parse? 2 (ascii "r") (ascii "ax") = some (.ok (.refused f)) ∧ f.offset = 1 ∧
      IsGreatest ((p.beginning 2 (ascii "r")).missed p.grammar (Subject.ofOctets (ascii "ax"))) f.offset :=
  ⟨_, rfl, rfl, (furthest_failure rfl).1⟩

end Peg
