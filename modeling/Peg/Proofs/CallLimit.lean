import Peg.Grammar.Written
import Peg.Proofs.Termination

namespace Peg

def State.limited (limit : Nat) (s : State) : State := { s with callLimit := limit }

def Parser.limited (limit : Nat) (p : Parser) : Parser := { p with callLimit := limit }

/-- A run within a call limit, beside one that differs in the limit only. The first one may be cut off, and
nothing is said of the second one then. -/
inductive Outcome.Outlived (low high : Nat) : Outcome State → Outcome State → Prop
  | done (m : Match) {s : State} (h : s.callLimit = low) : Outlived low high (.done m s) (.done m (s.limited high))
  | raised (e : RunError) (s : State) : Outlived low high (.raised e s) (.raised e (s.limited high))
  | callDepth (s : State) (o : Outcome State) : Outlived low high (.raised .callDepth s) o
  | exhausted (o : Outcome State) : Outlived low high .exhausted o

/-- A change of the state that neither reads nor writes the call limit. -/
def State.Unlimited (f : State → State) : Prop :=
  ∀ s, (f s).callLimit = s.callLimit ∧ ∀ limit, f (s.limited limit) = (f s).limited limit

namespace State

theorem unlimited_note (m : Match) : Unlimited (State.note m) := by
  intro s
  cases m <;> exact ⟨rfl, fun _ => rfl⟩

theorem unlimited_rollBack (k : Mark) (m : Match) : Unlimited (State.rollBack k m) := by
  intro s
  cases m <;> exact ⟨rfl, fun _ => rfl⟩

theorem recordAttempt_limited (f : RuleFrame) (limit : Nat) (s : State) :
    (s.limited limit).recordAttempt f = (s.recordAttempt f).limited limit := by
  by_cases ha : s.atomicity = .atomic
  · have hl : (s.limited limit).atomicity = .atomic := ha
    rw [recordAttempt, recordAttempt, if_pos ha, if_pos hl]
  · have hl : (s.limited limit).atomicity ≠ .atomic := ha
    rw [recordAttempt, recordAttempt, if_neg ha, if_neg hl]
    rfl

theorem closeTokens_limited (f : RuleFrame) (m : Match) (limit : Nat) (s : State) :
    (s.limited limit).closeTokens f m = (s.closeTokens f m).limited limit := by
  cases m <;> rfl

theorem unlimited_closeRule (f : RuleFrame) (m : Match) : Unlimited (State.closeRule f m) := by
  refine fun s => ⟨by rw [closeRule_eq], fun limit => ?_⟩
  have hd : (s.limited limit).Disappoints m ↔ s.Disappoints m := Iff.rfl
  by_cases hm : s.Disappoints m
  · simp only [closeRule, hd, if_pos hm, recordAttempt_limited, closeTokens_limited]
    split <;> rfl
  · simp only [closeRule, hd, if_neg hm, closeTokens_limited]
    split <;> rfl

end State

namespace Outcome.Outlived

variable {low high : Nat} {o o' : Outcome State}

theorem andThen {f f' : Nat → State → Outcome State} (h : o.Outlived low high o')
    (hf : ∀ q ⦃s : State⦄, s.callLimit = low → (f q s).Outlived low high (f' q (s.limited high))) :
    (o.andThen f).Outlived low high (o'.andThen f') := by
  cases h with
  | done m hs =>
      cases m with
      | matched q => exact hf q hs
      | failed q => exact .done _ hs
  | raised e s => exact .raised e s
  | callDepth s o' => exact .callDepth s _
  | exhausted o' => exact .exhausted _

theorem orElse {f f' : Nat → State → Outcome State} (h : o.Outlived low high o')
    (hf : ∀ q ⦃s : State⦄, s.callLimit = low → (f q s).Outlived low high (f' q (s.limited high))) :
    (o.orElse f).Outlived low high (o'.orElse f') := by
  cases h with
  | done m hs =>
      cases m with
      | matched q => exact .done _ hs
      | failed q => exact hf q hs
  | raised e s => exact .raised e s
  | callDepth s o' => exact .callDepth s _
  | exhausted o' => exact .exhausted _

theorem mapMatch (h : o.Outlived low high o') (f : Match → Match) :
    (o.mapMatch f).Outlived low high (o'.mapMatch f) := by
  cases h with
  | done m hs => exact .done _ hs
  | raised e s => exact .raised e s
  | callDepth s o' => exact .callDepth s _
  | exhausted o' => exact .exhausted _

theorem leave {f : Match → State → State} (h : o.Outlived low high o') (hf : ∀ m, State.Unlimited (f m)) :
    (o.leave f).Outlived low high (o'.leave f) := by
  cases h with
  | @done m s hs =>
      obtain ⟨hk, hc⟩ := hf m s
      simp only [Outcome.leave, hc]
      exact .done m (hk.trans hs)
  | raised e s => exact .raised e s
  | callDepth s o' => exact .callDepth s _
  | exhausted o' => exact .exhausted _

/-- What is told of a run does not tell the limit. -/
theorem verdict?_eq (h : o.Outlived low high o') (x : Subject) (tabs : TabStops) (hn : o ≠ .exhausted)
    (hd : o.verdict? x tabs ≠ some (.error .callDepth)) : o'.verdict? x tabs = o.verdict? x tabs := by
  cases h with
  | done m hs => cases m <;> rfl
  | raised e s => rfl
  | callDepth s o' => exact absurd rfl hd
  | exhausted o' => exact absurd rfl hn

end Outcome.Outlived

namespace Recogniser

/-- Under the low limit the first recogniser does what the second one does under the high limit, for as long
as it does anything. -/
def Outlived (low high : Nat) (r r' : Recogniser) : Prop :=
  ∀ p ⦃s : State⦄, s.callLimit = low → (r p s).Outlived low high (r' p (s.limited high))

variable {low high : Nat} {x : Subject} {a b c d : Recogniser}

theorem outlived_ofMatcher (w : Matcher) : (ofMatcher w).Outlived low high (ofMatcher w) :=
  fun p _ hs => .done (w p) hs

theorem Outlived.noted (h : a.Outlived low high b) : a.noted.Outlived low high b.noted :=
  fun p _ hs => (h p hs).leave State.unlimited_note

theorem Outlived.andThen (h : a.Outlived low high b) (h' : c.Outlived low high d) :
    (a.andThen c).Outlived low high (b.andThen d) := fun p _ hs => (h p hs).andThen h'

theorem Outlived.orElse (h : a.Outlived low high b) (h' : c.Outlived low high d) :
    (a.orElse c).Outlived low high (b.orElse d) := fun p _ hs => (h p hs).orElse fun _ _ hs => h' p hs

theorem Outlived.optional (h : a.Outlived low high b) : a.optional.Outlived low high b.optional :=
  fun p _ hs => (h p hs).mapMatch _

theorem Outlived.attempt (h : a.Outlived low high b) : a.attempt.Outlived low high b.attempt :=
  fun p s hs => ((h p hs).leave (State.unlimited_rollBack s.mark)).mapMatch _

theorem Outlived.look (h : a.Outlived low high b) (polarity : Polarity) :
    (a.look polarity).Outlived low high (b.look polarity) :=
  fun p s hs => ((h p (s := s.lookInto polarity) hs).leave
    (f := fun _ => State.lookBack s.lookahead s.captures.snapshot) fun _ _ => ⟨rfl, fun _ => rfl⟩).mapMatch _

theorem Outlived.capture (h : a.Outlived low high b) : a.capture.Outlived low high b.capture :=
  fun p _ hs => (h p hs).andThen fun q s hs =>
    .done (.matched q) (s := s.modifyCaptures (CaptureStack.push ⟨p, q⟩)) hs

theorem Outlived.inRule (h : a.Outlived low high b) (name : Octets) :
    (a.inRule name).Outlived low high (b.inRule name) := by
  intro p s hs
  have ho : (s.openRule (s.ruleFrame name p)).callLimit = low := by rw [State.openRule_eq, hs]
  have hc : (s.limited high).openRule (s.ruleFrame name p) = (s.openRule (s.ruleFrame name p)).limited high := by
    unfold State.openRule
    split <;> rfl
  have hr := h p ho
  rw [← hc] at hr
  exact hr.leave (State.unlimited_closeRule _)

theorem Outlived.inAtomicity (h : a.Outlived low high b) (mode : Atomicity) :
    (a.inAtomicity mode).Outlived low high (b.inAtomicity mode) :=
  fun p s hs => (h p (s := s.setAtomicity mode) hs).leave fun _ _ => ⟨rfl, fun _ => rfl⟩

theorem Outlived.inGaps (h : a.Outlived low high b) : a.inGaps.Outlived low high b.inGaps := by
  intro p s hs
  have hl : (s.limited high).atomicity = s.atomicity := rfl
  unfold Recogniser.inGaps
  rw [hl]
  split
  · exact .done _ hs
  · exact h p hs

/-- A call that the low limit allows is allowed by the high one. -/
theorem Outlived.inCall (hhigh : high = 0 ∨ low ≠ 0 ∧ low ≤ high) (h : a.Outlived low high b) (name : Octets) :
    (a.inCall name).Outlived low high (b.inCall name) := by
  intro p s hs
  unfold Recogniser.inCall
  by_cases hl : s.AtCallLimit
  · rw [if_pos hl]
    exact .callDepth s _
  · have hh : ¬(s.limited high).AtCallLimit := by
      rintro ⟨hne, hle⟩
      rcases hhigh with h0 | ⟨hlow, hlh⟩
      · exact hne h0
      · exact hl ⟨hs ▸ hlow, hs ▸ Nat.le_trans hlh hle⟩
    rw [if_neg hl, if_neg hh]
    exact (h p (s := s.enterCall ⟨name, p⟩) hs).leave fun _ _ => ⟨rfl, fun _ => rfl⟩

theorem Outlived.loop (h : a.Outlived low high b) (n : Nat) (room : Option Nat) :
    (a.loop n room).Outlived low high (b.loop n room) := by
  induction n generalizing room with
  | zero => exact fun _ _ _ => .exhausted _
  | succ n ih =>
      intro p s hs
      have hr := h p hs
      rw [Recogniser.loop, Recogniser.loop]
      generalize a p s = o at hr ⊢
      generalize b p (s.limited high) = o' at hr ⊢
      by_cases hroom : room = some 0
      · rw [if_pos hroom, if_pos hroom]
        exact .done _ hs
      · rw [if_neg hroom, if_neg hroom]
        cases hr with
        | @done m t ht =>
            cases m with
            | matched q =>
                by_cases hq : q ≤ p
                · simp only [if_pos hq]
                  exact .done _ ht
                · simp only [if_neg hq]
                  exact ih _ q ht
            | failed q => exact .done _ ht
        | raised e s => exact .raised e s
        | callDepth s o' => exact .callDepth s _
        | exhausted o' => exact .exhausted _

theorem Outlived.subjectLoop (x : Subject) (h : a.Outlived low high b) (room : Option Nat) :
    (x.loop room a).Outlived low high (x.loop room b) := fun p _ hs => h.loop _ _ p hs

theorem outlived_recallTop (b : Builtin) {f : State → State} (hf : State.Unlimited f) :
    Recogniser.Outlived low high (b.recallTop x f) (b.recallTop x f) := by
  intro p s hs
  have hc : (s.limited high).captures = s.captures := rfl
  unfold Builtin.recallTop
  rw [hc]
  split
  · exact .raised _ s
  · split
    · rw [(hf s).2]
      exact .done _ ((hf s).1.trans hs)
    · exact .done _ hs

theorem congruence_outlived (low high : Nat) (x : Subject) : TidyCongruence x fun a b => a.Outlived low high b where
  ofMatcher w := outlived_ofMatcher w
  undefinedRule _ := fun _ s _ => .raised _ s
  noted := Outlived.noted
  andThen _ := Outlived.andThen
  orElse _ := Outlived.orElse
  optional := Outlived.optional
  attempt _ _ := Outlived.attempt
  look polarity _ _ h := h.look polarity
  capture := Outlived.capture
  loop room _ h := h.subjectLoop x room
  inGaps := Outlived.inGaps
  inRule name h := h.inRule name
  inAtomicity mode h := h.inAtomicity mode
  peek := outlived_recallTop .peek fun _ => ⟨rfl, fun _ => rfl⟩
  pop := outlived_recallTop .pop fun _ => ⟨rfl, fun _ => rfl⟩

end Recogniser

/-- More levels of calls and a higher limit change nothing. -/
theorem Grammar.outlived_caller (g : Grammar) (x : Subject) {low high n k : Nat}
    (hhigh : high = 0 ∨ low ≠ 0 ∧ low ≤ high) (hn : n ≤ k) (name : Octets) :
    (g.caller x n name).Outlived low high (g.caller x k name) := by
  have hc := Recogniser.congruence_outlived low high x
  induction n generalizing k name with
  | zero => exact fun _ _ _ => .exhausted _
  | succ n ih =>
      obtain ⟨k, rfl⟩ := Nat.exists_eq_add_of_le' (Nat.le_trans (Nat.le_add_left 1 n) hn)
      exact ((hc.resolve (ih (Nat.le_of_succ_le_succ hn)) name).inCall hhigh name).noted

namespace Parser

variable (p : Parser) (limit : Nat) (start text : Octets)

/-- A verdict within a limit is the verdict wherever as many calls may nest, unless the limit was reached. -/
theorem parse?_eq_of_limited {v : Except RunError Verdict} {low high n k : Nat}
    (hv : (p.limited low).parse? n start text = some v) (hd : v ≠ .error .callDepth)
    (hhigh : high = 0 ∨ low ≠ 0 ∧ low ≤ high) (hk : (p.limited low).depth n ≤ (p.limited high).depth k) :
    (p.limited high).parse? k start text = some v := by
  have ho := p.grammar.outlived_caller (Subject.ofOctets text) hhigh hk start 0 (s := { callLimit := low }) rfl
  rw [parse?_eq_verdict?] at hv
  rw [parse?_eq_verdict?, ← hv]
  refine ho.verdict?_eq (Subject.ofOctets text) p.tabs ?_ ?_
  · intro he
    have hx : Outcome.verdict? (Subject.ofOctets text) p.tabs _ = none := Outcome.verdict?_eq_none.mpr he
    exact absurd (hx.symm.trans hv) nofun
  · intro he
    exact hd (Option.some.inj (hv.symm.trans he))

/-- The verdict of a parse that has not been given up stands however deep calls may nest. -/
theorem parse?_eq_parse (hd : p.callLimit ≠ 0 ∨ p.parse start text ≠ .error .callDepth) {n : Nat}
    (hn : p.grammar.ampleDepth text ≤ n) : p.parse? n start text = some (p.parse start text) := by
  by_cases hl : p.callLimit = 0
  · have hd := hd.resolve_left (not_not_intro hl)
    cases hv : p.parse? (p.grammar.ampleDepth text) start text with
    | none =>
        rw [parse, hv] at hd
        exact absurd rfl hd
    | some v =>
        have hp : p.parse start text = v := by rw [parse, hv, Option.getD_some]
        rw [hp] at hd ⊢
        have hpatience : ∀ n, (p.limited p.callLimit).depth n = n := fun _ => if_pos hl
        have hdepth : (p.limited p.callLimit).depth (p.grammar.ampleDepth text) ≤ (p.limited p.callLimit).depth n := by
          rw [hpatience, hpatience]
          exact hn
        exact p.parse?_eq_of_limited start text hv hd (.inl hl) hdepth
  · obtain ⟨v, hv, hp⟩ := p.parse?_terminates start text hl
    rw [hp, hv]

/-- A call limit that is not reached is invisible: with any higher one, and without one, the parse comes to
the same verdict. A limit that is reached is reached with every lower one. -/
theorem parse?_callLimit_invisible (hl : limit ≠ 0) :
    ∃ v, (∀ n, (p.limited limit).parse? n start text = some v) ∧
      (v ≠ .error .callDepth →
        (∀ higher ≥ limit, ∀ n, (p.limited higher).parse? n start text = some v) ∧
        ∀ n > limit, (p.limited 0).parse? n start text = some v) ∧
      (v = .error .callDepth → ∀ lower, lower ≠ 0 → lower ≤ limit →
        ∀ n, (p.limited lower).parse? n start text = some v) := by
  have hdepth : ∀ l n, l ≠ 0 → (p.limited l).depth n = l + 1 := fun _ _ h => if_neg h
  obtain ⟨v, hv, -⟩ := (p.limited limit).parse?_terminates start text hl
  refine ⟨v, hv, fun hd => ⟨fun higher hh n => ?_, fun n hn => ?_⟩, ?_⟩
  · have h0 : higher ≠ 0 := fun h => hl (Nat.le_zero.mp (h ▸ hh))
    refine p.parse?_eq_of_limited start text (hv 0) hd (.inr ⟨hl, hh⟩) ?_
    rw [hdepth limit 0 hl, hdepth higher n h0]
    exact Nat.succ_le_succ hh
  · refine p.parse?_eq_of_limited start text (hv 0) hd (.inl rfl) ?_
    rw [hdepth limit 0 hl]
    exact hn
  · rintro rfl lower h0 hle n
    obtain ⟨w, hw, -⟩ := (p.limited lower).parse?_terminates start text h0
    by_cases hd : w = .error .callDepth
    · rw [hw, hd]
    · have he : (p.limited limit).parse? 0 start text = some w := by
        refine p.parse?_eq_of_limited start text (hw 0) hd (.inr ⟨h0, hle⟩) ?_
        rw [hdepth lower 0 h0, hdepth limit 0 hl]
        exact Nat.succ_le_succ hle
      rw [hv] at he
      exact absurd (Option.some.inj he).symm hd

/-- Two pairs of brackets around a letter nest three calls. -/
theorem parse?_callLimit_invisible_nested :
    let p : Parser := { grammar := ⟨[.written "r" .normal (.choice
      (.seqAll (.written "(") [.rule "r", .written ")"]) (.written "a"))], by decide, by decide, by decide⟩ }
    (3 ≠ 0 ∧ ∃ tokens, ∀ n > 3, (p.limited 0).parse? n (ascii "r") (ascii "((a))") = some (.ok (.accepted tokens))) ∧
      2 ≠ 0 ∧ ∀ n, (p.limited 1).parse? n (ascii "r") (ascii "((a))") = some (.error .callDepth) := by
  intro p
  refine ⟨⟨by decide, ?_⟩, by decide, fun n => ?_⟩
  · obtain ⟨v, hv, hfree, -⟩ :=
      parse?_callLimit_invisible p 3 (ascii "r") (ascii "((a))") (by decide)
    have hr : ∃ tokens, (p.limited 3).parse? 0 (ascii "r") (ascii "((a))") = some (.ok (.accepted tokens)) := ⟨_, rfl⟩
    obtain ⟨tokens, ht⟩ := hr
    obtain rfl : v = .ok (.accepted tokens) := Option.some.inj ((hv 0).symm.trans ht)
    exact ⟨tokens, (hfree nofun).2⟩
  · obtain ⟨v, hv, -, hreached⟩ :=
      parse?_callLimit_invisible p 2 (ascii "r") (ascii "((a))") (by decide)
    have hr : (p.limited 2).parse? 0 (ascii "r") (ascii "((a))") = some (.error .callDepth) := rfl
    obtain rfl : v = .error .callDepth := Option.some.inj ((hv 0).symm.trans hr)
    exact hreached rfl 1 (by decide) (by decide) n

end Parser

end Peg
