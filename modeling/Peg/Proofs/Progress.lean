import Peg.Proofs.Attempts
import Peg.Proofs.Endings

namespace Peg

namespace State

/-- Neither the furthest failure nor the attempts on record lie further than in the other state. -/
structure Trails (s t : State) : Prop where
  furthest_le : s.furthest ≤ t.furthest
  attempts_le : s.attempts.offset ≤ t.attempts.offset

/-- What is on record in the one state is on record in the other, unless that one has gone further. -/
structure Learns (s t : State) : Prop where
  furthest_le : s.furthest ≤ t.furthest
  attempts : s.attempts.Precedes t.attempts

variable {s s' t u : State}

theorem le_furthest_note_of_le {n : Nat} (h : n ≤ s.furthest) (k : Match) : n ≤ (s.note k).furthest := by
  cases k with
  | matched q => exact h
  | failed q => exact Nat.le_trans h (Nat.le_max_left _ _)

theorem furthest_rollBack (s : State) (mark : Mark) (k : Match) : (s.rollBack mark k).furthest = s.furthest := by
  cases k <;> rfl

theorem furthest_openRule (s : State) (f : RuleFrame) : (s.openRule f).furthest = s.furthest := by rw [openRule_eq]

theorem furthest_closeRule (s : State) (f : RuleFrame) (k : Match) : (s.closeRule f k).furthest = s.furthest := by
  rw [closeRule_eq]

theorem attempts_openRule (s : State) (f : RuleFrame) : (s.openRule f).attempts = s.attempts := by rw [openRule_eq]

namespace Trails

theorem refl (s : State) : s.Trails s := ⟨Nat.le_refl _, Nat.le_refl _⟩

theorem trans (h : s.Trails t) (h' : t.Trails u) : s.Trails u :=
  ⟨Nat.le_trans h.furthest_le h'.furthest_le, Nat.le_trans h.attempts_le h'.attempts_le⟩

theorem of_eq (hf : t.furthest = s.furthest) (ha : t.attempts = s.attempts) : s.Trails t :=
  ⟨Nat.le_of_eq hf.symm, Nat.le_of_eq (congrArg Attempts.offset ha.symm)⟩

theorem note (s : State) (k : Match) : s.Trails (s.note k) :=
  ⟨le_furthest_note_of_le (Nat.le_refl _) k, Nat.le_of_eq (congrArg Attempts.offset (attempts_note k s).symm)⟩

theorem rollBack (s : State) (mark : Mark) (k : Match) : s.Trails (s.rollBack mark k) :=
  .of_eq (s.furthest_rollBack mark k) (attempts_rollBack mark k s)

theorem lookBack (s : State) (outer : Option Polarity) (moment : Nat) : s.Trails (s.lookBack outer moment) :=
  .of_eq rfl rfl

theorem leaveCall (s : State) : s.Trails s.leaveCall := .of_eq rfl rfl

theorem setAtomicity (s : State) (mode : Atomicity) : s.Trails (s.setAtomicity mode) := .of_eq rfl rfl

theorem modifyCaptures (s : State) (f : CaptureStack → CaptureStack) : s.Trails (s.modifyCaptures f) := .of_eq rfl rfl

theorem closeRule (s : State) (f : RuleFrame) (k : Match) : s.Trails (s.closeRule f k) := by
  refine ⟨Nat.le_of_eq (s.furthest_closeRule f k).symm, ?_⟩
  rw [attempts_closeRule_eq]
  split
  · exact Attempts.offset_le_record ..
  · exact Nat.le_refl _

end Trails

namespace Learns

theorem refl (s : State) : s.Learns s := ⟨Nat.le_refl _, .refl _⟩

theorem trans (h : s.Learns t) (h' : t.Learns u) : s.Learns u :=
  ⟨Nat.le_trans h.furthest_le h'.furthest_le, h.attempts.trans h'.attempts⟩

theorem trails (h : s.Learns t) : s.Trails t := ⟨h.furthest_le, h.attempts.offset_le⟩

theorem of_eq (h : s.Learns t) (hf : u.furthest = t.furthest) (ha : u.attempts = t.attempts) : s.Learns u := by
  refine ⟨Nat.le_trans h.furthest_le (Nat.le_of_eq hf.symm), ?_⟩
  rw [ha]
  exact h.attempts

/-- Where a part begins that is entered with the same record. -/
theorem of_enter (h : s'.Learns t) (hf : s'.furthest = s.furthest) (ha : s'.attempts = s.attempts) : s.Learns t := by
  refine ⟨Nat.le_trans (Nat.le_of_eq hf.symm) h.furthest_le, ?_⟩
  rw [← ha]
  exact h.attempts

theorem note (h : s.Learns t) (k : Match) : s.Learns (t.note k) := by
  refine ⟨le_furthest_note_of_le h.furthest_le k, ?_⟩
  rw [attempts_note]
  exact h.attempts

theorem rollBack (h : s.Learns t) (mark : Mark) (k : Match) : s.Learns (t.rollBack mark k) :=
  h.of_eq (t.furthest_rollBack mark k) (attempts_rollBack mark k t)

theorem lookBack (h : s.Learns t) (outer : Option Polarity) (moment : Nat) : s.Learns (t.lookBack outer moment) :=
  h.of_eq rfl rfl

theorem leaveCall (h : s.Learns t) : s.Learns t.leaveCall := h.of_eq rfl rfl

theorem setAtomicity (h : s.Learns t) (mode : Atomicity) : s.Learns (t.setAtomicity mode) := h.of_eq rfl rfl

theorem modifyCaptures (h : s.Learns t) (f : CaptureStack → CaptureStack) : s.Learns (t.modifyCaptures f) :=
  h.of_eq rfl rfl

theorem closeRule (h : s.Learns t) (rule : Octets) (p : Nat) (k : Match) :
    s.Learns (t.closeRule (s.ruleFrame rule p) k) := by
  refine ⟨Nat.le_trans h.furthest_le (Nat.le_of_eq (t.furthest_closeRule _ k).symm), ?_⟩
  rw [attempts_closeRule_eq]
  split
  · exact h.attempts.record rule t.polarity p
  · exact h.attempts

end Learns

end State

namespace Recogniser

/-- However such a recogniser ends, it keeps the record that it begins with. -/
def Learns (r : Recogniser) : Prop := ∀ p s, (r p s).Leaves s.Learns

variable {x : Subject} {r r' : Recogniser}

theorem learns_ofMatcher (w : Matcher) : (ofMatcher w).Learns := fun _ s => .refl s

namespace Learns

theorem noted (h : r.Learns) : r.noted.Learns := fun p s => (h p s).leave fun k _ ht => ht.note k

theorem andThen (h : r.Learns) (h' : r'.Learns) : (r.andThen r').Learns :=
  fun p s => (h p s).andThen fun q t ht => (h' q t).mono fun _ hu => ht.trans hu

theorem orElse (h : r.Learns) (h' : r'.Learns) : (r.orElse r').Learns :=
  fun p s => (h p s).orElse fun _ t ht => (h' p t).mono fun _ hu => ht.trans hu

theorem optional (h : r.Learns) : r.optional.Learns := fun p s => (h p s).mapMatch _

theorem attempt (h : r.Learns) : r.attempt.Learns :=
  fun p s => ((h p s).leave fun k _ ht => ht.rollBack _ k).mapMatch _

theorem look (h : r.Learns) (polarity : Polarity) : (r.look polarity).Learns := by
  intro p s
  have hs : (r p (s.lookInto polarity)).Leaves s.Learns := (h p _).mono fun _ ht => ht.of_enter rfl rfl
  exact (hs.leave fun _ _ ht => ht.lookBack _ _).mapMatch _

theorem capture (h : r.Learns) : r.capture.Learns := fun p s => (h p s).andThen fun _ _ ht => ht.modifyCaptures _

theorem loop (h : r.Learns) (n : Nat) (room : Option Nat) : (r.loop n room).Learns := by
  induction n generalizing room with
  | zero => exact fun _ _ => trivial
  | succ n ih =>
      intro p s
      have hr := h p s
      rw [Recogniser.loop]
      split
      · exact .refl s
      · generalize r p s = o at hr
        rcases o with ⟨q | q, t⟩ | ⟨e, t⟩ | _
        · dsimp only
          split
          · exact hr
          · exact (ih _ q t).mono fun _ hu => State.Learns.trans hr hu
        · exact hr
        · exact hr
        · exact hr

theorem inGaps (h : r.Learns) : r.inGaps.Learns := by
  intro p s
  rw [Recogniser.inGaps]
  split
  · exact .refl s
  · exact h p s

theorem inRule (h : r.Learns) (name : Octets) : (r.inRule name).Learns := by
  intro p s
  have hs : (r p (s.openRule (s.ruleFrame name p))).Leaves s.Learns :=
    (h p _).mono fun _ ht => ht.of_enter (s.furthest_openRule _) (s.attempts_openRule _)
  exact hs.leave fun k _ ht => ht.closeRule name p k

theorem inAtomicity (h : r.Learns) (mode : Atomicity) : (r.inAtomicity mode).Learns := by
  intro p s
  have hs : (r p (s.setAtomicity mode)).Leaves s.Learns := (h p _).mono fun _ ht => ht.of_enter rfl rfl
  exact hs.leave fun _ _ ht => ht.setAtomicity _

theorem inCall (h : r.Learns) (name : Octets) : (r.inCall name).Learns := by
  intro p s
  rw [Recogniser.inCall]
  split
  · exact .refl s
  · have hs : (r p (s.enterCall ⟨name, p⟩)).Leaves s.Learns := (h p _).mono fun _ ht => ht.of_enter rfl rfl
    exact hs.leave fun _ _ ht => ht.leaveCall

end Learns

theorem learns_recallTop (b : Builtin) (x : Subject) {f : State → State} (hf : ∀ s : State, s.Learns (f s)) :
    (b.recallTop x f).Learns := by
  intro p s
  rw [Builtin.recallTop]
  split
  · exact .refl s
  · split
    · exact hf s
    · exact .refl s

theorem tidyCongruence_learns (x : Subject) : TidyCongruence x (fun a _ => a.Learns) where
  ofMatcher := learns_ofMatcher
  undefinedRule _ := fun _ s => .refl s
  noted := Learns.noted
  andThen _ h h' := h.andThen h'
  orElse _ h h' := h.orElse h'
  optional := Learns.optional
  attempt _ _ h := h.attempt
  look polarity _ _ h := h.look polarity
  capture := Learns.capture
  loop room _ h := fun p s => h.loop _ room p s
  inGaps := Learns.inGaps
  inRule name h := h.inRule name
  inAtomicity mode h := h.inAtomicity mode
  peek := learns_recallTop .peek x fun s => .refl s
  pop := learns_recallTop .pop x fun s => (State.Learns.refl s).modifyCaptures _

end Recogniser

theorem Task.learns_run (g : Grammar) (x : Subject) (n : Nat) (t : Task) : (t.run g x (g.caller x n)).Learns := by
  have hc := (Recogniser.tidyCongruence_learns x).callCongruence (fun _ _ => trivial) fun name h => h.inCall name
  exact (@Congruence.task _ _ _ hc.toCongruence g (g.caller x n) (g.caller x n) (hc.caller g n) t).2.2

namespace Outcome

/-- The later run is what becomes of the earlier one. From its end it goes on to where nothing lies further back. -/
def Continues (o' o : Outcome State) : Prop := ∃ f, o = o'.bind f ∧ ∀ k t, (f k t).Leaves t.Trails

namespace Continues

variable {o o' o'' : Outcome State}

theorem refl (o : Outcome State) : o.Continues o := ⟨done, o.bind_done.symm, fun _ t => State.Trails.refl t⟩

theorem bind (h : o'.Continues o) {f : Match → State → Outcome State} (hf : ∀ k t, (f k t).Leaves t.Trails) :
    o'.Continues (o.bind f) := by
  obtain ⟨f', rfl, hf'⟩ := h
  refine ⟨_, o'.bind_bind f' f, fun k t => (hf' k t).bind fun k' t' ht => ?_⟩
  exact (hf k' t').mono fun _ hu => ht.trans hu

theorem trans (h : o''.Continues o') (h' : o'.Continues o) : o''.Continues o := by
  obtain ⟨f, rfl, hf⟩ := h'
  exact h.bind hf

theorem leave (h : o'.Continues o) {f : Match → State → State} (hf : ∀ k (t : State), t.Trails (f k t)) :
    o'.Continues (o.leave f) := by
  rw [leave_eq_bind]
  exact h.bind hf

theorem mapMatch (h : o'.Continues o) (f : Match → Match) : o'.Continues (o.mapMatch f) := by
  rw [mapMatch_eq_bind]
  exact h.bind fun _ t => State.Trails.refl t

theorem andThen (h : o'.Continues o) {f : Nat → State → Outcome State} (hf : ∀ q t, (f q t).Leaves t.Trails) :
    o'.Continues (o.andThen f) := by
  rw [andThen_eq_bind]
  refine h.bind fun k t => ?_
  cases k with
  | matched q => exact hf q t
  | failed q => exact .refl t

theorem orElse (h : o'.Continues o) {f : Nat → State → Outcome State} (hf : ∀ q t, (f q t).Leaves t.Trails) :
    o'.Continues (o.orElse f) := by
  rw [orElse_eq_bind]
  refine h.bind fun k t => ?_
  cases k with
  | matched q => exact .refl t
  | failed q => exact hf q t

theorem leaves (h : o'.Continues o) : o'.Leaves fun t' => o.Leaves t'.Trails := by
  obtain ⟨f, rfl, hf⟩ := h
  cases o' with
  | done k t => exact hf k t
  | raised e t => exact .refl t
  | exhausted => trivial

theorem exists_done {k : Match} {t : State} (h : o'.Continues o) (hd : o = .done k t) :
    ∃ k' t', o' = .done k' t' ∧ t'.Trails t := by
  obtain ⟨f, rfl, hf⟩ := h
  obtain ⟨k', t', ho, ht⟩ := bind_eq_done.mp hd
  have hl := hf k' t'
  rw [ht] at hl
  exact ⟨k', t', ho, hl⟩

end Continues

end Outcome

theorem RuleScope.trails_leaveAll (p : Nat) (k : Match) (t : State) (scopes : List RuleScope) (s : State) :
    t.Trails (leaveAll p k t scopes s) := by
  induction scopes generalizing s with
  | nil => exact .refl t
  | cons scope scopes ih =>
      refine (ih (scope.enter p s)).trans ?_
      cases scope with
      | node rule => exact .closeRule _ _ k
      | mode m => exact .setAtomicity _ _

namespace Moment

variable {g : Grammar} {x : Subject} {m m' : Moment} {p q : Nat} {s t : State} {k : Match}

theorem learns_outcome (g : Grammar) (x : Subject) (m : Moment) : (m.outcome g x).Leaves m.state.Learns :=
  m.task.learns_run g x m.depth m.offset m.state

theorem trails_outcome (g : Grammar) (x : Subject) (m : Moment) : (m.outcome g x).Leaves m.state.Trails :=
  (m.learns_outcome g x).mono fun _ h => h.trails

theorem Ends.learns (h : Ends g x m k t) (hp : m.offset ≤ x.size) : m.state.Learns t := by
  have hl := m.learns_outcome g x
  rw [h.outcome_eq hp] at hl
  exact hl

/-- What a moment leads to is a part of it, and what is left of the moment goes on from there. -/
theorem Leads.continues (hl : Leads g x m m') (hp : m.offset ≤ x.size) :
    (m'.outcome g x).Continues (m.outcome g x) := by
  have hn : ∀ k (t : State), t.Trails (t.note k) := fun k t => .note t k
  have hr : ∀ s k (t : State), t.Trails (t.rollBack (State.mark s) k) := fun _ k t => .rollBack t _ k
  have ho := Outcome.Continues.refl (m'.outcome g x)
  cases hl with
  | ref => exact ho.leave hn
  | look n polarity e p s =>
      rw [outcome_look]
      exact ((ho.leave fun _ t => .lookBack t _ _).mapMatch _).leave hn
  | seq n d e p s =>
      rw [outcome_seq]
      exact ((ho.leave (hr s)).mapMatch _).leave hn
  | choice_first n d e p s =>
      rw [outcome_choice]
      exact (ho.orElse fun _ t => trails_outcome g x ⟨n, .expr e, p, t⟩).leave hn
  | choice_second n d e p s hd =>
      rw [outcome_choice, hd]
      exact ho.leave hn
  | optional n e p s =>
      rw [outcome_optional]
      exact (ho.mapMatch _).leave hn
  | repeated n count e p s hc =>
      by_cases hmin : count.min = 0
      · rw [outcome_repeated_optional g x n p s hc hmin]
        exact (((ho.mapMatch _).leave (hr s)).mapMatch _).leave hn
      · rw [outcome_repeated_whole g x n p s hc hmin]
        exact ((ho.leave (hr s)).mapMatch _).leave hn
  | capture n e p s =>
      rw [outcome_capture]
      refine Outcome.Continues.leave (ho.andThen fun q t => ?_) hn
      exact State.Trails.modifyCaptures t _
  | rule n name p s hb hf hl =>
      rw [outcome_rule g x n p s hb hf hl]
      exact ((ho.leave fun k t => RuleScope.trails_leaveAll p k t _ _).leave fun _ t => .leaveCall t).leave hn
  | skip n p s hm =>
      rw [outcome_skip g x n p s hm]
      exact ho
  | both_first n t u p s =>
      rw [outcome_both]
      exact ho.andThen fun q t => trails_outcome g x ⟨n, u, q, t⟩
  | both_second n t u p s ht =>
      rw [outcome_both, ht]
      exact ho
  | many_first n room t p s hroom =>
      refine ((ho.leave (hr s)).mapMatch (Match.whole p)).trans ?_
      rw [outcome_many g x n s hp hroom]
      generalize ((outcome g x ⟨n, t, p, s⟩).leave (State.rollBack s.mark)).mapMatch (Match.whole p) = o
      refine ⟨fun k u =>
        if k.succeeded = true ∧ p < k.offset then outcome g x ⟨n, .many (room.map (· - 1)) t, k.offset, u⟩
        else .done (k.orNothing p) u, ?_, fun k u => ?_⟩
      · rcases o with ⟨q | q, u⟩ | ⟨e, u⟩ | _
        · by_cases hq : q ≤ p
          · exact (if_pos hq).trans (if_neg fun h => Nat.not_le_of_lt h.2 hq).symm
          · exact (if_neg hq).trans (if_pos ⟨rfl, Nat.lt_of_not_le hq⟩).symm
        · rfl
        · rfl
        · rfl
      · dsimp only
        split
        · exact trails_outcome g x ⟨n, _, _, u⟩
        · exact .refl u
  | many_more n room t p s hroom ht hq =>
      rw [outcome_many g x n s hp hroom, ht]
      simp only [Outcome.leave, Outcome.mapMatch, State.rollBack, Match.whole, if_neg (Nat.not_le_of_lt hq)]
      exact ho

theorem Contains.continues (hc : Contains g x m m') (hp : m.offset ≤ x.size) :
    (m'.outcome g x).Continues (m.outcome g x) := by
  induction hc with
  | refl => exact .refl _
  | tail hc hl ih => exact (hl.continues (Contains.offset_le hc hp)).trans ih

/-- What ends has parts that end, and they end no further than it does. -/
theorem Contains.ends (hc : Contains g x m m') (h : Ends g x m k t) (hp : m.offset ≤ x.size) :
    ∃ k' t', Ends g x m' k' t' ∧ t'.Trails t := by
  obtain ⟨k', t', ho, ht⟩ := (hc.continues hp).exists_done (h.outcome_eq hp)
  exact ⟨k', t', (ends_iff (hc.offset_le hp)).mpr ho, ht⟩

/-- A part begins with what was on record before it. -/
theorem Leads.learns (hl : Leads g x m m') : m.state.Learns m'.state := by
  have hd : ∀ {n task p s k t}, outcome g x ⟨n, task, p, s⟩ = .done k t → s.Learns t := by
    intro n task p s k t ho
    have h := learns_outcome g x ⟨n, task, p, s⟩
    rw [ho] at h
    exact h
  cases hl with
  | choice_second n d e p s h => exact hd h
  | both_second n t u p s h => exact hd h
  | many_more n room t p s _ h => exact hd h
  | look n polarity e p s => exact (State.Learns.refl s).of_eq rfl rfl
  | @rule n name p s r => exact (State.Learns.refl s).of_eq (by rw [r.enter_eq]; rfl) (by rw [r.enter_eq]; rfl)
  | ref | seq | choice_first | optional | repeated | capture | skip | both_first | many_first => exact .refl _

theorem Contains.learns (hc : Contains g x m m') : m.state.Learns m'.state := by
  induction hc with
  | refl => exact .refl _
  | tail _ hl ih => exact ih.trans hl.learns

end Moment

end Peg
