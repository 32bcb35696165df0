import Peg.Proofs.Moments
import Peg.Proofs.Termination
import Peg.Proofs.WellFormed

namespace Peg

variable {x : Subject}

/-- What stands before the offset is well-formed, and so is what follows. -/
def Subject.IsBoundary (x : Subject) (p : Nat) : Prop :=
  ∃ cs ds, x.octets = Utf8.ofChars cs ++ Utf8.ofChars ds ∧ p = (Utf8.ofChars cs).length

/-- A matcher goes from boundaries to boundaries only. -/
def Matcher.Careful (x : Subject) (w : Matcher) : Prop := ∀ p, x.IsBoundary p → x.IsBoundary (w p).offset

namespace Subject

variable {p q : Nat} {cs ds es : List Char}

theorem isBoundary_zero (h : Utf8.WellFormed x.octets) : x.IsBoundary 0 := by
  obtain ⟨cs, hcs⟩ := h
  exact ⟨[], cs, hcs, rfl⟩

theorem IsBoundary.holds (h : x.IsBoundary p) : ∃ ds, x.Holds p ds := by
  obtain ⟨cs, ds, hx, rfl⟩ := h
  refine ⟨ds, ?_, ?_⟩
  · rw [x.size_eq, hx, List.length_append]
    exact Nat.le_add_right _ _
  · rw [x.after_eq, hx, List.drop_left]

theorem IsBoundary.advance (h : x.IsBoundary p) (hd : x.Holds p (es ++ ds)) :
    x.IsBoundary (p + (Utf8.ofChars es).length) := by
  obtain ⟨cs, fs, hx, rfl⟩ := h
  have ha := hd.2
  rw [x.after_eq, hx, List.drop_left, Utf8.ofChars_append] at ha
  refine ⟨cs ++ es, ds, ?_, ?_⟩
  · rw [hx, ha, Utf8.ofChars_append, List.append_assoc]
  · rw [Utf8.ofChars_append, List.length_append]

/-- Between two boundaries stands something well-formed. -/
theorem IsBoundary.slice (hp : x.IsBoundary p) (hq : x.IsBoundary q) : Utf8.WellFormed (x.slice ⟨p, q⟩) := by
  obtain ⟨cs, ds, hx, rfl⟩ := hp
  obtain ⟨cs', ds', hx', rfl⟩ := hq
  simp only [Subject.slice, x.after_eq]
  split
  · rename_i hle
    have hpre := Utf8.ofChars_prefix.mp (List.prefix_of_prefix_length_le ⟨_, hx.symm⟩ ⟨_, hx'.symm⟩ hle)
    obtain ⟨es, rfl⟩ := hpre
    refine ⟨es, ?_⟩
    rw [Utf8.ofChars_append, List.append_assoc] at hx'
    rw [hx', List.drop_left, Utf8.ofChars_append, List.length_append, Nat.add_sub_cancel_left, List.take_left]
  · exact ⟨ds, by rw [hx, List.drop_left]⟩

theorem careful_text {t : Octets} (h : Utf8.WellFormed t) : (x.text t).Careful x := by
  obtain ⟨ts, rfl⟩ := h
  intro p hp
  obtain ⟨ds, hd⟩ := hp.holds
  rw [hd.text]
  split
  · rename_i hpre
    obtain ⟨fs, rfl⟩ := hpre
    exact hp.advance hd
  · exact hp

theorem careful_foldedText {t : Octets} (h : Utf8.WellFormed t) : (x.foldedText t).Careful x := by
  obtain ⟨ts, rfl⟩ := h
  intro p hp
  obtain ⟨ds, hd⟩ := hp.holds
  rw [hd.foldedText]
  split
  · rw [← List.take_append_drop ts.length ds] at hd
    exact hp.advance hd
  · exact hp

theorem careful_runeIn (low high : Rune) : (x.runeIn low high).Careful x := by
  intro p hp
  obtain ⟨ds, hd⟩ := hp.holds
  cases ds with
  | nil =>
      rw [hd.runeIn_nil]
      exact hp
  | cons d ds =>
      rw [hd.runeIn_cons]
      split
      · exact @Subject.IsBoundary.advance _ _ ds [d] hp hd
      · exact hp

theorem careful_skip_one : (x.skip 1).Careful x := by
  intro p hp
  obtain ⟨ds, hd⟩ := hp.holds
  cases ds with
  | nil =>
      rw [hd.skip_one_nil]
      exact hp
  | cons d ds =>
      rw [hd.skip_one_cons]
      exact @Subject.IsBoundary.advance _ _ ds [d] hp hd

theorem careful_skipUntil {t : Octets} (h : Utf8.WellFormed t) : (x.skipUntil t).Careful x := by
  obtain ⟨ts, rfl⟩ := h
  intro p hp
  obtain ⟨ds, hd⟩ := hp.holds
  rw [skipUntil, hd.2]
  split
  · rename_i n hn
    obtain ⟨es, fs, rfl, rfl⟩ := Utf8.firstOccurrence?_ofChars hn
    exact hp.advance hd
  · exact hp

theorem careful_skipUntilAny {t : Octets} {ts : List Octets} (h : ∀ u ∈ t :: ts, Utf8.WellFormed u) :
    (x.skipUntilAny t ts).Careful x := by
  intro p hp
  cases hm : x.skipUntilAny t ts p with
  | matched q =>
      obtain ⟨⟨u, hu, hq⟩, _⟩ := x.skipUntilAny_eq_matched.mp hm
      have hb := careful_skipUntil (h u hu) p hp
      rw [hq] at hb
      exact hb
  | failed q =>
      rw [(x.forward_skipUntilAny t ts).eq_of_failed hm]
      exact hp

theorem careful_atStart : Subject.atStart.Careful x := by
  intro p hp
  rw [atStart]
  split <;> exact hp

theorem careful_atEnd : x.atEnd.Careful x := by
  intro p hp
  rw [atEnd]
  split <;> exact hp

end Subject

def Span.OnBoundaries (x : Subject) (span : Span) : Prop := x.IsBoundary span.start ∧ x.IsBoundary span.stop

def CaptureChange.span : CaptureChange → Span
  | pushed span => span
  | popped span => span

structure CaptureStack.OnBoundaries (x : Subject) (stack : CaptureStack) : Prop where
  items : ∀ span ∈ stack.items, span.OnBoundaries x
  journal : ∀ change ∈ stack.journal, change.span.OnBoundaries x

/-- All offsets in a state are boundaries. -/
structure State.OnBoundaries (x : Subject) (s : State) : Prop where
  tokens : ∀ t ∈ s.tokens, x.IsBoundary t.offset
  captures : s.captures.OnBoundaries x
  attempts : x.IsBoundary s.attempts.offset
  furthest : x.IsBoundary s.furthest
  calls : ∀ c ∈ s.calls, x.IsBoundary c.offset

/-- Where the run ended is a boundary, and so are all offsets in what it leaves behind. -/
def Outcome.OnBoundaries (x : Subject) : Outcome State → Prop
  | done m s => x.IsBoundary m.offset ∧ s.OnBoundaries x
  | raised _ s => s.OnBoundaries x
  | exhausted => True

namespace CaptureStack.OnBoundaries

variable {stack : CaptureStack}

theorem push (h : stack.OnBoundaries x) {span : Span} (hs : span.OnBoundaries x) :
    (stack.push span).OnBoundaries x :=
  ⟨List.forall_mem_cons.mpr ⟨hs, h.items⟩, List.forall_mem_cons.mpr ⟨hs, h.journal⟩⟩

theorem pop (h : stack.OnBoundaries x) : stack.pop.OnBoundaries x := by
  obtain ⟨items, journal⟩ := stack
  cases items with
  | nil => exact h
  | cons span items =>
      obtain ⟨hs, hi⟩ := List.forall_mem_cons.mp h.items
      exact ⟨hi, List.forall_mem_cons.mpr ⟨hs, h.journal⟩⟩

theorem undo (h : stack.OnBoundaries x) : stack.undo.OnBoundaries x := by
  obtain ⟨items, journal⟩ := stack
  cases journal with
  | nil => exact h
  | cons change journal =>
      obtain ⟨hs, hj⟩ := List.forall_mem_cons.mp h.journal
      cases change with
      | pushed span => exact ⟨fun span hm => h.items span (List.mem_of_mem_tail hm), hj⟩
      | popped span => exact ⟨List.forall_mem_cons.mpr ⟨hs, h.items⟩, hj⟩

theorem restore (h : stack.OnBoundaries x) (moment : Nat) : (stack.restore moment).OnBoundaries x := by
  rw [CaptureStack.restore]
  induction stack.journal.length - moment with
  | zero => exact h
  | succ n ih => exact ih.undo

end CaptureStack.OnBoundaries

theorem mem_modify {α : Type} {l : List α} {i : Nat} {f : α → α} {a : α} (h : a ∈ l.modify i f) :
    a ∈ l ∨ ∃ b ∈ l, a = f b := by
  induction l generalizing i with
  | nil => simp at h
  | cons b l ih =>
      cases i with
      | zero =>
          rcases List.mem_cons.mp h with rfl | ha
          · exact .inr ⟨b, List.mem_cons_self, rfl⟩
          · exact .inl (List.mem_cons_of_mem b ha)
      | succ i =>
          rw [List.modify_succ_cons] at h
          rcases List.mem_cons.mp h with rfl | ha
          · exact .inl List.mem_cons_self
          · rcases ih ha with ha | ⟨c, hc, rfl⟩
            · exact .inl (List.mem_cons_of_mem b ha)
            · exact .inr ⟨c, List.mem_cons_of_mem b hc, rfl⟩

namespace State.OnBoundaries

variable {s : State} {p : Nat}

theorem note (h : s.OnBoundaries x) {m : Match} (hm : x.IsBoundary m.offset) : (s.note m).OnBoundaries x := by
  cases m with
  | matched q => exact h
  | failed q =>
      refine { h with furthest := ?_ }
      change x.IsBoundary (max s.furthest q)
      rcases Nat.le_total s.furthest q with hle | hle
      · rw [Nat.max_eq_right hle]
        exact hm
      · rw [Nat.max_eq_left hle]
        exact h.furthest

theorem push (h : s.OnBoundaries x) {span : Span} (hs : span.OnBoundaries x) :
    (s.modifyCaptures (CaptureStack.push span)).OnBoundaries x :=
  { h with captures := h.captures.push hs }

theorem pop (h : s.OnBoundaries x) : (s.modifyCaptures CaptureStack.pop).OnBoundaries x :=
  { h with captures := h.captures.pop }

theorem enterCall (h : s.OnBoundaries x) {c : Call} (hc : x.IsBoundary c.offset) : (s.enterCall c).OnBoundaries x :=
  { h with calls := List.forall_mem_cons.mpr ⟨hc, h.calls⟩ }

theorem leaveCall (h : s.OnBoundaries x) : s.leaveCall.OnBoundaries x :=
  { h with calls := fun c hc => h.calls c (List.mem_of_mem_tail hc) }

theorem setAtomicity (h : s.OnBoundaries x) (mode : Atomicity) : (s.setAtomicity mode).OnBoundaries x := { h with }

theorem lookInto (h : s.OnBoundaries x) (polarity : Polarity) : (s.lookInto polarity).OnBoundaries x := { h with }

theorem lookBack (h : s.OnBoundaries x) (lookahead : Option Polarity) (moment : Nat) :
    (s.lookBack lookahead moment).OnBoundaries x :=
  { h with captures := h.captures.restore moment }

theorem rollBack (h : s.OnBoundaries x) (k : Mark) (m : Match) : (s.rollBack k m).OnBoundaries x := by
  cases m with
  | matched q => exact h
  | failed q =>
      exact { h with
        tokens := fun t ht => h.tokens t (mem_of_mem_shrink ht)
        captures := h.captures.restore _ }

theorem openRule (h : s.OnBoundaries x) {f : RuleFrame} (hf : x.IsBoundary f.offset) :
    (s.openRule f).OnBoundaries x := by
  rw [State.openRule]
  split
  · refine { h with tokens := fun t ht => ?_ }
    rcases Array.mem_push.mp ht with ht | rfl
    · exact h.tokens t ht
    · exact hf
  · exact h

theorem closeTokens (h : s.OnBoundaries x) (f : RuleFrame) {m : Match} (hm : x.IsBoundary m.offset) :
    (s.closeTokens f m).OnBoundaries x := by
  cases m with
  | matched q =>
      refine { h with tokens := fun t ht => ?_ }
      rcases Array.mem_push.mp ht with ht | rfl
      · rw [← Array.mem_toList_iff, Array.toList_modify] at ht
        rcases mem_modify ht with ht | ⟨u, hu, rfl⟩
        · exact h.tokens t (Array.mem_toList_iff.mp ht)
        · exact h.tokens u (Array.mem_toList_iff.mp hu)
      · exact hm
  | failed q => exact { h with tokens := fun t ht => h.tokens t (mem_of_mem_shrink ht) }

theorem recordAttempt (h : s.OnBoundaries x) {f : RuleFrame} (hf : x.IsBoundary f.offset) :
    (s.recordAttempt f).OnBoundaries x := by
  rw [State.recordAttempt]
  split
  · exact h
  · refine { h with attempts := ?_ }
    rw [Attempts.record]
    split
    · exact h.attempts
    · split
      · cases s.polarity <;> exact h.attempts
      · cases s.polarity <;> exact hf

theorem closeRule (h : s.OnBoundaries x) {f : RuleFrame} (hf : x.IsBoundary f.offset) {m : Match}
    (hm : x.IsBoundary m.offset) : (s.closeRule f m).OnBoundaries x := by
  have hr : (if s.Disappoints m then s.recordAttempt f else s).OnBoundaries x := by
    split
    · exact h.recordAttempt hf
    · exact h
  rw [State.closeRule]
  split
  · exact hr.closeTokens f hm
  · exact hr

end State.OnBoundaries

namespace Outcome.OnBoundaries

variable {o : Outcome State}

theorem andThen {k : Nat → State → Outcome State} (h : o.OnBoundaries x)
    (hk : ∀ q s, x.IsBoundary q → s.OnBoundaries x → (k q s).OnBoundaries x) : (o.andThen k).OnBoundaries x := by
  rcases o with ⟨q | q, s⟩ | ⟨e, s⟩ | _
  · exact hk q s h.1 h.2
  · exact h
  · exact h
  · exact h

theorem orElse {k : Nat → State → Outcome State} (h : o.OnBoundaries x)
    (hk : ∀ q s, s.OnBoundaries x → (k q s).OnBoundaries x) : (o.orElse k).OnBoundaries x := by
  rcases o with ⟨q | q, s⟩ | ⟨e, s⟩ | _
  · exact h
  · exact hk q s h.2
  · exact h
  · exact h

theorem mapMatch (h : o.OnBoundaries x) {f : Match → Match}
    (hf : ∀ m : Match, x.IsBoundary m.offset → x.IsBoundary (f m).offset) : (o.mapMatch f).OnBoundaries x := by
  rcases o with ⟨m, s⟩ | ⟨e, s⟩ | _
  · exact ⟨hf m h.1, h.2⟩
  · exact h
  · exact h

theorem leave (h : o.OnBoundaries x) {f : Match → State → State}
    (hf : ∀ m s, x.IsBoundary m.offset → s.OnBoundaries x → (f m s).OnBoundaries x) :
    (o.leave f).OnBoundaries x := by
  rcases o with ⟨m, s⟩ | ⟨e, s⟩ | _
  · exact ⟨h.1, hf m s h.1 h.2⟩
  · exact h
  · exact h

end Outcome.OnBoundaries

namespace Recogniser

/-- From boundaries such a recogniser comes to boundaries only. -/
def Careful (x : Subject) (r : Recogniser) : Prop :=
  ∀ p s, x.IsBoundary p → s.OnBoundaries x → (r p s).OnBoundaries x

variable {r r' : Recogniser}

theorem careful_ofMatcher {w : Matcher} (h : w.Careful x) : (ofMatcher w).Careful x :=
  fun p _ hp hs => ⟨h p hp, hs⟩

theorem Careful.noted (h : r.Careful x) : r.noted.Careful x :=
  fun p s hp hs => (h p s hp hs).leave fun _ _ hm hs => hs.note hm

theorem Careful.andThen (h : r.Careful x) (h' : r'.Careful x) : (r.andThen r').Careful x :=
  fun p s hp hs => (h p s hp hs).andThen h'

theorem Careful.attempt (h : r.Careful x) : r.attempt.Careful x := by
  intro p s hp hs
  refine ((h p s hp hs).leave fun m _ _ hs => hs.rollBack _ m).mapMatch fun m hm => ?_
  cases m with
  | matched q => exact hm
  | failed q => exact hp

theorem Careful.look (h : r.Careful x) (polarity : Polarity) : (r.look polarity).Careful x := by
  intro p s hp hs
  refine ((h p _ hp (hs.lookInto polarity)).leave fun _ _ _ hs => hs.lookBack _ _).mapMatch fun m _ => ?_
  cases polarity <;> cases m <;> exact hp

theorem Careful.loop (h : r.Careful x) (n : Nat) (room : Option Nat) : (r.loop n room).Careful x := by
  induction n generalizing room with
  | zero => exact fun _ _ _ _ => trivial
  | succ n ih =>
      intro p s hp hs
      have hr := h p s hp hs
      rw [Recogniser.loop]
      split
      · exact ⟨hp, hs⟩
      · generalize r p s = o at hr
        rcases o with ⟨q | q, t⟩ | ⟨e, t⟩ | _
        · dsimp only
          split
          · exact hr
          · exact ih _ q t hr.1 hr.2
        · exact ⟨hp, hr.2⟩
        · exact hr
        · exact hr

theorem Careful.inGaps (h : r.Careful x) : r.inGaps.Careful x := by
  intro p s hp hs
  rw [Recogniser.inGaps]
  split
  · exact ⟨hp, hs⟩
  · exact h p s hp hs

theorem Careful.inRule (h : r.Careful x) (name : Octets) : (r.inRule name).Careful x :=
  fun p _ hp hs => (h p _ hp (hs.openRule hp)).leave fun _ _ hm hs => hs.closeRule hp hm

theorem Careful.inAtomicity (h : r.Careful x) (mode : Atomicity) : (r.inAtomicity mode).Careful x :=
  fun p _ hp hs => (h p _ hp (hs.setAtomicity mode)).leave fun _ _ _ hs => hs.setAtomicity _

theorem Careful.inCall (h : r.Careful x) (name : Octets) : (r.inCall name).Careful x := by
  intro p s hp hs
  rw [Recogniser.inCall]
  split
  · exact hs
  · exact (h p _ hp (hs.enterCall hp)).leave fun _ _ _ hs => hs.leaveCall

theorem careful_recallTop (b : Builtin) {f : State → State}
    (hf : ∀ s : State, s.OnBoundaries x → (f s).OnBoundaries x) : (b.recallTop x f).Careful x := by
  intro p s hp hs
  rw [Builtin.recallTop]
  split
  · exact hs
  · rename_i span hspan
    obtain ⟨hstart, hstop⟩ := hs.captures.items span (List.mem_of_head? hspan)
    have hm := Subject.careful_text (hstart.slice hstop) p hp
    split
    · rename_i q hq
      rw [hq] at hm
      exact ⟨hm, hf s hs⟩
    · rename_i q hq
      rw [hq] at hm
      exact ⟨hm, hs⟩

theorem operators_careful (x : Subject) : Operators x (fun a _ => a.Careful x) fun a _ => a.Careful x where
  loosen := id
  nothing := fun _ _ hp hs => ⟨hp, hs⟩
  noted := Careful.noted
  andThen := Careful.andThen
  orElse h h' := fun p s hp hs => (h p s hp hs).orElse fun _ t ht => h' p t hp ht
  optional h := fun p s hp hs => (h p s hp hs).mapMatch fun m hm => by
    cases m with
    | matched q => exact hm
    | failed q => exact hp
  attempt := Careful.attempt
  look polarity h := h.look polarity
  capture h := fun p s hp hs => (h p s hp hs).andThen fun q _ hq hs => ⟨hq, hs.push ⟨hp, hq⟩⟩
  loop room h := fun p s hp hs => h.loop _ room p s hp hs

theorem Builtin.careful_run (b : Builtin) : (b.run x).Careful x := by
  cases b with
  | any => exact careful_ofMatcher Subject.careful_skip_one
  | endOfInput => exact (careful_ofMatcher Subject.careful_atEnd).inRule _
  | startOfInput => exact careful_ofMatcher Subject.careful_atStart
  | peek => exact careful_recallTop .peek fun _ hs => hs
  | pop => exact careful_recallTop .pop fun _ hs => hs.pop

end Recogniser

/-- The texts in an expression, as a grammar writes them. -/
def Expr.raws : Expr → List Octets
  | literal l => [l.raw]
  | folded l => [l.raw]
  | range r => [r.rawLow, r.rawHigh]
  | ref _ => []
  | look _ e => e.raws
  | seq d e => d.raws ++ e.raws
  | choice d e => d.raws ++ e.raws
  | optional e => e.raws
  | repeated _ e => e.raws
  | capture e => e.raws
  | scan l ls => (l :: ls).map Literal.raw

/-- All texts in the rules are well-formed, as they are written. -/
def Grammar.WellWritten (g : Grammar) : Prop := ∀ r ∈ g.rules, ∀ raw ∈ r.body.raws, Utf8.WellFormed raw

theorem Expr.raws_of_mem_leaves {d e : Expr} (h : d ∈ e.leaves) : ∀ raw ∈ d.raws, raw ∈ e.raws := by
  induction e with
  | literal | folded | range | ref | scan =>
      cases List.mem_singleton.mp h
      exact fun _ => id
  | look _ e ih | optional e ih | repeated _ e ih | capture e ih => exact ih h
  | seq a b iha ihb | choice a b iha ihb =>
      intro raw hr
      rcases List.mem_append.mp h with h | h
      · exact List.mem_append_left _ (iha h raw hr)
      · exact List.mem_append_right _ (ihb h raw hr)

namespace Task

def raws : Task → List Octets
  | expr e => e.raws
  | call _ => []
  | skip => []
  | nothing => []
  | both t u => t.raws ++ u.raws
  | many _ t => t.raws

theorem raws_further (e : Expr) (n : Nat) : ∀ raw ∈ (further e n).raws, raw ∈ e.raws := by
  induction n with
  | zero => exact nofun
  | succ n ih =>
      intro raw hr
      rcases List.mem_append.mp hr with hr | hr
      · exact hr
      · exact ih raw hr

theorem raws_occurrences (count : Count) (e : Expr) : ∀ raw ∈ (occurrences count e).raws, raw ∈ e.raws := by
  intro raw hr
  rcases List.mem_append.mp hr with hr | hr
  · rcases List.mem_append.mp hr with hr | hr
    · exact hr
    · exact raws_further e _ raw hr
  · exact hr

theorem raws_gapTask (g : Grammar) : g.gapTask.raws = [] := by
  rw [Grammar.gapTask]
  cases g.hasWhitespace <;> cases g.hasComment <;> rfl

variable {g : Grammar} {call : Caller}

section Careful

variable (ht : ∀ name, (call name).Tidy x) (hc : ∀ name, (call name).Careful x)

include ht hc

theorem careful_skip : (g.separators x call).Careful x := by
  have hmany : ∀ t : Task, (t.run g x call).Careful x → ((many none t).run g x call).Careful x :=
    fun t h p s hp hs => h.attempt.loop _ none p s hp hs
  have hw := hmany (.call whitespaceName) (hc _)
  rw [g.separators_eq, gap_eq ht, Grammar.gapTask]
  refine Recogniser.Careful.inGaps ?_
  cases g.hasWhitespace <;> cases g.hasComment
  · exact fun _ _ hp hs => ⟨hp, hs⟩
  · exact hmany (.call commentName) (hc _)
  · exact hw
  · exact hw.andThen (hmany (.both (.call commentName) (.many none (.call whitespaceName))) ((hc _).andThen hw))

theorem careful_expr {e : Expr} (h : ∀ raw ∈ e.raws, Utf8.WellFormed raw) : (e.run g x call).Careful x := by
  have ho := Recogniser.operators_careful x
  refine @Operators.expr x _ _ ho g g call call (careful_skip ht hc) e fun d hd hl => ?_
  have hr := fun raw hraw => h raw (Expr.raws_of_mem_leaves hd raw hraw)
  have htext : ∀ l : Literal, l.raw ∈ d.raws → Utf8.WellFormed l.text := fun l hl =>
    Escape.wellFormed_decode? (hr l.raw hl) l.decodes
  cases d with
  | literal l => exact (Recogniser.careful_ofMatcher (Subject.careful_text (htext l List.mem_cons_self))).noted
  | folded l => exact (Recogniser.careful_ofMatcher (Subject.careful_foldedText (htext l List.mem_cons_self))).noted
  | range r => exact (Recogniser.careful_ofMatcher (Subject.careful_runeIn r.low r.high)).noted
  | ref name => exact (hc name).noted
  | scan l ls =>
      refine (Recogniser.careful_ofMatcher (Subject.careful_skipUntilAny fun u hu => ?_)).noted
      obtain ⟨k, hk, rfl⟩ : ∃ k ∈ l :: ls, k.text = u := List.mem_map.mp hu
      exact htext k (List.mem_map_of_mem hk)
  | look | seq | choice | optional | repeated | capture => exact hl.elim

theorem careful_run (t : Task) (h : ∀ raw ∈ t.raws, Utf8.WellFormed raw) : (t.run g x call).Careful x := by
  induction t with
  | expr e => exact careful_expr ht hc h
  | call name => exact hc name
  | skip => exact careful_skip ht hc
  | nothing => exact fun _ _ hp hs => ⟨hp, hs⟩
  | both t u iht ihu =>
      obtain ⟨ht, hu⟩ := List.forall_mem_append.mp h
      exact (iht ht).andThen (ihu hu)
  | many room t ih => exact fun p s hp hs => (ih h).attempt.loop _ room p s hp hs

end Careful

end Task

theorem Grammar.WellWritten.careful_caller {g : Grammar} (h : g.WellWritten) (n : Nat) (name : Octets) :
    (g.caller x n name).Careful x := by
  induction n generalizing name with
  | zero => exact fun _ _ _ _ => trivial
  | succ n ih =>
      refine (Recogniser.Careful.inCall ?_ name).noted
      unfold Grammar.resolve
      split
      · exact Recogniser.Builtin.careful_run _
      · split
        · rename_i r hr
          have hb := Task.careful_expr (g := g) (g.tidy_caller x n) ih (h r (List.mem_of_find?_eq_some hr))
          rw [r.run_eq_foldr]
          exact RuleScope.foldr_around (R := fun a _ => a.Careful x) (fun rule _ _ ha => ha.inRule rule)
            (fun mode _ _ _ ha => ha.inAtomicity mode) (b := .nothing) hb
        · exact fun _ _ _ hs => hs

theorem Rule.onBoundaries_enter (r : Rule) {p : Nat} {s : State} (hp : x.IsBoundary p) (hs : s.OnBoundaries x) :
    (r.enter p s).OnBoundaries x := by
  rw [Rule.enter]
  induction r.scopes generalizing s with
  | nil => exact hs
  | cons scope scopes ih =>
      cases scope with
      | node rule => exact ih (hs.openRule hp)
      | mode m => exact ih (hs.setAtomicity m)

namespace Moment

/-- All offsets in a moment are boundaries, and all texts in it are well-formed, as they are written. -/
structure OnBoundaries (x : Subject) (m : Moment) : Prop where
  offset : x.IsBoundary m.offset
  state : m.state.OnBoundaries x
  raws : ∀ raw ∈ m.task.raws, Utf8.WellFormed raw

variable {g : Grammar} {m m' : Moment}

theorem OnBoundaries.outcome (h : m.OnBoundaries x) (hg : g.WellWritten) : (m.outcome g x).OnBoundaries x :=
  Task.careful_run (g.tidy_caller x m.depth) (hg.careful_caller m.depth) m.task h.raws m.offset m.state h.offset
    h.state

/-- What a moment leads to begins on a boundary if the moment did. -/
theorem Leads.onBoundaries (h : Leads g x m m') (hg : g.WellWritten) (hm : m.OnBoundaries x) :
    m'.OnBoundaries x := by
  cases h with
  | ref n name p s => exact ⟨hm.offset, hm.state, nofun⟩
  | look n polarity e p s => exact ⟨hm.offset, hm.state.lookInto polarity, hm.raws⟩
  | seq | optional | capture => exact ⟨hm.offset, hm.state, hm.raws⟩
  | choice_first n d e p s => exact ⟨hm.offset, hm.state, (List.forall_mem_append.mp hm.raws).1⟩
  | choice_second n d e p s h =>
      obtain ⟨hd, he⟩ := List.forall_mem_append.mp hm.raws
      have ho := OnBoundaries.outcome (m := ⟨n, .expr d, p, s⟩) ⟨hm.offset, hm.state, hd⟩ hg
      rw [h] at ho
      exact ⟨hm.offset, ho.2, he⟩
  | repeated n count e p s _ =>
      exact ⟨hm.offset, hm.state, fun raw hr => hm.raws raw (Task.raws_occurrences count e raw hr)⟩
  | @rule n name p s r _ hf _ =>
      exact ⟨hm.offset, r.onBoundaries_enter hm.offset (hm.state.enterCall hm.offset),
        hg r (List.mem_of_find?_eq_some hf)⟩
  | skip n p s _ =>
      refine ⟨hm.offset, hm.state, ?_⟩
      rw [Task.raws_gapTask]
      exact nofun
  | both_first n t u p s => exact ⟨hm.offset, hm.state, (List.forall_mem_append.mp hm.raws).1⟩
  | both_second n t u p s h =>
      obtain ⟨ht, hu⟩ := List.forall_mem_append.mp hm.raws
      have ho := OnBoundaries.outcome (m := ⟨n, t, p, s⟩) ⟨hm.offset, hm.state, ht⟩ hg
      rw [h] at ho
      exact ⟨ho.1, ho.2, hu⟩
  | many_first n room t p s _ => exact ⟨hm.offset, hm.state, hm.raws⟩
  | many_more n room t p s _ h _ =>
      have ho := OnBoundaries.outcome (m := ⟨n, t, p, s⟩) ⟨hm.offset, hm.state, hm.raws⟩ hg
      rw [h] at ho
      exact ⟨ho.1, ho.2, hm.raws⟩

theorem Contains.onBoundaries (h : Contains g x m m') (hg : g.WellWritten) (hm : m.OnBoundaries x) :
    m'.OnBoundaries x := by
  induction h with
  | refl => exact hm
  | tail _ h ih => exact h.onBoundaries hg ih

end Moment

theorem Parser.onBoundaries_beginning (p : Parser) (n : Nat) (start : Octets) (hx : Utf8.WellFormed x.octets) :
    (p.beginning n start).OnBoundaries x where
  offset := Subject.isBoundary_zero hx
  state := {
    tokens := fun _ ht => absurd ht (Array.not_mem_empty _)
    captures := ⟨nofun, nofun⟩
    attempts := Subject.isBoundary_zero hx
    furthest := Subject.isBoundary_zero hx
    calls := nofun }
  raws := nofun

/-- The offsets that a verdict reports. -/
def Verdict.offsets : Verdict → List Nat
  | .accepted tokens => tokens.toList.map Token.offset
  | .refused f => [f.offset]

theorem Outcome.OnBoundaries.verdict? {o : Outcome State} (h : o.OnBoundaries x) {tabs : TabStops} {v : Verdict}
    (hv : o.verdict? x tabs = some (.ok v)) : ∀ q ∈ v.offsets, x.IsBoundary q := by
  rcases o with ⟨q | q, s⟩ | ⟨e, s⟩ | _
  · cases hv
    intro q hq
    obtain ⟨t, ht, rfl⟩ := List.mem_map.mp hq
    exact h.2.tokens t (Array.mem_toList_iff.mp ht)
  · cases hv
    exact List.forall_mem_singleton.mpr h.2.furthest
  · cases hv
  · cases hv

/-- A run of a grammar with well-formed texts never stands inside a character of a well-formed subject. At every
moment it begins on a boundary, all offsets in its state are boundaries, those of tokens, captures, failures and
calls, and so it ends. In particular a verdict reports boundaries only. -/
theorem Parser.run_onBoundaries {p : Parser} {text : Octets} (hg : p.grammar.WellWritten)
    (ht : Utf8.WellFormed text) (start : Octets) :
    let x := Subject.ofOctets text
    (∀ n m, (p.beginning n start).Contains p.grammar x m →
      x.IsBoundary m.offset ∧ m.state.OnBoundaries x ∧ (m.outcome p.grammar x).OnBoundaries x) ∧
    (∀ n v, p.parse? n start text = some (.ok v) → ∀ q ∈ v.offsets, x.IsBoundary q) ∧
      ∀ v, p.parse start text = .ok v → ∀ q ∈ v.offsets, x.IsBoundary q := by
  intro x
  have hm : ∀ n m, (p.beginning n start).Contains p.grammar x m → m.OnBoundaries x :=
    fun n m h => h.onBoundaries hg (p.onBoundaries_beginning n start ht)
  have hparse : ∀ n v, p.parse? n start text = some (.ok v) → ∀ q ∈ v.offsets, x.IsBoundary q := by
    intro n v hv
    rw [parse?_eq_verdict?, ← outcome_beginning] at hv
    exact ((hm n _ .refl).outcome hg).verdict? hv
  refine ⟨fun n m h => ⟨(hm n m h).offset, (hm n m h).state, (hm n m h).outcome hg⟩, hparse, fun v hv => ?_⟩
  rw [parse] at hv
  cases ho : p.parse? (p.grammar.ampleDepth text) start text with
  | none =>
      rw [ho] at hv
      cases hv
  | some r =>
      rw [ho] at hv
      exact hparse _ v (ho.trans (congrArg some hv))

/-- A character of two octets that is captured and recalled. -/
theorem Parser.run_onBoundaries_accent :
    let e : Expr := .written "\\xE9"
    let p : Parser := { grammar := ⟨[.written "r" .normal (.seq (.capture e) (.ref Builtin.peek.name))],
      by decide, by decide, by decide⟩ }
    let text : Octets := [0xC3, 0xA9, 0xC3, 0xA9, 0x61]
    p.grammar.WellWritten ∧ Utf8.WellFormed text ∧
      ∃ v, p.parse (ascii "r") text = .ok v ∧ v.offsets = [0, 4] ∧
        ∀ q ∈ v.offsets, (Subject.ofOctets text).IsBoundary q := by
  intro e p text
  have hg : p.grammar.WellWritten := by
    intro r hr raw hraw
    cases List.mem_singleton.mp hr
    cases List.mem_singleton.mp hraw
    exact ⟨['\\', 'x', 'E', '9'], by decide⟩
  have ht : Utf8.WellFormed text := ⟨['é', 'é', 'a'], by decide⟩
  refine ⟨hg, ht, _, rfl, rfl, (run_onBoundaries hg ht (ascii "r")).2.2 _ rfl⟩

end Peg
