import Peg.Grammar.Written
import Peg.Proofs.Congruence
import Peg.Proofs.Outcome
import Peg.Proofs.Scope

namespace Peg

namespace Recogniser

/-- The state grows, and a match moves on within the subject. A failure may leave tokens and captures. -/
def Framed (x : Subject) (r : Recogniser) : Prop :=
  ∀ ⦃p s m t⦄, r p s = .done m t → s.Grows t ∧ ∀ q, m = .matched q → x.Reaches p q

/-- Such a recogniser never fails. -/
def Sure (x : Subject) (r : Recogniser) : Prop :=
  ∀ ⦃p s m t⦄, r p s = .done m t → s.Grows t ∧ ∃ q, m = .matched q ∧ x.Reaches p q

inductive Ends (x : Subject) (p : Nat) (s : State) : Match → State → Prop
  | matched {q t} (hg : s.Grows t) (hq : x.Reaches p q) : Ends x p s (.matched q) t
  | failed {t} (hr : s.Restores t) : Ends x p s (.failed p) t

/-- A failure comes back to where it began, and of the state it changes the record of failures only. -/
def Tidy (x : Subject) (r : Recogniser) : Prop := ∀ ⦃p s m t⦄, r p s = .done m t → Ends x p s m t

variable {x : Subject} {r r' : Recogniser}

theorem Tidy.framed (h : r.Tidy x) : r.Framed x := by
  intro p s m t hd
  cases h hd with
  | matched hg hq => exact ⟨hg, fun k hk => by cases hk; exact hq⟩
  | failed hr => exact ⟨hr.grows, nofun⟩

theorem Tidy.restores (h : r.Tidy x) {p q : Nat} {s t : State} (hd : r p s = .done (.failed q) t) :
    s.Restores t := by
  cases h hd with
  | failed hr => exact hr

theorem Sure.tidy (h : r.Sure x) : r.Tidy x := by
  intro p s m t hd
  obtain ⟨hg, q, rfl, hq⟩ := h hd
  exact .matched hg hq

theorem tidy_ofMatcher {w : Matcher} (hw : x.Forward w) : (ofMatcher w).Tidy x := by
  intro p s m t hd
  injection hd with hm ht
  rw [← ht]
  cases m with
  | matched q => exact .matched (.refl s) (hw.reaches hm)
  | failed q =>
      rw [hw.eq_of_failed hm]
      exact .failed (.refl s)

theorem Tidy.noted (h : r.Tidy x) : r.noted.Tidy x := by
  intro p s m t hd
  obtain ⟨u, hu, rfl⟩ := Outcome.leave_eq_done.mp hd
  cases h hu with
  | matched hg hq => exact .matched (hg.note _) hq
  | failed hr => exact .failed (hr.note _)

theorem Framed.andThen (h : r.Framed x) (h' : r'.Framed x) : (r.andThen r').Framed x := by
  intro p s m t hd
  rcases Outcome.andThen_eq_done.mp hd with ⟨q, u, hu, ht⟩ | ⟨q, rfl, hu⟩
  · exact ⟨(h hu).1.trans (h' ht).1, fun k hk => ((h hu).2 q rfl).trans ((h' ht).2 k hk)⟩
  · exact ⟨(h hu).1, nofun⟩

theorem Tidy.andThen (h : r.Tidy x) (h' : r'.Sure x) : (r.andThen r').Tidy x := by
  intro p s m t hd
  rcases Outcome.andThen_eq_done.mp hd with ⟨q, u, hu, ht⟩ | ⟨q, rfl, hu⟩
  · obtain ⟨hg, k, rfl, hk⟩ := h' ht
    have hf := h.framed hu
    exact .matched (hf.1.trans hg) ((hf.2 q rfl).trans hk)
  · exact h hu

theorem Tidy.orElse (h : r.Tidy x) (h' : r'.Tidy x) : (r.orElse r').Tidy x := by
  intro p s m t hd
  rcases Outcome.orElse_eq_done.mp hd with ⟨q, u, hu, ht⟩ | ⟨q, rfl, hu⟩
  · cases h hu with
    | failed hr =>
        cases h' ht with
        | matched hg hq => exact .matched (hr.grows.trans hg) hq
        | failed hr' => exact .failed (hr.trans hr')
  · exact h hu

theorem Framed.optional (h : r.Framed x) : r.optional.Sure x := by
  intro p s m t hd
  obtain ⟨n, hn, rfl⟩ := Outcome.mapMatch_eq_done.mp hd
  cases n with
  | matched q => exact ⟨(h hn).1, q, rfl, (h hn).2 q rfl⟩
  | failed q => exact ⟨(h hn).1, p, rfl, .refl p⟩

theorem Framed.attempt (h : r.Framed x) : r.attempt.Tidy x := by
  intro p s m t hd
  obtain ⟨n, hn, rfl⟩ := Outcome.mapMatch_eq_done.mp hd
  obtain ⟨u, hu, rfl⟩ := Outcome.leave_eq_done.mp hn
  cases n with
  | matched q => exact .matched (h hu).1 ((h hu).2 q rfl)
  | failed q => exact .failed ((h hu).1.rollBack q)

/-- There is nothing to undo for what cleans up behind itself. -/
theorem attempt_eq (h : r.Tidy x) : r.attempt = r := by
  funext p s
  rw [attempt]
  rcases hd : r p s with ⟨m, t⟩ | ⟨e, t⟩ | _
  · cases h hd with
    | matched _ _ => rfl
    | failed hr =>
        simp only [Outcome.leave, Outcome.mapMatch, hr.rollBack_eq]
        rfl
  · rfl
  · rfl

theorem Framed.look (h : r.Framed x) (polarity : Polarity) : (r.look polarity).Tidy x := by
  intro p s m t hd
  obtain ⟨n, hn, rfl⟩ := Outcome.mapMatch_eq_done.mp hd
  obtain ⟨u, hu, rfl⟩ := Outcome.leave_eq_done.mp hn
  have hr := (h hu).1.lookBack
  cases polarity <;> cases n
  · exact .matched hr.grows (.refl p)
  · exact .failed hr
  · exact .failed hr
  · exact .matched hr.grows (.refl p)

theorem Tidy.capture (h : r.Tidy x) : r.capture.Tidy x := by
  intro p s m t hd
  rcases Outcome.andThen_eq_done.mp hd with ⟨q, u, hu, ht⟩ | ⟨q, rfl, hu⟩
  · cases ht
    cases h hu with
    | matched hg hq => exact .matched (hg.push ⟨p, q⟩) hq
  · exact h hu

theorem Tidy.inCall (h : r.Tidy x) (name : Octets) : (r.inCall name).Tidy x := by
  intro p s m t hd
  rw [Recogniser.inCall] at hd
  split at hd
  · cases hd
  · obtain ⟨u, hu, rfl⟩ := Outcome.leave_eq_done.mp hd
    cases h hu with
    | matched hg hq => exact .matched hg.leaveCall hq
    | failed hr => exact .failed hr.leaveCall

theorem Tidy.inAtomicity (h : r.Tidy x) (mode : Atomicity) : (r.inAtomicity mode).Tidy x := by
  intro p s m t hd
  obtain ⟨u, hu, rfl⟩ := Outcome.leave_eq_done.mp hd
  cases h hu with
  | matched hg hq => exact .matched hg.setAtomicity hq
  | failed hr => exact .failed hr.setAtomicity

theorem Tidy.inRule (h : r.Tidy x) (name : Octets) : (r.inRule name).Tidy x := by
  intro p s m t hd
  obtain ⟨u, hu, rfl⟩ := Outcome.leave_eq_done.mp hd
  cases h hu with
  | matched hg hq => exact .matched (hg.closeRule _) hq
  | failed hr => exact .failed (hr.closeRule _)

theorem Tidy.inGaps (h : r.Tidy x) : r.inGaps.Tidy x := by
  intro p s m t hd
  rw [Recogniser.inGaps] at hd
  split at hd
  · cases hd
    exact .matched (.refl s) (.refl p)
  · exact h hd

theorem Tidy.loop (h : r.Tidy x) (n : Nat) (room : Option Nat) : (r.loop n room).Sure x := by
  induction n generalizing room with
  | zero => exact nofun
  | succ n ih =>
      intro p s m t hd
      rw [Recogniser.loop] at hd
      split at hd
      · cases hd
        exact ⟨.refl s, p, rfl, .refl p⟩
      · split at hd
        · rename_i q u hu
          have hf := h.framed hu
          split at hd
          · cases hd
            exact ⟨hf.1, q, rfl, hf.2 q rfl⟩
          · obtain ⟨hg, k, hk, hq⟩ := ih _ hd
            exact ⟨hf.1.trans hg, k, hk, (hf.2 q rfl).trans hq⟩
        · rename_i hu
          cases hd
          exact ⟨(h.framed hu).1, p, rfl, .refl p⟩
        · cases hd
        · cases hd

theorem atMost_eq_loop (h : r.Tidy x) (n : Nat) : r.atMost n = r.loop n none := by
  induction n with
  | zero => rfl
  | succ n ih =>
      funext p s
      simp only [atMost, loop, ih, reduceCtorEq, if_false, Option.map_none]
      rcases hd : r p s with ⟨q | q, t⟩ | ⟨e, t⟩ | _
      · cases h hd with
        | matched _ hq =>
            -- What is tidy never ends before its beginning, so a match that does not advance ends at `p`.
            by_cases hle : q ≤ p
            · have he : q = p := Nat.le_antisymm hle hq.1
              simp only [he, Nat.le_refl, if_true]
            · simp only [if_neg hle]
      · rfl
      · rfl
      · rfl

theorem Tidy.subjectLoop (h : r.Tidy x) (room : Option Nat) : (x.loop room r).Sure x :=
  fun _ _ _ _ hd => h.loop _ _ hd

theorem repeatedly_eq_loop (h : r.Tidy x) : x.repeatedly r = x.loop none r := by
  funext p s
  rw [Subject.repeatedly, atMost_eq_loop h]
  rfl

theorem Tidy.repeatedly (h : r.Tidy x) : (x.repeatedly r).Sure x := by
  rw [repeatedly_eq_loop h]
  exact h.subjectLoop none

theorem tidy_recallTop (b : Builtin) {f : State → State} (hf : ∀ s : State, s.Grows (f s)) :
    Tidy x (b.recallTop x f) := by
  intro p s m t hd
  rw [Builtin.recallTop] at hd
  split at hd
  · cases hd
  · rename_i span _
    split at hd
    · rename_i q hq
      cases hd
      exact .matched (hf s) ((x.forward_text _).reaches hq)
    · rename_i q hq
      cases hd
      rw [(x.forward_text _).eq_of_failed hq]
      exact .failed (.refl s)

theorem congruence_tidy (x : Subject) : CallCongruence x (fun a _ => a.Framed x) (fun a _ => a.Tidy x) where
  loosen := Tidy.framed
  ofMatcher := tidy_ofMatcher
  exhausted := nofun
  undefinedRule _ := nofun
  noted := Tidy.noted
  andThen := Framed.andThen
  orElse := Tidy.orElse
  optional h := h.optional.tidy
  attempt := Framed.attempt
  look polarity h := h.framed.look polarity
  capture := Tidy.capture
  repeatedly h := h.repeatedly.tidy
  loop room h := (h.subjectLoop room).tidy
  inGaps := Tidy.inGaps
  inRule name h := h.inRule name
  inAtomicity mode h := h.inAtomicity mode
  inCall name h := h.inCall name
  peek := tidy_recallTop .peek fun s => .refl s
  pop := tidy_recallTop .pop fun s => (State.Grows.refl s).pop

end Recogniser

/-- A relation that the operators of expressions respect between recognisers that are both tidy. -/
structure TidyOperators (x : Subject) (R : Recogniser → Recogniser → Prop) : Prop where
  nothing : R .nothing .nothing
  noted : ∀ {a b}, R a b → R a.noted b.noted
  andThen : ∀ {a b c d}, a.Framed x → R a b → R c d → R (a.andThen c) (b.andThen d)
  orElse : ∀ {a b c d}, a.Tidy x → R a b → R c d → R (a.orElse c) (b.orElse d)
  optional : ∀ {a b}, R a b → R a.optional b.optional
  attempt : ∀ {a b}, a.Framed x → b.Framed x → R a b → R a.attempt b.attempt
  look : ∀ {a b} polarity, a.Framed x → b.Framed x → R a b → R (a.look polarity) (b.look polarity)
  capture : ∀ {a b}, R a b → R a.capture b.capture
  loop : ∀ {a b} room, a.Framed x → R a b → R (x.loop room a) (x.loop room b)

theorem TidyOperators.operators {x : Subject} {R : Recogniser → Recogniser → Prop} (h : TidyOperators x R) :
    Operators x (fun a b => a.Framed x ∧ b.Framed x ∧ R a b) (fun a b => a.Tidy x ∧ b.Tidy x ∧ R a b) := by
  have ht := (Recogniser.congruence_tidy x).operators
  exact {
    loosen := fun ⟨ha, hb, hr⟩ => ⟨ha.framed, hb.framed, hr⟩
    nothing := ⟨ht.nothing, ht.nothing, h.nothing⟩
    noted := fun ⟨ha, hb, hr⟩ => ⟨ha.noted, hb.noted, h.noted hr⟩
    andThen := fun ⟨ha, hb, hr⟩ ⟨hc, hd, hr'⟩ => ⟨ha.andThen hc, hb.andThen hd, h.andThen ha hr hr'⟩
    orElse := fun ⟨ha, hb, hr⟩ ⟨hc, hd, hr'⟩ => ⟨ha.orElse hc, hb.orElse hd, h.orElse ha hr hr'⟩
    optional := fun ⟨ha, hb, hr⟩ => ⟨ha.optional.tidy, hb.optional.tidy, h.optional hr⟩
    attempt := fun ⟨ha, hb, hr⟩ => ⟨ha.attempt, hb.attempt, h.attempt ha hb hr⟩
    look := fun polarity ⟨ha, hb, hr⟩ =>
      ⟨ha.framed.look polarity, hb.framed.look polarity, h.look polarity ha.framed hb.framed hr⟩
    capture := fun ⟨ha, hb, hr⟩ => ⟨ha.capture, hb.capture, h.capture hr⟩
    loop := fun room ⟨ha, hb, hr⟩ =>
      ⟨(ha.subjectLoop room).tidy, (hb.subjectLoop room).tidy, h.loop room ha.framed hr⟩ }

/-- An expression is related under two grammars whose calls are tidy if its leaves and the separators are. -/
theorem TidyOperators.expr {x : Subject} {R : Recogniser → Recogniser → Prop} (h : TidyOperators x R)
    {g g' : Grammar} {call call' : Caller} (ht : ∀ name, (call name).Tidy x) (ht' : ∀ name, (call' name).Tidy x)
    (hs : R (g.separators x call) (g'.separators x call')) {e : Expr}
    (hl : ∀ d ∈ e.leaves, d.IsLeaf → R (d.run g x call) (d.run g' x call')) :
    R (e.run g x call) (e.run g' x call') := by
  have hc := (Recogniser.congruence_tidy x).toCongruence
  have he := @Congruence.expr _ _ _ hc g call call ht
  have he' := @Congruence.expr _ _ _ hc g' call' call' ht'
  have hg : (g.separators x call).Framed x := (@Congruence.separators _ _ _ hc g call call ht).framed
  have hg' : (g'.separators x call').Framed x := (@Congruence.separators _ _ _ hc g' call' call' ht').framed
  exact (h.operators.expr ⟨hg, hg', hs⟩ fun d hd hdl => ⟨he d, he' d, hl d hd hdl⟩).2.2

/-- A relation that every form of a grammar respects between recognisers that are both tidy. -/
structure TidyCongruence (x : Subject) (R : Recogniser → Recogniser → Prop) : Prop where
  ofMatcher : ∀ w, R (.ofMatcher w) (.ofMatcher w)
  undefinedRule : ∀ name,
    R (fun _ s => .raised (.undefinedRule name) s) (fun _ s => .raised (.undefinedRule name) s)
  noted : ∀ {a b}, R a b → R a.noted b.noted
  andThen : ∀ {a b c d}, a.Framed x → R a b → R c d → R (a.andThen c) (b.andThen d)
  orElse : ∀ {a b c d}, a.Tidy x → R a b → R c d → R (a.orElse c) (b.orElse d)
  optional : ∀ {a b}, R a b → R a.optional b.optional
  attempt : ∀ {a b}, a.Framed x → b.Framed x → R a b → R a.attempt b.attempt
  look : ∀ {a b} polarity, a.Framed x → b.Framed x → R a b → R (a.look polarity) (b.look polarity)
  capture : ∀ {a b}, R a b → R a.capture b.capture
  loop : ∀ {a b} room, a.Framed x → R a b → R (x.loop room a) (x.loop room b)
  inGaps : ∀ {a b}, R a b → R a.inGaps b.inGaps
  inRule : ∀ {a b} name, R a b → R (a.inRule name) (b.inRule name)
  inAtomicity : ∀ {a b} mode, R a b → R (a.inAtomicity mode) (b.inAtomicity mode)
  peek : R (Builtin.peek.run x) (Builtin.peek.run x)
  pop : R (Builtin.pop.run x) (Builtin.pop.run x)

namespace TidyCongruence

variable {x : Subject} {R : Recogniser → Recogniser → Prop}

theorem tidyOperators (h : TidyCongruence x R) : TidyOperators x R := { h with nothing := h.ofMatcher .matched }

theorem congruence (h : TidyCongruence x R) :
    Congruence x (fun a b => a.Framed x ∧ b.Framed x ∧ R a b) (fun a b => a.Tidy x ∧ b.Tidy x ∧ R a b) := by
  have ht := Recogniser.congruence_tidy x
  exact {
    h.tidyOperators.operators with
    ofMatcher := fun hw => ⟨ht.ofMatcher hw, ht.ofMatcher hw, h.ofMatcher _⟩
    undefinedRule := fun name => ⟨ht.undefinedRule name, ht.undefinedRule name, h.undefinedRule name⟩
    repeatedly := by
      rintro a b ⟨ha, hb, hr⟩
      rw [Recogniser.repeatedly_eq_loop ha, Recogniser.repeatedly_eq_loop hb]
      exact ⟨(ha.subjectLoop none).tidy, (hb.subjectLoop none).tidy, h.loop none ha.framed hr⟩
    inGaps := fun ⟨ha, hb, hr⟩ => ⟨ha.inGaps, hb.inGaps, h.inGaps hr⟩
    inRule := fun name ⟨ha, hb, hr⟩ => ⟨ha.inRule name, hb.inRule name, h.inRule name hr⟩
    inAtomicity := fun mode ⟨ha, hb, hr⟩ => ⟨ha.inAtomicity mode, hb.inAtomicity mode, h.inAtomicity mode hr⟩
    peek := ⟨ht.peek, ht.peek, h.peek⟩
    pop := ⟨ht.pop, ht.pop, h.pop⟩ }

theorem callCongruence (h : TidyCongruence x R) (hexhausted : R (fun _ _ => .exhausted) (fun _ _ => .exhausted))
    (hcall : ∀ {a b} name, R a b → R (a.inCall name) (b.inCall name)) :
    CallCongruence x (fun a b => a.Framed x ∧ b.Framed x ∧ R a b) (fun a b => a.Tidy x ∧ b.Tidy x ∧ R a b) :=
  { h.congruence with
    exhausted := ⟨nofun, nofun, hexhausted⟩
    inCall := fun name ⟨ha, hb, hr⟩ => ⟨ha.inCall name, hb.inCall name, hcall name hr⟩ }

end TidyCongruence

theorem Grammar.tidy_caller (g : Grammar) (x : Subject) (depth : Nat) (name : Octets) :
    (g.caller x depth name).Tidy x := (Recogniser.congruence_tidy x).caller g depth name

namespace TidyCongruence

variable {x : Subject} {R : Recogniser → Recogniser → Prop} {g : Grammar} {n k : Nat}

theorem rule (h : TidyCongruence x R) (hc : ∀ name, R (g.caller x n name) (g.caller x k name)) (r : Rule) :
    R (r.run g x (g.caller x n)) (r.run g x (g.caller x k)) :=
  (h.congruence.rule (fun name => ⟨g.tidy_caller x n name, g.tidy_caller x k name, hc name⟩) r).2.2

theorem resolve (h : TidyCongruence x R) (hc : ∀ name, R (g.caller x n name) (g.caller x k name)) (name : Octets) :
    R (g.resolve x (g.caller x n) name) (g.resolve x (g.caller x k) name) :=
  (h.congruence.resolve (fun name => ⟨g.tidy_caller x n name, g.tidy_caller x k name, hc name⟩) name).2.2

end TidyCongruence

theorem Expr.tidy_run (e : Expr) (g : Grammar) (x : Subject) (depth : Nat) :
    (e.run g x (g.caller x depth)).Tidy x := (Recogniser.congruence_tidy x).run e g depth

/-- A failure comes back to where it began and changes nothing but the record of failures. A match keeps
the tokens there were, leaves the modes and the calls as they were, and ends inside the subject. -/
def Outcome.LeavesNoTrace (x : Subject) (p : Nat) (s : State) : Outcome State → Prop
  | .done (.failed q) t => q = p ∧ t = { s with attempts := t.attempts, furthest := t.furthest }
  | .done (.matched q) t =>
      s.tokens.toList <+: t.tokens.toList ∧ t.atomicity = s.atomicity ∧ t.lookahead = s.lookahead ∧
        t.calls = s.calls ∧ p ≤ q ∧ q ≤ x.size
  | .raised _ _ => True
  | .exhausted => True

theorem Recogniser.Tidy.leavesNoTrace {x : Subject} {r : Recogniser} (h : r.Tidy x) {p : Nat} (hp : p ≤ x.size)
    (s : State) : (r p s).LeavesNoTrace x p s := by
  rcases hd : r p s with ⟨m, t⟩ | ⟨e, t⟩ | _
  · cases h hd with
    | matched hg hq =>
        obtain ⟨f, hf⟩ := hg.tokens
        exact ⟨hf.isPrefix, hg.atomicity, hg.lookahead, hg.calls, hq.1, hq.2 hp⟩
    | failed hr => exact ⟨rfl, hr⟩
  · trivial
  · trivial

/-- Backtracking leaves no trace, in expressions and in calls of rules. -/
theorem backtracking_leavesNoTrace (g : Grammar) (x : Subject) (depth : Nat) {p : Nat} (hp : p ≤ x.size)
    (s : State) : (∀ e : Expr, (e.run g x (g.caller x depth) p s).LeavesNoTrace x p s) ∧
      ∀ name, (g.caller x depth name p s).LeavesNoTrace x p s :=
  ⟨fun e => (e.tidy_run g x depth).leavesNoTrace hp s,
    fun name => (g.tidy_caller x depth name).leavesNoTrace hp s⟩

/-- Two of three captures are made and undone, and the one there was stays. -/
theorem failed_captures_leaveNoTrace :
    let g : Grammar := ⟨[], nofun, nofun, .nil⟩
    let x := Subject.ofOctets (ascii "xaab")
    let s : State := { captures := .push ⟨0, 1⟩ {}, tokens := #[⟨.start, ascii "r", 0, 0⟩] }
    let o := (Expr.repeated (.exactly 3) (.capture (.written "a"))).run g x (g.caller x 0) 1 s
    1 ≤ x.size ∧ (∃ t, o = .done (.failed 1) t) ∧ o.LeavesNoTrace x 1 s :=
  ⟨by decide, ⟨_, rfl⟩, (backtracking_leavesNoTrace _ _ 0 (by decide) _).1 _⟩

end Peg
