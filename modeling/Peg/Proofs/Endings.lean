import Peg.Proofs.Completeness
import Peg.Proofs.Moments
import Peg.Proofs.Termination

namespace Peg

namespace RuleScope

def leave (p : Nat) (s : State) (k : Match) (t : State) : RuleScope → State
  | node rule => t.closeRule (s.ruleFrame rule p) k
  | mode _ => t.setAtomicity s.atomicity

/-- Ends the scopes that were entered in the state `s`, the innermost first. -/
def leaveAll (p : Nat) (k : Match) (t : State) : List RuleScope → State → State
  | [], _ => t
  | scope :: scopes, s => scope.leave p s k (leaveAll p k t scopes (scope.enter p s))

theorem foldr_around_eq (scopes : List RuleScope) (r : Recogniser) (p : Nat) (s : State) :
    scopes.foldr around r p s = (r p (scopes.foldl (enter p) s)).leave fun k t => leaveAll p k t scopes s := by
  induction scopes generalizing s with
  | nil => exact (Outcome.leave_id _).symm
  | cons scope scopes ih =>
      have ho : ∀ r : Recogniser, scope.around r p s =
          (r p (scope.enter p s)).leave fun k t => scope.leave p s k t := by cases scope <;> exact fun _ => rfl
      rw [List.foldr_cons, ho, ih, Outcome.leave_leave]
      rfl

end RuleScope

/-- The state behind a rule that was called in the state `s`, if its body ended in the state `t`. -/
def Rule.leave (r : Rule) (p : Nat) (s : State) (k : Match) (t : State) : State :=
  RuleScope.leaveAll p k t r.scopes s

theorem Rule.enter_eq (r : Rule) (p : Nat) (s : State) :
    r.enter p s = { s with tokens := (r.enter p s).tokens, atomicity := (r.enter p s).atomicity } := by
  rw [Rule.enter]
  induction r.scopes generalizing s with
  | nil => rfl
  | cons scope scopes ih =>
      rw [List.foldl_cons, ih]
      cases scope with
      | node rule => rw [RuleScope.enter, State.openRule_eq]
      | mode m => rfl

theorem Rule.leave_eq (r : Rule) (p : Nat) (s : State) (k : Match) (t : State) :
    r.leave p s k t = { t with
      tokens := (r.leave p s k t).tokens, attempts := (r.leave p s k t).attempts,
      atomicity := (r.leave p s k t).atomicity } := by
  rw [Rule.leave]
  induction r.scopes generalizing s with
  | nil => rfl
  | cons scope scopes ih =>
      rw [RuleScope.leaveAll, ih]
      cases scope with
      | node rule => rw [RuleScope.leave, State.closeRule_eq]
      | mode m => rfl

theorem Builtin.recallTop_eq_done {b : Builtin} {x : Subject} {f : State → State} {p : Nat} {s t : State} {k : Match}
    (h : b.recallTop x f p s = .done k t) : t = s ∨ t = f s := by
  rw [recallTop] at h
  split at h
  · cases h
  · split at h <;> cases h
    · exact .inr rfl
    · exact .inl rfl

/-- What an expression does that asks only the subject. -/
def Expr.matcher? (x : Subject) : Expr → Option Matcher
  | literal l => some (x.text l.text)
  | folded l => some (x.foldedText l.text)
  | range r => some (x.runeIn r.low r.high)
  | scan l ls => some (x.skipUntilAny l.text (ls.map Literal.text))
  | ref _ | look _ _ | seq _ _ | choice _ _ | optional _ | repeated _ _ | capture _ => none

theorem Expr.run_of_matcher? {x : Subject} {e : Expr} {w : Matcher} (h : e.matcher? x = some w) (g : Grammar)
    (call : Caller) : e.run g x call = (Recogniser.ofMatcher w).noted := by
  cases e <;> cases h <;> rfl

/-- Inside a subject a loop never runs out of steps, so it does not matter how many more it has. -/
theorem Recogniser.Framed.loop_eq {x : Subject} {r : Recogniser} (h : r.Framed x) {n k p : Nat} {s : State}
    {room : Option Nat} (hp : p ≤ x.size) (hn : x.size < p + n) (hk : x.size < p + k) :
    r.loop n room p s = r.loop k room p s := by
  induction n generalizing k room p s with
  | zero => omega
  | succ n ih =>
      cases k with
      | zero => omega
      | succ k =>
          unfold Recogniser.loop
          rcases hd : r p s with ⟨q | q, t⟩ | ⟨e, t⟩ | _
          · by_cases hq : q ≤ p
            · simp only [if_pos hq]
            · simp only [if_neg hq]
              rw [ih (k := k) (((h hd).2 q rfl).2 hp) (by omega) (by omega)]
          · rfl
          · rfl
          · rfl

namespace Moment

/-- How a moment ends, by how its parts end. -/
inductive Ends (g : Grammar) (x : Subject) : Moment → Match → State → Prop
  | test {n e p s w} (hw : e.matcher? x = some w) : Ends g x ⟨n, .expr e, p, s⟩ (w p) (s.note (w p))
  | ref {n name p s k t} (h : Ends g x ⟨n, .call name, p, s⟩ k t) :
      Ends g x ⟨n, .expr (.ref name), p, s⟩ k (t.note k)
  | look {n polarity e p s k t} (h : Ends g x ⟨n, .expr e, p, s.lookInto polarity⟩ k t) :
      Ends g x ⟨n, .expr (.look polarity e), p, s⟩ (k.lookedAhead p polarity)
        ((t.lookBack s.lookahead s.captures.snapshot).note (k.lookedAhead p polarity))
  | seq {n d e p s k t} (h : Ends g x ⟨n, .both (.expr d) (.both .skip (.expr e)), p, s⟩ k t) :
      Ends g x ⟨n, .expr (.seq d e), p, s⟩ (k.whole p) ((t.rollBack s.mark k).note (k.whole p))
  | choice_first {n d e p s q t} (h : Ends g x ⟨n, .expr d, p, s⟩ (.matched q) t) :
      Ends g x ⟨n, .expr (.choice d e), p, s⟩ (.matched q) t
  | choice_second {n d e p s q t k u} (hd : Ends g x ⟨n, .expr d, p, s⟩ (.failed q) t)
      (he : Ends g x ⟨n, .expr e, p, t⟩ k u) : Ends g x ⟨n, .expr (.choice d e), p, s⟩ k (u.note k)
  | optional {n e p s k t} (h : Ends g x ⟨n, .expr e, p, s⟩ k t) :
      Ends g x ⟨n, .expr (.optional e), p, s⟩ (k.orNothing p) t
  | repeated_never {n count e p s} (hc : count.max? = some 0) :
      Ends g x ⟨n, .expr (.repeated count e), p, s⟩ (.matched p) s
  | repeated_optional {n count e p s k t} (hc : count.max? ≠ some 0) (hmin : count.min = 0)
      (h : Ends g x ⟨n, .occurrences count e, p, s⟩ k t) :
      Ends g x ⟨n, .expr (.repeated count e), p, s⟩ (k.orNothing p) t
  | repeated_whole {n count e p s k t} (hc : count.max? ≠ some 0) (hmin : count.min ≠ 0)
      (h : Ends g x ⟨n, .occurrences count e, p, s⟩ k t) :
      Ends g x ⟨n, .expr (.repeated count e), p, s⟩ (k.whole p) ((t.rollBack s.mark k).note (k.whole p))
  | capture_matched {n e p s q t} (h : Ends g x ⟨n, .expr e, p, s⟩ (.matched q) t) :
      Ends g x ⟨n, .expr (.capture e), p, s⟩ (.matched q) (t.modifyCaptures (CaptureStack.push ⟨p, q⟩))
  | capture_failed {n e p s q t} (h : Ends g x ⟨n, .expr e, p, s⟩ (.failed q) t) :
      Ends g x ⟨n, .expr (.capture e), p, s⟩ (.failed q) (t.note (.failed q))
  | builtin {n name p s b k t} (hb : Builtin.ofName? name = some b) (hl : ¬s.AtCallLimit)
      (h : b.run x p (s.enterCall ⟨name, p⟩) = .done k t) :
      Ends g x ⟨n + 1, .call name, p, s⟩ k (t.leaveCall.note k)
  | rule {n name p s r k t} (hb : Builtin.ofName? name = none) (hf : g.find? name = some r) (hl : ¬s.AtCallLimit)
      (h : Ends g x ⟨n, .expr r.body, p, r.enter p (s.enterCall ⟨name, p⟩)⟩ k t) :
      Ends g x ⟨n + 1, .call name, p, s⟩ k ((r.leave p (s.enterCall ⟨name, p⟩) k t).leaveCall.note k)
  | skip_nothing {n p s} (hm : s.atomicity ≠ .nonAtomic) : Ends g x ⟨n, .skip, p, s⟩ (.matched p) s
  | skip {n p s k t} (hm : s.atomicity = .nonAtomic) (h : Ends g x ⟨n, g.gapTask, p, s⟩ k t) :
      Ends g x ⟨n, .skip, p, s⟩ k t
  | nothing {n p s} : Ends g x ⟨n, .nothing, p, s⟩ (.matched p) s
  | both_first {n t u p s q s'} (h : Ends g x ⟨n, t, p, s⟩ (.failed q) s') :
      Ends g x ⟨n, .both t u, p, s⟩ (.failed q) s'
  | both {n t u p s q s' k s''} (ht : Ends g x ⟨n, t, p, s⟩ (.matched q) s') (hu : Ends g x ⟨n, u, q, s'⟩ k s'') :
      Ends g x ⟨n, .both t u, p, s⟩ k s''
  | many_full {n t p s} : Ends g x ⟨n, .many (some 0) t, p, s⟩ (.matched p) s
  | many_failed {n room t p s q s'} (hr : room ≠ some 0) (h : Ends g x ⟨n, t, p, s⟩ (.failed q) s') :
      Ends g x ⟨n, .many room t, p, s⟩ (.matched p) (s'.rollBack s.mark (.failed q))
  | many_last {n room t p s q s'} (hr : room ≠ some 0) (h : Ends g x ⟨n, t, p, s⟩ (.matched q) s') (hq : q ≤ p) :
      Ends g x ⟨n, .many room t, p, s⟩ (.matched q) s'
  | many_more {n room t p s q s' k s''} (hr : room ≠ some 0) (h : Ends g x ⟨n, t, p, s⟩ (.matched q) s') (hq : p < q)
      (hmore : Ends g x ⟨n, .many (room.map (· - 1)) t, q, s'⟩ k s'') :
      Ends g x ⟨n, .many room t, p, s⟩ k s''

section Unfolding

variable (g : Grammar) (x : Subject) (n p : Nat) (s : State)

theorem outcome_look (polarity : Polarity) (e : Expr) : outcome g x ⟨n, .expr (.look polarity e), p, s⟩ =
    (((outcome g x ⟨n, .expr e, p, s.lookInto polarity⟩).leave fun _ t =>
      t.lookBack s.lookahead s.captures.snapshot).mapMatch (Match.lookedAhead p polarity)).leave State.note := rfl

theorem outcome_seq (d e : Expr) : outcome g x ⟨n, .expr (.seq d e), p, s⟩ =
    (((outcome g x ⟨n, .both (.expr d) (.both .skip (.expr e)), p, s⟩).leave (State.rollBack s.mark)).mapMatch
      (Match.whole p)).leave State.note := rfl

theorem outcome_choice (d e : Expr) : outcome g x ⟨n, .expr (.choice d e), p, s⟩ =
    ((outcome g x ⟨n, .expr d, p, s⟩).orElse fun _ t => outcome g x ⟨n, .expr e, p, t⟩).leave State.note := rfl

theorem outcome_optional (e : Expr) : outcome g x ⟨n, .expr (.optional e), p, s⟩ =
    ((outcome g x ⟨n, .expr e, p, s⟩).mapMatch (Match.orNothing p)).leave State.note := rfl

theorem outcome_repeated_never {count : Count} (hc : count.max? = some 0) (e : Expr) :
    outcome g x ⟨n, .expr (.repeated count e), p, s⟩ = .done (.matched p) s := by
  have hn : x.counted (g.separators x (g.caller x n)) (e.run g x (g.caller x n)) count.min count.max? = .nothing :=
    if_pos hc
  rw [outcome, Task.run, Expr.run, hn]
  rfl

theorem outcome_repeated_optional {count : Count} (hc : count.max? ≠ some 0) (hmin : count.min = 0) (e : Expr) :
    outcome g x ⟨n, .expr (.repeated count e), p, s⟩ =
      ((((outcome g x ⟨n, .occurrences count e, p, s⟩).mapMatch (Match.orNothing p)).leave
        (State.rollBack s.mark)).mapMatch (Match.whole p)).leave State.note := by
  rw [outcome, Task.run, Expr.run, Task.counted_eq g x _ count e hc, if_pos hmin]
  rfl

theorem outcome_repeated_whole {count : Count} (hc : count.max? ≠ some 0) (hmin : count.min ≠ 0) (e : Expr) :
    outcome g x ⟨n, .expr (.repeated count e), p, s⟩ =
      (((outcome g x ⟨n, .occurrences count e, p, s⟩).leave (State.rollBack s.mark)).mapMatch
        (Match.whole p)).leave State.note := by
  rw [outcome, Task.run, Expr.run, Task.counted_eq g x _ count e hc, if_neg hmin]
  rfl

theorem outcome_capture (e : Expr) : outcome g x ⟨n, .expr (.capture e), p, s⟩ =
    ((outcome g x ⟨n, .expr e, p, s⟩).andThen fun q t =>
      .done (.matched q) (t.modifyCaptures (CaptureStack.push ⟨p, q⟩))).leave State.note := rfl

theorem outcome_call {name : Octets} (hl : ¬s.AtCallLimit) : outcome g x ⟨n + 1, .call name, p, s⟩ =
    ((g.resolve x (g.caller x n) name p (s.enterCall ⟨name, p⟩)).leave fun _ t => t.leaveCall).leave State.note := by
  rw [outcome, Task.run, Grammar.caller, Recogniser.noted, Recogniser.inCall, if_neg hl]

theorem outcome_rule {name : Octets} {r : Rule} (hb : Builtin.ofName? name = none) (hf : g.find? name = some r)
    (hl : ¬s.AtCallLimit) : outcome g x ⟨n + 1, .call name, p, s⟩ =
      (((outcome g x ⟨n, .expr r.body, p, r.enter p (s.enterCall ⟨name, p⟩)⟩).leave
        (r.leave p (s.enterCall ⟨name, p⟩))).leave fun _ t => t.leaveCall).leave State.note := by
  rw [outcome_call g x n p s hl, Grammar.resolve, hb, hf]
  dsimp only
  rw [r.run_eq_foldr, RuleScope.foldr_around_eq]
  rfl

theorem outcome_skip (hm : s.atomicity = .nonAtomic) :
    outcome g x ⟨n, .skip, p, s⟩ = outcome g x ⟨n, g.gapTask, p, s⟩ := by
  rw [outcome, Task.run, g.separators_eq, Recogniser.inGaps, if_neg (not_not_intro hm),
    Task.gap_eq (g.tidy_caller x n)]
  rfl

theorem outcome_both (t u : Task) : outcome g x ⟨n, .both t u, p, s⟩ =
    (outcome g x ⟨n, t, p, s⟩).andThen fun q s' => outcome g x ⟨n, u, q, s'⟩ := rfl

theorem framed_outcome (t : Task) : (t.run g x (g.caller x n)).Framed x := Task.framed_run (g.tidy_caller x n) t

variable {g x n p s} in
theorem reaches_of_outcome {t : Task} {q : Nat} {s' : State} (h : outcome g x ⟨n, t, p, s⟩ = .done (.matched q) s') :
    x.Reaches p q := (framed_outcome g x n t h).2 q rfl

/-- One round of a loop, and what is left of it. -/
theorem outcome_many {p : Nat} (hp : p ≤ x.size) {room : Option Nat} (hr : room ≠ some 0) (t : Task) :
    outcome g x ⟨n, .many room t, p, s⟩ =
      match ((outcome g x ⟨n, t, p, s⟩).leave (State.rollBack s.mark)).mapMatch (Match.whole p) with
      | .done (.matched q) s' =>
          if q ≤ p then .done (.matched q) s' else outcome g x ⟨n, .many (room.map (· - 1)) t, q, s'⟩
      | .done (.failed _) s' => .done (.matched p) s'
      | .raised e s' => .raised e s'
      | .exhausted => .exhausted := by
  have hf := (framed_outcome g x n t).attempt.framed
  have hn : x.size + 1 - p = x.size - p + 1 := Nat.succ_sub hp
  change (t.run g x (g.caller x n)).attempt.loop (x.size + 1 - p) room p s = _
  rw [hn, Recogniser.loop, if_neg hr]
  change _ = match (t.run g x (g.caller x n)).attempt p s with
    | .done (.matched q) s' => if q ≤ p then _ else _
    | .done (.failed _) s' => _
    | .raised e s' => _
    | .exhausted => _
  rcases hd : (t.run g x (g.caller x n)).attempt p s with ⟨q | q, s'⟩ | ⟨e, s'⟩ | _
  · by_cases hq : q ≤ p
    · simp only [if_pos hq]
    · have hx := ((hf hd).2 q rfl).2 hp
      simp only [if_neg hq]
      exact hf.loop_eq hx (by omega) (show x.size < q + (x.size + 1 - q) by omega)
  · rfl
  · rfl
  · rfl

end Unfolding

variable {g : Grammar} {x : Subject} {m : Moment} {n p q : Nat} {s t s' : State} {k : Match}

theorem Ends.outcome_eq (h : Ends g x m k t) (hp : m.offset ≤ x.size) : m.outcome g x = .done k t := by
  induction h with
  | test hw =>
      rw [outcome, Task.run, Expr.run_of_matcher? hw]
      rfl
  | ref _ ih => exact congrArg (Outcome.leave · State.note) (ih hp)
  | look _ ih =>
      rw [outcome_look, ih hp]
      rfl
  | seq _ ih =>
      rw [outcome_seq, ih hp]
      rfl
  | choice_first _ ih =>
      rw [outcome_choice, ih hp]
      rfl
  | choice_second _ _ ihd ihe =>
      rw [outcome_choice, ihd hp, Outcome.orElse, ihe hp]
      rfl
  | @optional _ _ _ _ k _ _ ih =>
      rw [outcome_optional, ih hp]
      cases k <;> rfl
  | repeated_never hc => exact outcome_repeated_never _ _ _ _ _ hc _
  | @repeated_optional _ _ _ _ _ k _ hc hmin _ ih =>
      rw [outcome_repeated_optional _ _ _ _ _ hc hmin, ih hp]
      cases k <;> rfl
  | repeated_whole hc hmin _ ih =>
      rw [outcome_repeated_whole _ _ _ _ _ hc hmin, ih hp]
      rfl
  | capture_matched _ ih | capture_failed _ ih =>
      rw [outcome_capture, ih hp]
      rfl
  | builtin hb hl h =>
      rw [outcome_call _ _ _ _ _ hl, Grammar.resolve, hb]
      dsimp only
      rw [h]
      rfl
  | rule hb hf hl _ ih =>
      rw [outcome_rule _ _ _ _ _ hb hf hl, ih hp]
      rfl
  | skip_nothing hm =>
      rw [outcome, Task.run, Grammar.separators_eq, Recogniser.inGaps, if_pos hm]
  | skip hm _ ih => exact (outcome_skip _ _ _ _ _ hm).trans (ih hp)
  | nothing => rfl
  | both_first _ ih =>
      rw [outcome_both, ih hp]
      rfl
  | both _ _ iht ihu =>
      have ho := iht hp
      rw [outcome_both, ho]
      exact ihu ((reaches_of_outcome ho).2 hp)
  | @many_full n t p s =>
      have hn : x.size + 1 - p = x.size - p + 1 := Nat.succ_sub hp
      change Recogniser.loop _ (x.size + 1 - p) (some 0) p s = _
      rw [hn]
      rfl
  | many_failed hr _ ih =>
      rw [outcome_many _ _ _ _ hp hr, ih hp]
      rfl
  | many_last hr _ hq ih =>
      rw [outcome_many _ _ _ _ hp hr, ih hp]
      exact if_pos hq
  | many_more hr _ hq _ ih ihm =>
      have ho := ih hp
      rw [outcome_many _ _ _ _ hp hr, ho]
      exact (if_neg (Nat.not_le_of_lt hq)).trans (ihm ((reaches_of_outcome ho).2 hp))

/-- Whatever comes of the task inside the subject has come of its parts. -/
def Resolves (g : Grammar) (x : Subject) (n : Nat) (t : Task) : Prop :=
  ∀ ⦃p s k s'⦄, p ≤ x.size → outcome g x ⟨n, t, p, s⟩ = .done k s' → Ends g x ⟨n, t, p, s⟩ k s'

theorem resolves_nothing (g : Grammar) (x : Subject) (n : Nat) : Resolves g x n .nothing := by
  intro p s k s' _ h
  cases h
  exact .nothing

theorem Resolves.both {t u : Task} (ht : Resolves g x n t) (hu : Resolves g x n u) : Resolves g x n (.both t u) := by
  intro p s k s' hp h
  rw [outcome_both] at h
  rcases Outcome.andThen_eq_done.mp h with ⟨q, s₁, h₁, h₂⟩ | ⟨q, rfl, h₁⟩
  · exact .both (ht hp h₁) (hu ((reaches_of_outcome h₁).2 hp) h₂)
  · exact .both_first (ht hp h₁)

theorem Resolves.many {t : Task} (ht : Resolves g x n t) (room : Option Nat) : Resolves g x n (.many room t) := by
  intro p s k s' hp h
  induction hd : x.size - p using Nat.strongRecOn generalizing room p s with
  | ind d ih =>
      by_cases hr : room = some 0
      · subst hr
        rw [Ends.many_full.outcome_eq hp] at h
        cases h
        exact .many_full
      · rw [outcome_many g x n s hp hr] at h
        rcases ho : outcome g x ⟨n, t, p, s⟩ with ⟨q | q, s₁⟩ | ⟨e, s₁⟩ | _ <;> rw [ho] at h
        · have hx := reaches_of_outcome ho
          have hone := ht hp ho
          change (if q ≤ p then Outcome.done (.matched q) s₁
            else outcome g x ⟨n, .many (room.map (· - 1)) t, q, s₁⟩) = _ at h
          split at h
          next hq =>
            cases h
            exact .many_last hr hone hq
          next hq =>
            have hle := hx.2 hp
            exact .many_more hr hone (by omega) (ih (x.size - q) (by omega) _ hle h rfl)
        · cases h
          exact .many_failed hr (ht hp ho)
        · cases h
        · cases h

theorem resolves_gapTask (hc : ∀ name, Resolves g x n (.call name)) : Resolves g x n g.gapTask := by
  have hw := (hc whitespaceName).many none
  unfold Grammar.gapTask
  cases g.hasWhitespace <;> cases g.hasComment
  · exact resolves_nothing g x n
  · exact (hc commentName).many none
  · exact hw
  · exact hw.both (((hc commentName).both hw).many none)

theorem resolves_skip (hc : ∀ name, Resolves g x n (.call name)) : Resolves g x n .skip := by
  intro p s k s' hp h
  by_cases hm : s.atomicity = .nonAtomic
  · rw [outcome_skip g x n p s hm] at h
    exact .skip hm (resolves_gapTask hc hp h)
  · rw [(Ends.skip_nothing hm).outcome_eq hp] at h
    cases h
    exact .skip_nothing hm

theorem resolves_occurrences {e : Expr} (hs : Resolves g x n .skip) (he : Resolves g x n (.expr e)) (count : Count) :
    Resolves g x n (.occurrences count e) := by
  have hfurther : ∀ i, Resolves g x n (.further e i) := by
    intro i
    induction i with
    | zero => exact resolves_nothing g x n
    | succ i ih => exact (hs.both he).both ih
  exact (he.both (hfurther _)).both ((hs.both he).many _)

theorem resolves_expr (hc : ∀ name, Resolves g x n (.call name)) (e : Expr) : Resolves g x n (.expr e) := by
  have hs := resolves_skip hc
  have htest : ∀ {e : Expr} {w}, e.matcher? x = some w → Resolves g x n (.expr e) := by
    intro e w hw p s k s' hp h
    rw [(Ends.test hw).outcome_eq hp] at h
    cases h
    exact .test hw
  induction e with
  | literal | folded | range | scan => exact htest rfl
  | ref name =>
      intro p s k s' hp h
      obtain ⟨t, ht, rfl⟩ := Outcome.leave_eq_done.mp h
      exact .ref (hc name hp ht)
  | look polarity e ih =>
      intro p s k s' hp h
      simp only [outcome_look, Outcome.leave_eq_done, Outcome.mapMatch_eq_done] at h
      obtain ⟨_, ⟨j, ⟨t, h, rfl⟩, rfl⟩, rfl⟩ := h
      exact .look (ih hp h)
  | seq d e ihd ihe =>
      intro p s k s' hp h
      simp only [outcome_seq, Outcome.leave_eq_done, Outcome.mapMatch_eq_done] at h
      obtain ⟨_, ⟨j, ⟨t, h, rfl⟩, rfl⟩, rfl⟩ := h
      exact .seq ((ihd.both (hs.both ihe)) hp h)
  | choice d e ihd ihe =>
      intro p s k s' hp h
      simp only [outcome_choice, Outcome.leave_eq_done, Outcome.orElse_eq_done] at h
      obtain ⟨t, ⟨q, u, hd, he⟩ | ⟨q, rfl, hd⟩, rfl⟩ := h
      · exact .choice_second (ihd hp hd) (ihe hp he)
      · exact .choice_first (ihd hp hd)
  | optional e ih =>
      intro p s k s' hp h
      simp only [outcome_optional, Outcome.leave_eq_done, Outcome.mapMatch_eq_done] at h
      obtain ⟨t, ⟨j, h, rfl⟩, rfl⟩ := h
      have ho := Ends.optional (ih hp h)
      cases j <;> exact ho
  | repeated count e ih =>
      intro p s k s' hp h
      have hocc := resolves_occurrences hs ih count
      by_cases hmax : count.max? = some 0
      · rw [outcome_repeated_never g x n p s hmax] at h
        cases h
        exact .repeated_never hmax
      · by_cases hmin : count.min = 0
        · simp only [outcome_repeated_optional g x n p s hmax hmin, Outcome.leave_eq_done,
            Outcome.mapMatch_eq_done] at h
          obtain ⟨_, ⟨_, ⟨t, ⟨j, h, rfl⟩, rfl⟩, rfl⟩, rfl⟩ := h
          have ho := Ends.repeated_optional hmax hmin (hocc hp h)
          cases j <;> exact ho
        · simp only [outcome_repeated_whole g x n p s hmax hmin, Outcome.leave_eq_done,
            Outcome.mapMatch_eq_done] at h
          obtain ⟨_, ⟨j, ⟨t, h, rfl⟩, rfl⟩, rfl⟩ := h
          exact .repeated_whole hmax hmin (hocc hp h)
  | capture e ih =>
      intro p s k s' hp h
      simp only [outcome_capture, Outcome.leave_eq_done, Outcome.andThen_eq_done] at h
      obtain ⟨t, ⟨q, u, h, ht⟩ | ⟨q, rfl, h⟩, rfl⟩ := h
      · cases ht
        exact .capture_matched (ih hp h)
      · exact .capture_failed (ih hp h)

theorem resolves_call (he : ∀ i < n, ∀ e, Resolves g x i (.expr e)) (name : Octets) : Resolves g x n (.call name) := by
  intro p s k s' hp h
  cases n with
  | zero => cases h
  | succ n =>
      by_cases hl : s.AtCallLimit
      · rw [outcome, Task.run, Grammar.caller, Recogniser.noted, Recogniser.inCall, if_pos hl] at h
        cases h
      · cases hb : Builtin.ofName? name with
        | some b =>
            simp only [outcome_call g x n p s hl, Grammar.resolve, hb, Outcome.leave_eq_done] at h
            obtain ⟨_, ⟨t, h, rfl⟩, rfl⟩ := h
            exact .builtin hb hl h
        | none =>
            cases hf : g.find? name with
            | some r =>
                simp only [outcome_rule g x n p s hb hf hl, Outcome.leave_eq_done] at h
                obtain ⟨_, ⟨_, ⟨t, h, rfl⟩, rfl⟩, rfl⟩ := h
                exact .rule hb hf hl (he n (Nat.lt_succ_self n) r.body hp h)
            | none =>
                rw [outcome_call g x n p s hl, Grammar.resolve, hb, hf] at h
                cases h

theorem resolves (g : Grammar) (x : Subject) (n : Nat) (t : Task) : Resolves g x n t := by
  have hexpr : ∀ i e, Resolves g x i (.expr e) := by
    intro i
    induction i using Nat.strongRecOn with
    | ind i ih => exact resolves_expr (resolves_call ih)
  have hc := resolves_call (n := n) fun i _ => hexpr i
  induction t with
  | expr e => exact hexpr n e
  | call name => exact hc name
  | skip => exact resolves_skip hc
  | nothing => exact resolves_nothing g x n
  | both t u iht ihu => exact iht.both ihu
  | many room t ih => exact ih.many room

/-- Inside the subject a moment ends as its parts make it end. -/
theorem ends_iff (hp : m.offset ≤ x.size) : Ends g x m k t ↔ m.outcome g x = .done k t :=
  ⟨fun h => h.outcome_eq hp, fun h => resolves g x m.depth m.task hp h⟩

theorem Leads.offset_le {m' : Moment} (h : Leads g x m m') (hp : m.offset ≤ x.size) : m'.offset ≤ x.size := by
  cases h with
  | both_second _ _ _ _ _ ho | many_more _ _ _ _ _ _ ho => exact (reaches_of_outcome ho).2 hp
  | ref | look | seq | choice_first | choice_second | optional | repeated | capture | rule | skip | both_first
  | many_first => exact hp

theorem Contains.offset_le {m' : Moment} (h : Contains g x m m') (hp : m.offset ≤ x.size) : m'.offset ≤ x.size := by
  induction h with
  | refl => exact hp
  | tail _ hl ih => exact hl.offset_le ih

end Moment

theorem Parser.ends_of_refused {p : Parser} {n : Nat} {start text : Octets} {f : Failure}
    (h : p.parse? n start text = some (.ok (.refused f))) :
    ∃ q s, (p.beginning n start).Ends p.grammar (Subject.ofOctets text) (.failed q) s ∧
      s.failure (Subject.ofOctets text) p.tabs = f := by
  rw [parse?_eq_verdict?] at h
  rcases ho : p.run n start (Subject.ofOctets text) with ⟨q | q, s⟩ | ⟨e, s⟩ | _ <;> rw [ho] at h <;> cases h
  exact ⟨q, s, (Moment.ends_iff (Nat.zero_le _)).mpr ho, rfl⟩

end Peg
