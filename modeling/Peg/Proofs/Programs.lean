import Peg.Program
import Peg.Proofs.TokenQueue

namespace Peg

/-- What the scopes of a program promise, whether it matched or failed: the modes and the calls are as they were, and
behind the tokens that there were stand matched ones. -/
structure State.KeepsScopes (s t : State) : Prop where
  atomicity : t.atomicity = s.atomicity
  lookahead : t.lookahead = s.lookahead
  calls : t.calls = s.calls
  tokens : s.tokens.toList <+: t.tokens.toList
  matched : MatchedFrom t.tokens s.tokens.size

theorem State.Adds.matchedFrom {f : Forest} {s t : State} (h : Adds f s t) :
    MatchedFrom t.tokens s.tokens.size := by
  have hd : f.tokensFrom s.tokens.size ++ [] = t.tokens.toList.drop s.tokens.size := by
    rw [h, ← Array.length_toList, List.drop_left, List.append_nil]
  have hs : f.StandsAt t.tokens s.tokens.size := ⟨[], hd⟩
  exact hs.matchedFrom h.size

theorem State.Grows.keepsScopes {s t : State} (h : s.Grows t) : s.KeepsScopes t := by
  obtain ⟨f, hf⟩ := h.tokens
  exact ⟨h.atomicity, h.lookahead, h.calls, hf.isPrefix, hf.matchedFrom⟩

/-- The outcome of a run that comes to an end, and inside the subject if it matches. -/
def Outcome.Returns {σ : Type} (x : Subject) : Outcome σ → Prop
  | .done (.matched q) _ => q ≤ x.size
  | .done (.failed _) _ => True
  | .raised _ _ => True
  | .exhausted => False

namespace Outcome.Returns

variable {σ : Type} {x : Subject} {o : Outcome σ}

theorem andThen (h : o.Returns x) {f : Nat → σ → Outcome σ} (hf : ∀ q t, q ≤ x.size → (f q t).Returns x) :
    (o.andThen f).Returns x := by
  rcases o with ⟨q | q, t⟩ | ⟨e, t⟩ | _
  · exact hf q t h
  · trivial
  · trivial
  · exact h

theorem orElse (h : o.Returns x) {f : Nat → σ → Outcome σ} (hf : ∀ q t, (f q t).Returns x) :
    (o.orElse f).Returns x := by
  rcases o with ⟨q | q, t⟩ | ⟨e, t⟩ | _
  · exact h
  · exact hf q t
  · trivial
  · exact h

theorem mapMatch (h : o.Returns x) {f : Match → Match}
    (hf : ∀ m q, f m = .matched q → q ≤ x.size ∨ m = .matched q) : (o.mapMatch f).Returns x := by
  rcases o with ⟨m, t⟩ | ⟨e, t⟩ | _
  · rw [Outcome.mapMatch]
    cases hm : f m with
    | failed q => trivial
    | matched q =>
        rcases hf m q hm with hq | rfl
        · exact hq
        · exact h
  · trivial
  · exact h

theorem leave (h : o.Returns x) (f : Match → σ → σ) : (o.leave f).Returns x := by
  rcases o with ⟨q | q, t⟩ | ⟨e, t⟩ | _ <;> exact h

theorem ofMatcher {w : Matcher} (hw : x.Forward w) {p : Nat} (hp : p ≤ x.size) (t : σ) :
    (Outcome.done (w p) t).Returns x := by
  cases h : w p with
  | matched q => exact (hw.reaches h).2 hp
  | failed q => trivial

end Outcome.Returns

namespace Program

variable {x : Subject} {a : Program} {p n : Nat} {t t' : Session} {m : Match}

/-- All jumps of a program end inside the subject. -/
def StaysIn (x : Subject) : Program → Prop
  | goto q => q ≤ x.size
  | nothing | fail | text _ | any _ | uncapture | dump => True
  | both a b | either a b => a.StaysIn x ∧ b.StaysIn x
  | optional a | many a | note a | call a | rule _ a | atomicity _ a | attempt a | look _ a | capture a
  | labelled _ a => a.StaysIn x

/-- A loop grows the state if each of its rounds does, also the one that fails in the end. -/
theorem grows_repeatAtMost {run : Nat → Session → Outcome Session}
    (hr : ∀ {p t m t'}, run p t = .done m t' → t.state.Grows t'.state) (h : repeatAtMost run n p t = .done m t') :
    t.state.Grows t'.state := by
  induction n generalizing p t with
  | zero => cases h
  | succ n ih =>
      rw [repeatAtMost] at h
      split at h
      · rename_i q u hu
        split at h
        · cases h
          exact hr hu
        · exact (hr hu).trans (ih h)
      · rename_i hu
        cases h
        exact hr hu
      · cases h
      · cases h

theorem grows_run (h : a.run x p t = .done m t') : t.state.Grows t'.state := by
  induction a generalizing p t m t' with
  | nothing | fail | text | any | goto | dump =>
      cases h
      exact .refl _
  | both a b iha ihb =>
      rcases Outcome.andThen_eq_done.mp h with ⟨q, u, hu, ht⟩ | ⟨q, -, hu⟩
      · exact (iha hu).trans (ihb ht)
      · exact iha hu
  | either a b iha ihb =>
      rcases Outcome.orElse_eq_done.mp h with ⟨q, u, hu, ht⟩ | ⟨q, -, hu⟩
      · exact (iha hu).trans (ihb ht)
      · exact iha hu
  | optional a ih =>
      obtain ⟨_, hu, -⟩ := Outcome.mapMatch_eq_done.mp h
      exact ih hu
  | many a ih => exact grows_repeatAtMost ih h
  | note a ih =>
      obtain ⟨u, hu, rfl⟩ := Outcome.leave_eq_done.mp h
      exact (ih hu).note m
  | call a ih =>
      rw [run] at h
      split at h
      · cases h
      · obtain ⟨u, hu, rfl⟩ := Outcome.leave_eq_done.mp h
        exact (ih hu).leaveCall
  | rule name a ih =>
      obtain ⟨u, hu, rfl⟩ := Outcome.leave_eq_done.mp h
      exact (ih hu).closeRule m
  | atomicity mode a ih =>
      obtain ⟨u, hu, rfl⟩ := Outcome.leave_eq_done.mp h
      exact (ih hu).setAtomicity
  | attempt a ih =>
      obtain ⟨k, hk, -⟩ := Outcome.mapMatch_eq_done.mp h
      obtain ⟨u, hu, rfl⟩ := Outcome.leave_eq_done.mp hk
      cases k with
      | matched q => exact ih hu
      | failed q => exact ((ih hu).rollBack q).grows
  | look polarity a ih =>
      obtain ⟨k, hk, -⟩ := Outcome.mapMatch_eq_done.mp h
      obtain ⟨u, hu, rfl⟩ := Outcome.leave_eq_done.mp hk
      exact (ih hu).lookBack.grows
  | capture a ih =>
      rcases Outcome.andThen_eq_done.mp h with ⟨q, u, hu, ht⟩ | ⟨q, -, hu⟩
      · cases ht
        exact (ih hu).push ⟨p, q⟩
      · exact ih hu
  | uncapture =>
      rw [run] at h
      split at h
      · cases h
        exact .refl _
      · cases h
        exact (State.Grows.refl t.state).pop
  | labelled label a ih =>
      obtain ⟨u, hu, rfl⟩ := Outcome.leave_eq_done.mp h
      have hg : t.state.Grows u.state := ih hu
      exact hg

theorem restores_attempt {q : Nat} (h : (attempt a).run x p t = .done (.failed q) t') : t.state.Restores t'.state := by
  obtain ⟨k, hk, hq⟩ := Outcome.mapMatch_eq_done.mp h
  obtain ⟨u, hu, rfl⟩ := Outcome.leave_eq_done.mp hk
  cases k with
  | matched k => cases hq
  | failed k => exact (grows_run hu).rollBack k

theorem restores_look {polarity : Polarity} (h : (look polarity a).run x p t = .done m t') :
    t.state.Restores t'.state := by
  obtain ⟨k, hk, -⟩ := Outcome.mapMatch_eq_done.mp h
  obtain ⟨u, hu, rfl⟩ := Outcome.leave_eq_done.mp hk
  exact (grows_run hu).lookBack

/-- Each round but the last moves on, so there are no more rounds than octets are left. -/
theorem returns_repeatAtMost {run : Nat → Session → Outcome Session}
    (hr : ∀ {p t}, p ≤ x.size → (run p t).Returns x) (hp : p ≤ x.size) (hn : x.size + 1 - p ≤ n) :
    (repeatAtMost run n p t).Returns x := by
  induction n generalizing p t with
  | zero => omega
  | succ n ih =>
      have hround := hr (t := t) hp
      rw [repeatAtMost]
      generalize run p t = o at hround
      rcases o with ⟨q | q, u⟩ | ⟨e, u⟩ | _
      · dsimp only
        split
        · exact hp
        · exact ih hround (by omega)
      · exact hp
      · trivial
      · exact hround

theorem returns_run (ha : a.StaysIn x) (hp : p ≤ x.size) : (a.run x p t).Returns x := by
  induction a generalizing p t with
  | nothing | dump => exact hp
  | fail => trivial
  | text u => exact .ofMatcher (x.forward_text u) hp t
  | any n => exact .ofMatcher (x.forward_skip n) hp t
  | goto q => exact ha
  | both a b iha ihb => exact (iha ha.1 hp).andThen fun q t hq => ihb ha.2 hq
  | either a b iha ihb => exact (iha ha.1 hp).orElse fun q t => ihb ha.2 hp
  | optional a ih =>
      refine (ih ha hp).mapMatch fun m q hm => ?_
      cases m with
      | matched k => exact .inr hm
      | failed k =>
          cases hm
          exact .inl hp
  | many a ih => exact returns_repeatAtMost (ih ha) hp (Nat.le_refl _)
  | note a ih | rule name a ih | atomicity mode a ih | labelled label a ih => exact (ih ha hp).leave _
  | call a ih =>
      rw [run]
      split
      · trivial
      · exact (ih ha hp).leave _
  | attempt a ih =>
      refine ((ih ha hp).leave _).mapMatch fun m q hm => ?_
      cases m with
      | matched k => exact .inr hm
      | failed k => cases hm
  | look polarity a ih =>
      refine ((ih ha hp).leave _).mapMatch fun m q hm => ?_
      have hq : p = q := by cases polarity <;> cases m <;> cases hm <;> rfl
      exact .inl (hq ▸ hp)
  | capture a ih => exact (ih ha hp).andThen fun q t hq => hq
  | uncapture =>
      rw [run]
      split
      · trivial
      · exact hp

/-- Whatever a program does inside them, the scopes of a state hold. A program that stays inside the subject comes to
an end. -/
theorem scopes_hold (x : Subject) (a : Program) (p : Nat) (t : Session) :
    (a.StaysIn x → p ≤ x.size → a.run x p t ≠ .exhausted) ∧
    (∀ m t', a.run x p t = .done m t' → t.state.KeepsScopes t'.state) ∧
    (∀ q t', (attempt a).run x p t = .done (.failed q) t' →
      t'.state.tokens = t.state.tokens ∧ t'.state.captures.items = t.state.captures.items) ∧
    ∀ polarity m t', (look polarity a).run x p t = .done m t' →
      t'.state.tokens = t.state.tokens ∧ t'.state.captures.items = t.state.captures.items := by
  refine ⟨fun ha hp he => ?_, fun m t' h => ?_, fun q t' h => ?_, fun polarity m t' h => ?_⟩
  · have hr := returns_run (t := t) ha hp
    rw [he] at hr
    exact hr
  · exact (grows_run h).keepsScopes
  · have hr := restores_attempt h
    exact ⟨hr.tokens_eq, hr.items⟩
  · have hr := restores_look h
    exact ⟨hr.tokens_eq, hr.items⟩

/-- A part that leaves a matched rule behind and an older capture undone when it fails, and jumps back in between. -/
theorem scopes_hold_failure :
    let x := Subject.ofOctets (ascii "ab")
    let a : Program := .both (.rule (ascii "r") (.both (.capture (.text (ascii "ab"))) (.goto 1)))
      (.both .uncapture (.both .uncapture (.text (ascii "a"))))
    let t : Session := { state := { tokens := #[⟨.start, ascii "q", 0, 0⟩], captures := .push ⟨0, 1⟩ {} } }
    a.run x 0 t ≠ .exhausted ∧ (∃ m t', a.run x 0 t = .done m t' ∧ t.state.KeepsScopes t'.state) ∧
      (∃ q t', (attempt a).run x 0 t = .done (.failed q) t' ∧ t'.state.tokens = t.state.tokens ∧
        t'.state.captures.items = t.state.captures.items) ∧
      ∃ m t', (look .negative a).run x 0 t = .done m t' ∧ t'.state.tokens = t.state.tokens ∧
        t'.state.captures.items = t.state.captures.items := by
  intro x a t
  obtain ⟨hreturns, hkept, hattempt, hlook⟩ := scopes_hold x a 0 t
  have ha : a.StaysIn x := ⟨⟨trivial, (by decide : 1 ≤ x.size)⟩, trivial, trivial, trivial⟩
  exact ⟨hreturns ha (Nat.zero_le _), ⟨_, _, rfl, hkept _ _ rfl⟩, ⟨_, _, rfl, hattempt _ _ rfl⟩,
    ⟨_, _, rfl, hlook .negative _ _ rfl⟩⟩

end Program

end Peg
