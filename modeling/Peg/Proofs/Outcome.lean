import Peg.Outcome

namespace Peg.Outcome

variable {σ : Type} {o : Outcome σ} {m : Match} {t : σ}

theorem andThen_eq_done {f : Nat → σ → Outcome σ} : o.andThen f = done m t ↔
    (∃ q s, o = done (.matched q) s ∧ f q s = done m t) ∨ ∃ q, m = .failed q ∧ o = done (.failed q) t := by
  rcases o with ⟨q | q, s⟩ | ⟨e, s⟩ | _
  · simp only [andThen, done.injEq, Match.matched.injEq, reduceCtorEq, false_and, and_false, exists_false,
      or_false]
    exact ⟨fun h => ⟨q, s, ⟨rfl, rfl⟩, h⟩, fun ⟨_, _, ⟨rfl, rfl⟩, h⟩ => h⟩
  · simp only [andThen, done.injEq, reduceCtorEq, false_and, exists_false, false_or, Match.failed.injEq]
    exact ⟨fun ⟨hm, ht⟩ => ⟨q, hm.symm, rfl, ht⟩, fun ⟨_, hm, rfl, ht⟩ => ⟨hm.symm, ht⟩⟩
  · simp only [andThen, reduceCtorEq, false_and, and_false, exists_false, or_false]
  · simp only [andThen, reduceCtorEq, false_and, and_false, exists_false, or_false]

theorem orElse_eq_done {f : Nat → σ → Outcome σ} : o.orElse f = done m t ↔
    (∃ q s, o = done (.failed q) s ∧ f q s = done m t) ∨ ∃ q, m = .matched q ∧ o = done (.matched q) t := by
  rcases o with ⟨q | q, s⟩ | ⟨e, s⟩ | _
  · simp only [orElse, done.injEq, reduceCtorEq, false_and, exists_false, false_or, Match.matched.injEq]
    exact ⟨fun ⟨hm, ht⟩ => ⟨q, hm.symm, rfl, ht⟩, fun ⟨_, hm, rfl, ht⟩ => ⟨hm.symm, ht⟩⟩
  · simp only [orElse, done.injEq, Match.failed.injEq, reduceCtorEq, false_and, and_false, exists_false,
      or_false]
    exact ⟨fun h => ⟨q, s, ⟨rfl, rfl⟩, h⟩, fun ⟨_, _, ⟨rfl, rfl⟩, h⟩ => h⟩
  · simp only [orElse, reduceCtorEq, false_and, and_false, exists_false, or_false]
  · simp only [orElse, reduceCtorEq, false_and, and_false, exists_false, or_false]

theorem mapMatch_eq_done {f : Match → Match} : o.mapMatch f = done m t ↔ ∃ n, o = done n t ∧ f n = m := by
  rcases o with ⟨n, s⟩ | ⟨e, s⟩ | _
  · simp only [mapMatch, done.injEq]
    exact ⟨fun ⟨hm, ht⟩ => ⟨n, ⟨rfl, ht⟩, hm⟩, fun ⟨_, ⟨rfl, ht⟩, hm⟩ => ⟨hm, ht⟩⟩
  · simp only [mapMatch, reduceCtorEq, false_and, exists_false]
  · simp only [mapMatch, reduceCtorEq, false_and, exists_false]

theorem leave_eq_done {f : Match → σ → σ} : o.leave f = done m t ↔ ∃ s, o = done m s ∧ f m s = t := by
  rcases o with ⟨n, s⟩ | ⟨e, s⟩ | _
  · simp only [leave, done.injEq]
    exact ⟨fun ⟨hm, ht⟩ => ⟨s, ⟨hm, rfl⟩, hm ▸ ht⟩, fun ⟨_, ⟨hm, rfl⟩, ht⟩ => ⟨hm, hm ▸ ht⟩⟩
  · simp only [leave, reduceCtorEq, false_and, exists_false]
  · simp only [leave, reduceCtorEq, false_and, exists_false]

theorem leave_leave (o : Outcome σ) (f h : Match → σ → σ) :
    (o.leave f).leave h = o.leave fun m s => h m (f m s) := by
  cases o <;> rfl

theorem leave_id (o : Outcome σ) : (o.leave fun _ s => s) = o := by
  cases o <;> rfl

theorem raised_ne_done (e : RunError) (s : σ) : ∀ m t, raised e s ≠ done m t := nofun

theorem exhausted_ne_done : ∀ m t, (exhausted : Outcome σ) ≠ done m t := nofun

theorem leave_eq_self (h : ∀ m s, o ≠ done m s) (f : Match → σ → σ) : o.leave f = o := by
  cases o with
  | done m s => exact absurd rfl (h m s)
  | raised | exhausted => rfl

theorem mapMatch_eq_self (h : ∀ m s, o ≠ done m s) (f : Match → Match) : o.mapMatch f = o := by
  cases o with
  | done m s => exact absurd rfl (h m s)
  | raised | exhausted => rfl

/-- Goes on from a match or a failure alike. -/
def bind (o : Outcome σ) (f : Match → σ → Outcome σ) : Outcome σ :=
  match o with
  | done m s => f m s
  | raised e s => raised e s
  | exhausted => exhausted

/-- The state that the run leaves behind, if it leaves one, has the property. -/
def Leaves (P : σ → Prop) : Outcome σ → Prop
  | done _ s => P s
  | raised _ s => P s
  | exhausted => True

theorem andThen_eq_bind (o : Outcome σ) (f : Nat → σ → Outcome σ) : o.andThen f = o.bind fun m s =>
    match m with
    | .matched q => f q s
    | .failed q => done (.failed q) s := by
  rcases o with ⟨q | q, s⟩ | ⟨e, s⟩ | _ <;> rfl

theorem orElse_eq_bind (o : Outcome σ) (f : Nat → σ → Outcome σ) : o.orElse f = o.bind fun m s =>
    match m with
    | .matched q => done (.matched q) s
    | .failed q => f q s := by
  rcases o with ⟨q | q, s⟩ | ⟨e, s⟩ | _ <;> rfl

theorem mapMatch_eq_bind (o : Outcome σ) (f : Match → Match) : o.mapMatch f = o.bind fun m s => done (f m) s := by
  cases o <;> rfl

theorem leave_eq_bind (o : Outcome σ) (f : Match → σ → σ) : o.leave f = o.bind fun m s => done m (f m s) := by
  cases o <;> rfl

theorem bind_bind (o : Outcome σ) (f h : Match → σ → Outcome σ) :
    (o.bind f).bind h = o.bind fun m s => (f m s).bind h := by
  cases o <;> rfl

theorem bind_done (o : Outcome σ) : o.bind done = o := by
  cases o <;> rfl

theorem bind_eq_done {f : Match → σ → Outcome σ} : o.bind f = done m t ↔ ∃ n s, o = done n s ∧ f n s = done m t := by
  rcases o with ⟨n, s⟩ | ⟨e, s⟩ | _
  · simp only [bind, done.injEq]
    exact ⟨fun h => ⟨n, s, ⟨rfl, rfl⟩, h⟩, fun ⟨_, _, ⟨rfl, rfl⟩, h⟩ => h⟩
  · simp only [bind, reduceCtorEq, false_and, exists_false]
  · simp only [bind, reduceCtorEq, false_and, exists_false]

namespace Leaves

variable {P Q : σ → Prop}

theorem mono (h : o.Leaves P) (hpq : ∀ s, P s → Q s) : o.Leaves Q := by
  cases o with
  | done | raised => exact hpq _ h
  | exhausted => trivial

theorem and (h : o.Leaves P) (h' : o.Leaves Q) : o.Leaves fun s => P s ∧ Q s := by
  cases o with
  | done | raised => exact ⟨h, h'⟩
  | exhausted => trivial

theorem bind {f : Match → σ → Outcome σ} (h : o.Leaves P) (hf : ∀ m s, P s → (f m s).Leaves P) :
    (o.bind f).Leaves P := by
  cases o with
  | done m s => exact hf m s h
  | raised | exhausted => exact h

theorem andThen {f : Nat → σ → Outcome σ} (h : o.Leaves P) (hf : ∀ q s, P s → (f q s).Leaves P) :
    (o.andThen f).Leaves P := by
  rw [andThen_eq_bind]
  refine h.bind fun m s hs => ?_
  cases m with
  | matched q => exact hf q s hs
  | failed q => exact hs

theorem orElse {f : Nat → σ → Outcome σ} (h : o.Leaves P) (hf : ∀ q s, P s → (f q s).Leaves P) :
    (o.orElse f).Leaves P := by
  rw [orElse_eq_bind]
  refine h.bind fun m s hs => ?_
  cases m with
  | matched q => exact hs
  | failed q => exact hf q s hs

theorem mapMatch (h : o.Leaves P) (f : Match → Match) : (o.mapMatch f).Leaves P := by
  rw [mapMatch_eq_bind]
  exact h.bind fun _ _ hs => hs

theorem leave {f : Match → σ → σ} (h : o.Leaves P) (hf : ∀ m s, P s → P (f m s)) : (o.leave f).Leaves P := by
  rw [leave_eq_bind]
  exact h.bind hf

end Leaves

end Peg.Outcome
