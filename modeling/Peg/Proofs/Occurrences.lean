import Mathlib.Order.Bounds.Basic
import Peg.Proofs.Associativity

namespace Peg

namespace Recogniser

/-- The next occurrence of a repeated part when `k` of them have come. All but the first stand behind separators. -/
def occurrence (skip r : Recogniser) : Nat → Recogniser
  | 0 => r
  | _ + 1 => skip.andThen r

section Repetition

variable (skip r : Recogniser) (p : Nat) (s : State)

/-- From the offset `p` and the state `s` on `k` occurrences match, and the last one ends there and leaves that
state. -/
inductive Occurs : Nat → Nat → State → Prop
  | start : Occurs 0 p s
  | next {k q t q' t'} (h : Occurs k q t) (hm : occurrence skip r k q t = .done (.matched q') t') :
      Occurs (k + 1) q' t'

/-- Behind `k` occurrences that match comes one that fails. -/
def FailsBehind (k : Nat) : Prop :=
  ∃ q t q' t', Occurs skip r p s k q t ∧ occurrence skip r k q t = .done (.failed q') t'

/-- The last of `k` occurrences ends where the one before it ended. -/
def StaysAt (k : Nat) : Prop := ∃ q t t', Occurs skip r p s (k - 1) q t ∧ Occurs skip r p s k q t'

/-- As many occurrences are enough: no more are allowed, or no more come, or none has to come and the last one did
not advance. -/
def Suffices (low : Nat) (high? : Option Nat) (k : Nat) : Prop :=
  low ≤ k ∧ (high? = some k ∨ FailsBehind skip r p s k ∨ max low 1 < k ∧ StaysAt skip r p s k)

/-- What the first `k` occurrences come to, one after the other. -/
inductive ComesTo (k : Nat) : Outcome State → Prop
  | matched {q t} (h : Occurs skip r p s k q t) : ComesTo k (.done (.matched q) t)
  | failed {j q t q' t'} (hj : j < k) (h : Occurs skip r p s j q t)
      (hm : occurrence skip r j q t = .done (.failed q') t') : ComesTo k (.done (.failed q') t')
  | raised {j q t e u} (hj : j < k) (h : Occurs skip r p s j q t) (hm : occurrence skip r j q t = .raised e u) :
      ComesTo k (.raised e u)
  | exhausted {j q t} (hj : j < k) (h : Occurs skip r p s j q t) (hm : occurrence skip r j q t = .exhausted) :
      ComesTo k .exhausted

/-- That many occurrences match, and whether they are enough depends on the number allowed and on what comes next. -/
structure Pending (low : Nat) (high? : Option Nat) (k q : Nat) (t : State) : Prop where
  occurs : Occurs skip r p s k q t
  low_le : low ≤ k
  le_high : ∀ h, high? = some h → k ≤ h
  least : ∀ j < k, ¬Suffices skip r p s low high? j
  advanced : ¬(max low 1 < k ∧ StaysAt skip r p s k)

/-- What a repetition comes to: the least number of occurrences that is enough, or a failure of one that has to come,
or whatever stops an occurrence short before there are enough. -/
inductive Repeats (low : Nat) (high? : Option Nat) : Outcome State → Prop
  | matched {k q t t'} (h : Occurs skip r p s k q t) (hk : IsLeast {k | Suffices skip r p s low high? k} k)
      (ht : t.Restores t') : Repeats low high? (.done (.matched q) t')
  | failed {k t'} (hk : k < low) (h : FailsBehind skip r p s k) (ht : s.Restores t') :
      Repeats low high? (.done (.failed p) t')
  | stopped {k q t o} (h : Occurs skip r p s k q t) (hm : occurrence skip r k q t = o) (ho : ∀ m u, o ≠ .done m u)
      (hk : ∀ j ≤ k, ¬Suffices skip r p s low high? j) : Repeats low high? o

end Repetition

variable {skip r : Recogniser} {p low k j q q' : Nat} {s t t' : State} {high? : Option Nat} {o : Outcome State}
  {x : Subject}

theorem noted_noted (r : Recogniser) : r.noted.noted = r.noted := by
  funext p s
  rw [noted, noted, Outcome.leave_leave]
  refine congrArg (r p s).leave (funext₂ fun m t => ?_)
  cases m with
  | matched q => rfl
  | failed q => exact State.note_note q t

theorem framed_occurrence (hs : skip.Framed x) (hr : r.Framed x) : ∀ k, (occurrence skip r k).Framed x
  | 0 => hr
  | _ + 1 => hs.andThen hr

namespace Occurs

theorem unique (h : Occurs skip r p s k q t) (h' : Occurs skip r p s k q' t') : q = q' ∧ t = t' := by
  induction h generalizing q' t' with
  | start =>
      cases h' with
      | start => exact ⟨rfl, rfl⟩
  | next _ hm ih =>
      cases h' with
      | next h' hm' =>
          obtain ⟨rfl, rfl⟩ := ih h'
          rw [hm] at hm'
          cases hm'
          exact ⟨rfl, rfl⟩

/-- Every occurrence but the last has one that matches behind it. -/
theorem before (h : Occurs skip r p s k q t) (hj : j < k) :
    ∃ q t q' t', Occurs skip r p s j q t ∧ occurrence skip r j q t = .done (.matched q') t' := by
  induction h with
  | start => exact absurd hj (Nat.not_lt_zero j)
  | @next k q t q' t' h hm ih =>
      rcases Nat.lt_succ_iff_lt_or_eq.mp hj with hj | rfl
      · exact ih hj
      · exact ⟨q, t, q', t', h, hm⟩

/-- An occurrence that does not match is the last to be tried. -/
theorem le_of_not_matched (h : Occurs skip r p s k q t) (hj : Occurs skip r p s j q' t')
    (hm : ∀ n u, occurrence skip r j q' t' ≠ .done (.matched n) u) : k ≤ j := by
  refine Nat.le_of_not_lt fun hlt => ?_
  obtain ⟨a, b, n, u, hab, hn⟩ := h.before hlt
  obtain ⟨rfl, rfl⟩ := hj.unique hab
  exact hm n u hn

/-- There is one occurrence at most that does not match. -/
theorem last_unique (h : Occurs skip r p s k q t) (h' : Occurs skip r p s j q' t')
    (hm : ∀ n u, occurrence skip r k q t ≠ .done (.matched n) u)
    (hm' : ∀ n u, occurrence skip r j q' t' ≠ .done (.matched n) u) :
    occurrence skip r k q t = occurrence skip r j q' t' := by
  obtain rfl := Nat.le_antisymm (h.le_of_not_matched h' hm') (h'.le_of_not_matched h hm)
  obtain ⟨rfl, rfl⟩ := h.unique h'
  rfl

theorem le_of_failsBehind (h : Occurs skip r p s k q t) (hf : FailsBehind skip r p s j) : k ≤ j := by
  obtain ⟨q', t', _, _, hj, hm⟩ := hf
  refine h.le_of_not_matched hj fun n u => ?_
  rw [hm]
  exact nofun

theorem grows (hs : skip.Framed x) (hr : r.Framed x) (h : Occurs skip r p s k q t) : s.Grows t ∧ x.Reaches p q := by
  induction h with
  | start => exact ⟨.refl s, .refl p⟩
  | @next k q t q' t' _ hm ih =>
      have hf := framed_occurrence hs hr k hm
      exact ⟨ih.1.trans hf.1, ih.2.trans (hf.2 q' rfl)⟩

theorem not_failsBehind (h : Occurs skip r p s k q t)
    (hm : ∀ n u, occurrence skip r k q t ≠ .done (.failed n) u) : ¬FailsBehind skip r p s k := by
  rintro ⟨q', t', n, u, h', hf⟩
  obtain ⟨rfl, rfl⟩ := h.unique h'
  exact hm n u hf

/-- Where an occurrence is stopped short, none fails. -/
theorem not_failsBehind_of_stops (h : Occurs skip r p s k q t) (hm : ∀ m u, occurrence skip r k q t ≠ .done m u)
    (j : Nat) : ¬FailsBehind skip r p s j := by
  rintro ⟨q', t', n, u, h', he⟩
  have hn : ∀ a b, occurrence skip r j q' t' ≠ .done (.matched a) b := by
    rw [he]
    exact nofun
  exact hm (.failed n) u ((h.last_unique h' (fun a b => hm _ b) hn).trans he)

end Occurs

namespace ComesTo

theorem andThen (h : ComesTo skip r p s k o) : ComesTo skip r p s (k + 1) (o.andThen (occurrence skip r k)) := by
  cases h with
  | @matched q t h =>
      simp only [Outcome.andThen]
      rcases hm : occurrence skip r k q t with ⟨q' | q', t'⟩ | ⟨e, u⟩ | _
      · exact .matched (h.next hm)
      · exact .failed (Nat.lt_succ_self k) h hm
      · exact .raised (Nat.lt_succ_self k) h hm
      · exact .exhausted (Nat.lt_succ_self k) h hm
  | failed hj h hm => exact .failed (Nat.lt_succ_of_lt hj) h hm
  | raised hj h hm => exact .raised (Nat.lt_succ_of_lt hj) h hm
  | exhausted hj h hm => exact .exhausted (Nat.lt_succ_of_lt hj) h hm

theorem further (h : ComesTo skip r p s (k + 1) o) (n : Nat) :
    ComesTo skip r p s (k + 1 + n) (o.andThen (Recogniser.further skip r n)) := by
  induction n generalizing k o with
  | zero =>
      have hn : o.andThen (Recogniser.further skip r 0) = o := by rcases o with ⟨q | q, t⟩ | ⟨e, u⟩ | _ <;> rfl
      rw [hn]
      exact h
  | succ n ih =>
      have hn : o.andThen (Recogniser.further skip r (n + 1)) =
          (o.andThen (occurrence skip r (k + 1))).andThen (Recogniser.further skip r n) := by
        rcases o with ⟨q | q, t⟩ | ⟨e, u⟩ | _ <;> rfl
      rw [hn, Nat.add_comm n 1, ← Nat.add_assoc]
      exact ih h.andThen

/-- The first occurrences are the part itself and as many more. -/
theorem first (skip r : Recogniser) (p : Nat) (s : State) (n : Nat) :
    ComesTo skip r p s (n + 1) (r.andThen (Recogniser.further skip r n) p s) := by
  have h : ComesTo skip r p s 1 (r p s) := ComesTo.andThen (.matched .start)
  rw [Nat.add_comm]
  exact h.further n

end ComesTo

theorem not_suffices_of_lt (h : k < low) : ¬Suffices skip r p s low high? k := fun hs => Nat.not_le_of_lt h hs.1

namespace Pending

variable (h : Pending skip r p s low high? k q t)

include h

omit h in
/-- When those that have to come are there, and at least one, it is time to look whether there are enough. -/
theorem of_occurs (h : Occurs skip r p s (k + 1) q t) (hk : k + 1 = max low 1)
    (hhigh : ∀ n, high? = some n → 1 ≤ n ∧ low ≤ n) : Pending skip r p s low high? (k + 1) q t where
  occurs := h
  low_le := by omega
  le_high n hn := by
    have := hhigh n hn
    omega
  least j hj := by
    rintro ⟨hlow, hs | hs | ⟨hs, -⟩⟩
    · have := hhigh j hs
      omega
    · exact Nat.not_le_of_lt hj (h.le_of_failsBehind hs)
    · omega
  advanced hs := by omega

theorem enough (hk : high? = some k ∨ FailsBehind skip r p s k) :
    IsLeast {k | Suffices skip r p s low high? k} k :=
  ⟨⟨h.low_le, hk.imp_right .inl⟩, fun j hj => Nat.le_of_not_lt fun hlt => h.least j hlt hj⟩

theorem not_suffices (hhigh : high? ≠ some k) (hm : ∀ n u, occurrence skip r k q t ≠ .done (.failed n) u) :
    ∀ j ≤ k, ¬Suffices skip r p s low high? j := by
  intro j hj
  rcases Nat.eq_or_lt_of_le hj with rfl | hj
  · rintro ⟨-, h' | h' | h'⟩
    · exact hhigh h'
    · exact h.occurs.not_failsBehind hm h'
    · exact h.advanced h'
  · exact h.least j hj

theorem next (hhigh : high? ≠ some k) (hm : occurrence skip r k q t = .done (.matched q') t') (hq : q < q') :
    Pending skip r p s low high? (k + 1) q' t' where
  occurs := h.occurs.next hm
  low_le := Nat.le_succ_of_le h.low_le
  le_high n hn := Nat.lt_of_le_of_ne (h.le_high n hn) fun he => hhigh (he ▸ hn)
  least j hj := by
    refine h.not_suffices hhigh (fun n u => ?_) j (Nat.le_of_lt_succ hj)
    rw [hm]
    exact nofun
  advanced := by
    rintro ⟨-, n, u, u', hn, hn'⟩
    obtain ⟨rfl, -⟩ := h.occurs.unique hn
    obtain ⟨rfl, -⟩ := (h.occurs.next hm).unique hn'
    exact Nat.lt_irrefl _ hq

/-- An occurrence more than have to come that does not advance is the last one. -/
theorem enough_of_stays (hhigh : high? ≠ some k) (hk : 1 ≤ k) (hm : occurrence skip r k q t = .done (.matched q) t') :
    IsLeast {k | Suffices skip r p s low high? k} (k + 1) := by
  have hlow := h.low_le
  refine ⟨⟨by omega, .inr (.inr ⟨by omega, q, t, t', h.occurs, h.occurs.next hm⟩)⟩, fun j hj => ?_⟩
  refine Nat.lt_of_not_le fun hle => h.not_suffices hhigh (fun n u => ?_) j hle hj
  rw [hm]
  exact nofun

theorem stopped (hhigh : high? ≠ some k) (hm : occurrence skip r k q t = o) (ho : ∀ m u, o ≠ .done m u) :
    Repeats skip r p s low high? o :=
  .stopped h.occurs hm ho (h.not_suffices hhigh fun n u => by rw [hm]; exact ho _ u)

end Pending

namespace Repeats

theorem attempt (h : Repeats skip r p s low high? o) :
    Repeats skip r p s low high? ((o.leave (State.rollBack s.mark)).mapMatch (Match.whole p)) := by
  cases h with
  | matched h hk ht => exact .matched h hk ht
  | failed hk h ht =>
      simp only [Outcome.leave, Outcome.mapMatch, ht.rollBack_eq]
      exact .failed hk h ht
  | stopped h hm ho hk =>
      rw [Outcome.leave_eq_self ho, Outcome.mapMatch_eq_self ho]
      exact .stopped h hm ho hk

theorem optional (h : Repeats skip r p s 0 high? o) : Repeats skip r p s 0 high? (o.mapMatch (Match.orNothing p)) := by
  cases h with
  | matched h hk ht => exact .matched h hk ht
  | failed hk => exact absurd hk (Nat.not_lt_zero _)
  | stopped h hm ho hk =>
      rw [Outcome.mapMatch_eq_self ho]
      exact .stopped h hm ho hk

/-- The loop goes on from there, occurrence by occurrence. -/
theorem loop (hf : (skip.andThen r).Framed x) {n : Nat} (h : Pending skip r p s low high? (k + 1) q t)
    (hq : q ≤ x.size) (hn : x.size < q + n) :
    Repeats skip r p s low high? ((skip.andThen r).attempt.loop n (high?.map (· - (k + 1))) q t) := by
  induction n generalizing k q t with
  | zero => omega
  | succ n ih =>
      rw [Recogniser.loop]
      by_cases hroom : high?.map (· - (k + 1)) = some 0
      · rw [if_pos hroom]
        obtain ⟨n, hn, hz⟩ := Option.map_eq_some_iff.mp hroom
        have hle := h.le_high n hn
        have hk : n = k + 1 := by omega
        exact .matched h.occurs (h.enough (.inl (hk ▸ hn))) (.refl t)
      · rw [if_neg hroom]
        have hhigh : high? ≠ some (k + 1) := fun he => hroom (by rw [he, Option.map_some, Nat.sub_self])
        have hattempt : (skip.andThen r).attempt q t =
            (((skip.andThen r) q t).leave (State.rollBack t.mark)).mapMatch (Match.whole q) := rfl
        rw [hattempt]
        rcases hm : (skip.andThen r) q t with ⟨q' | q', t'⟩ | ⟨e, u⟩ | _
        · obtain ⟨-, hreach⟩ := hf hm
          have hq' := hreach q' rfl
          dsimp only [Outcome.leave, Outcome.mapMatch, Match.whole, State.rollBack]
          split
          next hle =>
            obtain rfl : q = q' := Nat.le_antisymm hq'.1 hle
            exact .matched (h.occurs.next hm) (h.enough_of_stays hhigh (Nat.succ_pos k) hm) (.refl t')
          next hlt =>
            have hnext := ih (h.next hhigh hm (by omega)) (hq'.2 hq) (by omega)
            have hroom' : (high?.map (· - (k + 1))).map (· - 1) = high?.map (· - (k + 1 + 1)) := by
              rw [Option.map_map]
              rfl
            rw [hroom']
            exact hnext
        · exact .matched h.occurs (h.enough (.inr ⟨q, t, q', t', h.occurs, hm⟩)) ((hf hm).1.rollBack q')
        · exact h.stopped hhigh hm (Outcome.raised_ne_done e u)
        · exact h.stopped hhigh hm Outcome.exhausted_ne_done

/-- The greedy part goes on behind the occurrences that have to come, or behind the first one. -/
theorem greedily (hf : (skip.andThen r).Framed x) (hp : p ≤ x.size)
    (h : Pending skip r p s low high? (k + 1) q t) (hq : x.Reaches p q) :
    Repeats skip r p s low high? (x.greedilyAfter skip r high? (k + 1) q t) := by
  have hsize := hq.2 hp
  rw [x.greedilyAfter_eq_loop]
  exact loop hf h hsize (by omega)

/-- None has to come. -/
theorem anyNumber (hf : (skip.andThen r).Framed x) (hr : r.Tidy x) (hp : p ≤ x.size)
    (hhigh : ∀ n, high? = some n → 1 ≤ n ∧ 0 ≤ n) (s : State) :
    Repeats skip r p s 0 high? ((r.andThen (x.greedilyAfter skip r high? 1)).optional.attempt p s) := by
  have hzero : high? ≠ some 0 := fun h => Nat.not_succ_le_zero 0 (hhigh 0 h).1
  have hstart : Pending skip r p s 0 high? 0 p s := {
    occurs := .start
    low_le := Nat.le_refl 0
    le_high := fun n _ => Nat.zero_le n
    least := fun j hj => absurd hj (Nat.not_lt_zero j)
    advanced := fun h => Nat.not_lt_zero _ h.1 }
  refine attempt (o := (r.andThen (x.greedilyAfter skip r high? 1)).optional p s) ?_
  rw [Recogniser.optional, Recogniser.andThen]
  rcases hm : r p s with ⟨q | q, t⟩ | ⟨e, u⟩ | _
  · exact (greedily hf hp (.of_occurs (Occurs.start.next hm) rfl hhigh) ((hr.framed hm).2 q rfl)).optional
  · exact .matched .start (hstart.enough (.inr ⟨p, s, q, t, .start, hm⟩)) (hr.restores hm)
  · exact hstart.stopped hzero hm (Outcome.raised_ne_done e u)
  · exact hstart.stopped hzero hm Outcome.exhausted_ne_done

/-- Some have to come. -/
theorem someNumber (hs : skip.Framed x) (hr : r.Framed x) (hp : p ≤ x.size) {n : Nat}
    (hhigh : ∀ h, high? = some h → 1 ≤ h ∧ n + 1 ≤ h) (s : State) :
    Repeats skip r p s (n + 1) high?
      (((r.andThen (.further skip r n)).andThen (x.greedilyAfter skip r high? (n + 1))).attempt p s) := by
  have hc := ComesTo.first skip r p s n
  simp only [Recogniser.attempt, Recogniser.andThen] at hc ⊢
  generalize (r p s).andThen (Recogniser.further skip r n) = o at hc ⊢
  cases hc with
  | matched h =>
      have hk : n + 1 = max (n + 1) 1 := (Nat.max_eq_left (Nat.succ_pos n)).symm
      exact (greedily (hs.andThen hr) hp (.of_occurs h hk hhigh) (h.grows hs hr).2).attempt
  | @failed j q t q' t' hj h hm =>
      have hg := (h.grows hs hr).1.trans (framed_occurrence hs hr j hm).1
      exact .failed hj ⟨q, t, q', t', h, hm⟩ (hg.rollBack q')
  | raised hj h hm =>
      exact .stopped h hm (Outcome.raised_ne_done _ _) fun i hi => not_suffices_of_lt (Nat.lt_of_le_of_lt hi hj)
  | exhausted hj h hm =>
      exact .stopped h hm Outcome.exhausted_ne_done fun i hi => not_suffices_of_lt (Nat.lt_of_le_of_lt hi hj)

theorem counted (hs : skip.Framed x) (hr : r.Tidy x) (hp : p ≤ x.size)
    (hhigh : ∀ n, high? = some n → 1 ≤ n ∧ low ≤ n) (s : State) :
    Repeats skip r p s low high? (x.counted skip r low high? p s) := by
  have hzero : high? ≠ some 0 := fun h => Nat.not_succ_le_zero 0 (hhigh 0 h).1
  unfold Subject.counted
  rw [if_neg hzero]
  cases low with
  | zero => exact anyNumber (hs.andThen hr.framed) hr hp hhigh s
  | succ n => exact someNumber hs hr.framed hp hhigh s

theorem failed_iff (h : Repeats skip r p s low high? o) :
    (∃ q t, o = .done (.failed q) t) ↔ ∃ k < low, FailsBehind skip r p s k := by
  constructor
  · rintro ⟨q, t, rfl⟩
    cases h with
    | failed hk h ht => exact ⟨_, hk, h⟩
    | stopped h hm ho hj => exact absurd rfl (ho _ _)
  · rintro ⟨k, hk, hf⟩
    cases h with
    | matched h hj ht => exact absurd (Nat.le_trans hj.1.1 (h.le_of_failsBehind hf)) (Nat.not_le_of_lt hk)
    | failed hj h ht => exact ⟨p, _, rfl⟩
    | stopped h hm ho hj => exact absurd hf (h.not_failsBehind_of_stops (hm ▸ ho) k)

theorem of_matched (h : Repeats skip r p s low high? (.done (.matched q) t')) :
    ∃ k t, IsLeast {k | Suffices skip r p s low high? k} k ∧ Occurs skip r p s k q t ∧ t.Restores t' := by
  cases h with
  | matched h hk ht => exact ⟨_, _, hk, h, ht⟩
  | stopped h hm ho hj => exact absurd rfl (ho _ _)

theorem matches_of_isLeast (h : Repeats skip r p s low high? o) (hk : IsLeast {k | Suffices skip r p s low high? k} k)
    (ho : Occurs skip r p s k q t) : ∃ t', o = .done (.matched q) t' ∧ t.Restores t' := by
  cases h with
  | matched h hj ht =>
      obtain rfl := hj.unique hk
      obtain ⟨rfl, rfl⟩ := h.unique ho
      exact ⟨_, rfl, ht⟩
  | failed hj h ht => exact absurd (Nat.le_trans hk.1.1 (ho.le_of_failsBehind h)) (Nat.not_le_of_lt hj)
  | stopped h hm hn hj =>
      have hle := ho.le_of_not_matched h fun n u => by rw [hm]; exact hn _ u
      exact absurd hk.1 (hj k hle)

/-- What stops an occurrence short stops the repetition, unless there were enough by then. -/
theorem stops_iff {o' : Outcome State} (h : Repeats skip r p s low high? o) (ho : ∀ m u, o' ≠ .done m u) :
    o = o' ↔ ∃ k q t, Occurs skip r p s k q t ∧ occurrence skip r k q t = o' ∧
      ∀ j ≤ k, ¬Suffices skip r p s low high? j := by
  constructor
  · rintro rfl
    cases h with
    | matched | failed => exact absurd rfl (ho _ _)
    | stopped h hm _ hk => exact ⟨_, _, _, h, hm, hk⟩
  · rintro ⟨k, q, t, hk, rfl, hj⟩
    have hn : ∀ n u, occurrence skip r k q t ≠ .done (.matched n) u := fun n u => ho _ u
    cases h with
    | matched h hi ht => exact absurd hi.1 (hj _ (h.le_of_not_matched hk hn))
    | failed hi h ht => exact absurd h (hk.not_failsBehind_of_stops ho _)
    | stopped h he hd hi => exact he.symm.trans (h.last_unique hk (fun n u => by rw [he]; exact hd _ u) hn)

end Repeats

/-- When as many have come as are allowed, no more are tried. -/
theorem greedilyAfter_of_full (x : Subject) (skip r : Recogniser) (n : Nat) (hq : q ≤ x.size) (t : State) :
    x.greedilyAfter skip r (some n) n q t = .done (.matched q) t := by
  have hsize : x.size + 1 - q = (x.size - q) + 1 := by omega
  rw [Subject.greedilyAfter, hsize, greedily, Option.map_some, Nat.sub_self, if_pos rfl]

theorem counted_exactly {n : Nat} (hf : (r.andThen (further skip r n)).Framed x) (hp : p ≤ x.size) (s : State) :
    x.counted skip r (n + 1) (some (n + 1)) p s = (r.andThen (further skip r n)).attempt p s := by
  have hn : ((r.andThen (further skip r n)).andThen (x.greedilyAfter skip r (some (n + 1)) (n + 1))) p s =
      r.andThen (further skip r n) p s := by
    rw [andThen]
    rcases hm : r.andThen (further skip r n) p s with ⟨q | q, t⟩ | ⟨e, t⟩ | _
    · exact greedilyAfter_of_full x skip r (n + 1) (((hf hm).2 q rfl).2 hp) t
    · rfl
    · rfl
    · rfl
  unfold Subject.counted
  simp only [if_neg fun h => Nat.succ_ne_zero n (Option.some.inj h), attempt, hn]

end Recogniser

namespace Expr

open Recogniser

/-- A repetition fails where an occurrence fails that has to come, and only there. Else it takes the least number of
occurrences that is enough: it ends where the last one of them ends and leaves what that one leaves, but for the
record of failures. What stops an occurrence short before there are enough stops the repetition. Where none are
allowed, nothing is tried. -/
theorem counted_takes_least (e : Expr) (g : Grammar) (x : Subject) (depth : Nat) {low : Nat} {high? : Option Nat}
    (hhigh : ∀ n, high? = some n → 1 ≤ n ∧ low ≤ n) {p : Nat} (hp : p ≤ x.size) (s : State) :
    let skip := g.separators x (g.caller x depth)
    let r := e.run g x (g.caller x depth)
    let o := x.counted skip r low high? p s
    ((∃ q t, o = .done (.failed q) t) ↔ ∃ k < low, FailsBehind skip r p s k) ∧
      (∀ q t', o = .done (.matched q) t' →
        ∃ k t, IsLeast {k | Suffices skip r p s low high? k} k ∧ Occurs skip r p s k q t ∧ t.Restores t') ∧
      (∀ k q t, IsLeast {k | Suffices skip r p s low high? k} k → Occurs skip r p s k q t →
        ∃ t', o = .done (.matched q) t' ∧ t.Restores t') ∧
      (∀ o' : Outcome State, (∀ m t, o' ≠ .done m t) → (o = o' ↔ ∃ k q t, Occurs skip r p s k q t ∧
        occurrence skip r k q t = o' ∧ ∀ j ≤ k, ¬Suffices skip r p s low high? j)) ∧
      ∀ r' n, x.counted skip r' n (some 0) p s = .done (.matched p) s := by
  intro skip r o
  have hc := g.tidy_caller x depth
  have h : Repeats skip r p s low high? o :=
    .counted (Grammar.sure_separators hc).tidy.framed (e.tidy_run g x depth) hp hhigh s
  refine ⟨h.failed_iff, ?_, fun k q t hk ho => h.matches_of_isLeast hk ho, fun o' ho => h.stops_iff ho, ?_⟩
  · intro q t' ho
    rw [ho] at h
    exact h.of_matched
  · intro r' n
    unfold Subject.counted
    rw [if_pos rfl]
    rfl

/-- A letter up to three times with blanks between. The blank that goes before no letter is not taken. -/
theorem counted_takes_least_spaced :
    let g : Grammar := ⟨[.written "whitespace" .silent (.written " ")], by decide, by decide, by decide⟩
    let x := Subject.ofOctets (ascii "a a b")
    let skip := g.separators x (g.caller x 1)
    let r := (Expr.written "a").run g x (g.caller x 1)
    (∀ n, some 3 = some n → 1 ≤ n ∧ 1 ≤ n) ∧ 0 ≤ x.size ∧
      x.counted skip r 1 (some 3) 0 {} = .done (.matched 3) { furthest := 4 } ∧
      ∃ k t, IsLeast {k | Suffices skip r 0 {} 1 (some 3) k} k ∧ Occurs skip r 0 {} k 3 t ∧
        t.Restores { furthest := 4 } := by
  intro g x skip r
  have hhigh : ∀ n, some 3 = some n → 1 ≤ n ∧ 1 ≤ n := fun n h => by cases h; decide
  have hrun : x.counted skip r 1 (some 3) 0 {} = .done (.matched 3) { furthest := 4 } := by decide +kernel
  exact ⟨hhigh, Nat.zero_le _, hrun,
    ((Expr.written "a").counted_takes_least g x 1 hhigh (Nat.zero_le _) {}).2.1 3 _ hrun⟩

section Unrolling

variable {g : Grammar} {x : Subject} {call : Caller} (h : ∀ name, (call name).Tidy x)

include h

theorem framed_further (e : Expr) (n : Nat) : (further (g.separators x call) (e.run g x call) n).Framed x := by
  rw [← Task.run_further]
  exact Task.framed_run h _

theorem reports_further (e : Expr) (n : Nat) : (further (g.separators x call) (e.run g x call) n).Reports := by
  have hs := Grammar.sure_separators (g := g) h
  have he := (Task.tidy_expr (g := g) h e).framed
  have hr := hs.reports.andThen hs.tidy.framed (reports_run (g := g) h e)
  induction n with
  | zero => exact fun p s q t hd => by cases hd
  | succ n ih => exact hr.andThen (hs.tidy.framed.andThen he) ih

/-- Nested to the right, a part and more of the same are as good as one whole. -/
theorem run_seqAll_replicate (e : Expr) (n : Nat) :
    (seqAll e (List.replicate n e)).run g x call =
      ((e.run g x call).andThen (further (g.separators x call) (e.run g x call) n)).attempt.noted := by
  have hs := (Grammar.sure_separators (g := g) h).tidy.framed
  have he := Task.tidy_expr (g := g) h e
  induction n with
  | zero =>
      obtain ⟨r, hr⟩ := e.exists_run_eq_noted g x call
      rw [further, andThen_nothing, attempt_eq he, hr, noted_noted]
      exact hr
  | succ n ih =>
      have hn := he.framed.andThen (framed_further (g := g) h e n)
      have hreports := (reports_run (g := g) h e).andThen he.framed (reports_further (g := g) h e n)
      have hright := attempt_andThen_right (he.framed.andThen hs) hn hreports
      rw [← ih, andThen_assoc, andThen_assoc, ← andThen_assoc (g.separators x call)] at hright
      exact hright

end Unrolling

/-- As many as one says come to the same as that many written out in a sequence, and leave the same state. -/
theorem run_exactly (e : Expr) (g : Grammar) (x : Subject) (depth : Nat) {n : Nat} (hn : 1 ≤ n) {p : Nat}
    (hp : p ≤ x.size) (s : State) :
    (repeated (.exactly n) e).run g x (g.caller x depth) p s =
      (seqAll e (List.replicate (n - 1) e)).run g x (g.caller x depth) p s := by
  have hc := g.tidy_caller x depth
  obtain ⟨k, rfl⟩ := Nat.exists_eq_succ_of_ne_zero (Nat.ne_of_gt hn)
  have hf := (e.tidy_run g x depth).framed.andThen (framed_further (g := g) hc e k)
  rw [Nat.succ_sub_one, run_seqAll_replicate hc, run, noted, noted]
  exact congrArg (Outcome.leave · State.note) (counted_exactly hf hp s)

/-- Three captures with blanks between. The parts come to the whole when they are there, and when the last is not. -/
theorem run_exactly_captures :
    let g : Grammar := ⟨[.written "whitespace" .normal (.written " ")], by decide, by decide, by decide⟩
    let e : Expr := .capture (.written "a")
    let x := Subject.ofOctets (ascii "a aaab")
    1 ≤ 3 ∧ 0 ≤ x.size ∧ 3 ≤ x.size ∧
      (repeated (.exactly 3) e).run g x (g.caller x 2) 0 {} = (seqAll e [e, e]).run g x (g.caller x 2) 0 {} ∧
      (repeated (.exactly 3) e).run g x (g.caller x 2) 3 {} = (seqAll e [e, e]).run g x (g.caller x 2) 3 {} :=
  ⟨by decide, by decide, by decide, run_exactly _ _ _ _ (by decide) (by decide) _,
    run_exactly _ _ _ _ (by decide) (by decide) _⟩

end Expr

end Peg
