import Mathlib
import Peg.Proofs.Inversion
import Peg.Proofs.Prefixes

/-! The languages that the parts of a grammar spell in texts of characters. -/

namespace Peg

open Computability

namespace Task

/-- In a text of fewer than `bound` characters, whatever the task matches is in the language. -/
def Spells (g : Grammar) (m : Atomicity) (t : Task) (bound : Nat) (L : Language Char) : Prop :=
  ∀ ⦃x p c q c' f s⦄, x.Holds p s → s.length < bound → Eval g x m t p c (.ok q c' f) →
    ∃ v ∈ L, ∃ w, s = v ++ w ∧ x.Holds q w

variable {g : Grammar} {m : Atomicity} {t u : Task} {d e : Expr} {l : Literal} {r : RuneRange} {name : Octets}
  {v w : List Char} {n : Nat} {L M S : Language Char}

theorem Spells.mono (h : t.Spells g m n L) (hL : L ≤ M) : t.Spells g m n M := by
  intro x p c q c' f s hs hn he
  obtain ⟨v, hv, hw⟩ := h hs hn he
  exact ⟨v, hL hv, hw⟩

theorem Spells.le (h : t.Spells g m n L) {k : Nat} (hk : k ≤ n) : t.Spells g m k L :=
  fun _ _ _ _ _ _ _ hs hn he => h hs (Nat.lt_of_lt_of_le hn hk) he

/-- A match that stays where it is matches nothing. -/
theorem spells_one (h : ∀ {x p c q c' f}, Eval g x m t p c (.ok q c' f) → q = p) : t.Spells g m n 1 := by
  intro x p c q c' f s hs _ he
  cases h he
  exact ⟨[], rfl, s, rfl, hs⟩

theorem spells_nothing : (Task.nothing).Spells g m n 1 := spells_one fun h => by cases h; rfl

theorem spells_skip_nothing (hm : m ≠ .nonAtomic) : Task.skip.Spells g m n 1 := by
  refine spells_one fun h => ?_
  cases h with
  | skip_nothing => rfl
  | skip => exact absurd rfl hm

theorem Spells.skip (h : g.gapTask.Spells g .nonAtomic n L) : Task.skip.Spells g .nonAtomic n L := by
  intro x p c q c' f s hs hn he
  cases he with
  | skip_nothing hm => exact absurd rfl hm
  | skip he => exact h hs hn he

/-- What the first part takes is not there for the second one. -/
theorem Spells.both_within (ht : t.Spells g m n L) (hu : ∀ v ∈ L, u.Spells g m (n - v.length) M) :
    (Task.both t u).Spells g m n (L * M) := by
  intro x p c q c' f s hs hn he
  obtain ⟨r, c₁, f₁, f₂, -, he₁, he₂⟩ := he.of_both
  obtain ⟨v, hv, w, rfl, hw⟩ := ht hs hn he₁
  rw [List.length_append] at hn
  obtain ⟨v', hv', w', rfl, hw'⟩ := hu v hv hw (by omega) he₂
  exact ⟨v ++ v', Language.append_mem_mul hv hv', w', (List.append_assoc v v' w').symm, hw'⟩

theorem Spells.both (ht : t.Spells g m n L) (hu : u.Spells g m n M) : (Task.both t u).Spells g m n (L * M) :=
  ht.both_within fun v _ => hu.le (Nat.sub_le n v.length)

/-- Behind something that takes a character there is less to match. -/
theorem Spells.both_behind (ht : t.Spells g m (n + 1) L) (hL : [] ∉ L) (hu : u.Spells g m n M) :
    (Task.both t u).Spells g m (n + 1) (L * M) := by
  refine ht.both_within fun v hv => hu.le ?_
  have hpos : 0 < v.length := List.length_pos_of_ne_nil fun h => hL (h ▸ hv)
  omega

theorem Spells.many (h : t.Spells g m n L) (room : Option Nat) : (Task.many room t).Spells g m n L∗ := by
  intro x p c q c' f s hs hn he
  induction hk : s.length using Nat.strong_induction_on generalizing p c q c' f s room with
  | _ k ih =>
      subst hk
      rcases he.of_many with ⟨rfl, -⟩ | he | ⟨r, c₁, f₁, f₂, -, he, hr, hmore⟩
      · exact ⟨[], Language.nil_mem_kstar L, s, rfl, hs⟩
      · obtain ⟨v, hv, hw⟩ := h hs hn he
        exact ⟨v, (le_kstar : L ≤ L∗) hv, hw⟩
      · obtain ⟨v, hv, w, rfl, hw⟩ := h hs hn he
        have hpos := hs.length_pos hw hr
        rw [List.length_append] at hn ih
        obtain ⟨v', hv', w', rfl, hw'⟩ := ih _ (by omega) _ hw (by omega) hmore rfl
        have hstar : v ++ v' ∈ L∗ := (mul_kstar_le_kstar : L * L∗ ≤ L∗) (Language.append_mem_mul hv hv')
        exact ⟨v ++ v', hstar, w', (List.append_assoc v v' w').symm, hw'⟩

theorem spells_many_full : (Task.many (some 0) t).Spells g m n 1 := by
  refine spells_one fun {x p c q c' f} h => ?_
  generalize ha : Answer.ok q c' f = a at h
  cases h with
  | many_full =>
      cases ha
      rfl
  | many_failed hr | many_error hr | many_last hr | many_more hr => exact absurd rfl hr

theorem Spells.literal (hl : l.text = Utf8.ofChars v) : (Task.expr (.literal l)).Spells g m n {v} := by
  intro x p c q c' f s hs _ he
  generalize ha : Answer.ok q c' f = a at he
  cases he with
  | literal =>
      rw [hl, hs.text] at ha
      split at ha
      · rename_i hp
        obtain ⟨w, rfl⟩ := hp
        cases ha
        exact ⟨v, rfl, w, rfl, hs.drop⟩
      · cases ha

theorem Spells.folded (hl : l.text = Utf8.ofChars w) :
    (Task.expr (.folded l)).Spells g m n {v | v.map (Utf8.fold ·.toNat) = w.map (Utf8.fold ·.toNat)} := by
  intro x p c q c' f s hs _ he
  generalize ha : Answer.ok q c' f = a at he
  cases he with
  | folded =>
      rw [hl, hs.foldedText] at ha
      split at ha
      · rename_i hp
        cases ha
        rw [← List.take_append_drop w.length s] at hs
        exact ⟨_, hp, _, (List.take_append_drop _ _).symm, hs.drop⟩
      · cases ha

theorem Spells.range :
    (Task.expr (.range r)).Spells g m n {v | ∃ a : Char, v = [a] ∧ r.low ≤ a.toNat ∧ a.toNat ≤ r.high} := by
  intro x p c q c' f s hs _ he
  generalize ha : Answer.ok q c' f = a at he
  cases he with
  | range =>
      cases s with
      | nil =>
          rw [hs.runeIn_nil] at ha
          cases ha
      | cons a s =>
          rw [hs.runeIn_cons] at ha
          split at ha
          · rename_i hr
            cases ha
            have hs : x.Holds p ([a] ++ s) := hs
            exact ⟨[a], ⟨a, rfl, hr⟩, s, rfl, hs.drop⟩
          · cases ha

theorem Spells.call {body : Rule} (hb : Builtin.ofName? name = none) (hf : g.find? name = some body)
    (h : (Task.expr body.body).Spells g (body.modeInside m) n L) : (Task.call name).Spells g m n L := by
  intro x p c q c' f s hs hn he
  obtain ⟨f, -, he⟩ := he.of_call hb hf
  exact h hs hn he

theorem Spells.ref (h : (Task.call name).Spells g m n L) : (Task.expr (.ref name)).Spells g m n L := by
  intro x p c q c' f s hs hn he
  exact h hs hn he.of_ref

theorem Spells.choice (hd : (Task.expr d).Spells g m n L) (he : (Task.expr e).Spells g m n M) :
    (Task.expr (.choice d e)).Spells g m n (L + M) := by
  intro x p c q c' f s hs hn h
  rcases h.of_choice with ⟨h, -⟩ | ⟨-, h⟩
  · exact (hd.mono le_self_add) hs hn h
  · exact (he.mono le_add_self) hs hn h

theorem Spells.optional (h : (Task.expr e).Spells g m n L) : (Task.expr (.optional e)).Spells g m n (1 + L) := by
  intro x p c q c' f s hs hn he
  rcases he.of_optional with ⟨rfl, -⟩ | he
  · exact ⟨[], .inl rfl, s, rfl, hs⟩
  · exact (h.mono le_add_self) hs hn he

theorem Spells.seq (hd : (Task.expr d).Spells g m n L) (hs : Task.skip.Spells g m n S)
    (he : (Task.expr e).Spells g m n M) : (Task.expr (.seq d e)).Spells g m n (L * (S * M)) := by
  intro x p c q c' f s hx hn h
  cases h with
  | seq h => exact (hd.both (hs.both he)) hx hn h

theorem Spells.seq_behind (hd : (Task.expr d).Spells g m (n + 1) L) (hL : [] ∉ L) (hs : Task.skip.Spells g m n S)
    (he : (Task.expr e).Spells g m n M) : (Task.expr (.seq d e)).Spells g m (n + 1) (L * (S * M)) := by
  intro x p c q c' f s hx hn h
  cases h with
  | seq h => exact (hd.both_behind hL (hs.both he)) hx hn h

theorem Spells.seq_atomic (hm : m ≠ .nonAtomic) (hd : (Task.expr d).Spells g m n L)
    (he : (Task.expr e).Spells g m n M) : (Task.expr (.seq d e)).Spells g m n (L * M) := by
  have h := hd.seq (spells_skip_nothing hm) he
  rwa [one_mul] at h

/-- What a negative look ahead lets through is not what it looks for. -/
theorem Spells.seq_unless (hm : m ≠ .nonAtomic) (he : (Task.expr e).Spells g m n L)
    (hd : ∀ v ∈ L, v ∉ M → ∀ w, (Task.expr d).Takes g m v w) :
    (Task.expr (.seq (.look .negative d) e)).Spells g m n M := by
  intro x p c q c' f s hs hn h
  obtain ⟨r, c₁, f₁, r', c₂, f₂, f₃, -, hlook, hskip, hrest⟩ := h.of_seq
  obtain ⟨rfl, -, hfail⟩ := hlook.of_look_negative
  obtain ⟨_, rfl, s, rfl, hs'⟩ := (spells_skip_nothing hm) hs hn hskip
  obtain ⟨v, hv, w, rfl, hw⟩ := he hs' hn hrest
  refine ⟨v, ?_, w, rfl, hw⟩
  by_contra hM
  obtain ⟨_, htaken⟩ := hd v hv hM w c hs
  cases htaken.det hfail hs.1

section Repetitions

variable (hs : Task.skip.Spells g m n S) (he : (Task.expr e).Spells g m n L)

include hs he

theorem Spells.further (k : Nat) : (Task.further e k).Spells g m n ((S * L) ^ k) := by
  induction k with
  | zero => exact spells_nothing
  | succ k ih =>
      rw [pow_succ']
      exact (hs.both he).both ih

theorem Spells.oneOrMore : (Task.expr (.oneOrMore e)).Spells g m n (L * (S * L)∗) := by
  intro x p c q c' f s hx hn h
  rcases h.of_repeated with ⟨hmin, -⟩ | h
  · cases hmin
  · have ho := (he.both spells_nothing).both ((hs.both he).many none)
    rw [mul_one] at ho
    exact ho hx hn h

theorem Spells.zeroOrMore : (Task.expr (.zeroOrMore e)).Spells g m n (1 + L * (S * L)∗) := by
  intro x p c q c' f s hx hn h
  rcases h.of_repeated with ⟨-, rfl, -⟩ | h
  · exact ⟨[], .inl rfl, s, rfl, hx⟩
  · have ho := (he.both spells_nothing).both ((hs.both he).many none)
    rw [mul_one] at ho
    exact (ho.mono le_add_self) hx hn h

theorem Spells.exactly (k : Nat) : (Task.expr (.repeated (.exactly (k + 1)) e)).Spells g m n (L * (S * L) ^ k) := by
  intro x p c q c' f s hx hn h
  rcases h.of_repeated with ⟨hmin, -⟩ | h
  · cases hmin
  · have hroom : (some (k + 1)).map (· - max (k + 1) 1) = some 0 := by simp
    have hmany : (Task.many ((some (k + 1)).map (· - max (k + 1) 1)) (.both .skip (.expr e))).Spells g m n 1 := by
      rw [hroom]
      exact spells_many_full
    have ho := (he.both (Spells.further hs he k)).both hmany
    rw [mul_one] at ho
    exact ho hx hn h

omit hs

variable (hm : m ≠ .nonAtomic)

include hm

theorem Spells.oneOrMore_atomic : (Task.expr (.oneOrMore e)).Spells g m n (L * L∗) := by
  simpa only [one_mul] using Spells.oneOrMore (spells_skip_nothing hm) he

theorem Spells.zeroOrMore_atomic : (Task.expr (.zeroOrMore e)).Spells g m n L∗ := by
  simpa only [one_mul, one_add_mul_kstar] using Spells.zeroOrMore (spells_skip_nothing hm) he

theorem Spells.exactly_atomic (k : Nat) :
    (Task.expr (.repeated (.exactly (k + 1)) e)).Spells g m n (L ^ (k + 1)) := by
  simpa only [one_mul, pow_succ'] using Spells.exactly (spells_skip_nothing hm) he k

end Repetitions

end Task

end Peg
