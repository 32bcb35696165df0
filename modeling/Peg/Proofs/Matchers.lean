import Peg.Match

namespace Peg

theorem Utf8.foldedPrefixAtMost_le {n k : Nat} {s t : Octets} (h : foldedPrefixAtMost n s t = some k) :
    k ≤ s.length := by
  induction n generalizing s t k with
  | zero =>
      cases t with
      | nil =>
          simp only [foldedPrefixAtMost, Option.some.injEq] at h
          omega
      | cons d t => simp only [foldedPrefixAtMost, reduceCtorEq] at h
  | succ n ih =>
      cases t with
      | nil =>
          simp only [foldedPrefixAtMost, Option.some.injEq] at h
          omega
      | cons d t =>
          cases s with
          | nil => simp only [foldedPrefixAtMost, reduceCtorEq] at h
          | cons c s =>
              simp only [foldedPrefixAtMost] at h
              split at h
              · obtain ⟨j, hj, rfl⟩ := Option.map_eq_some_iff.mp h
                have hle := ih hj
                have hd := size_decode_le (c :: s)
                rw [List.length_drop] at hle
                omega
              · cases h

theorem firstOccurrence?_le {t s : Octets} {n : Nat} (h : firstOccurrence? t s = some n) :
    n ≤ s.length := by
  induction s generalizing n with
  | nil =>
      simp only [firstOccurrence?] at h
      split at h
      · cases h
        exact Nat.le_refl _
      · cases h
  | cons c rest ih =>
      simp only [firstOccurrence?] at h
      split at h
      · cases h
        exact Nat.zero_le _
      · obtain ⟨k, hk, rfl⟩ := Option.map_eq_some_iff.mp h
        exact Nat.succ_le_succ (ih hk)

namespace Subject

variable (x : Subject)

theorem length_after (p : Nat) : (x.after p).length = x.size - p := by
  rw [x.after_eq, List.length_drop, x.size_eq]

/-- From the first offset a match may end at the second: not before, and inside the subject. -/
def Reaches (p q : Nat) : Prop := p ≤ q ∧ (p ≤ x.size → q ≤ x.size)

/-- Such a matcher fails where it began or moves on within the subject. -/
def Forward (w : Matcher) : Prop := ∀ p, w p = .failed p ∨ ∃ n, n ≤ x.size - p ∧ w p = .matched (p + n)

variable {x}

theorem Reaches.refl (p : Nat) : x.Reaches p p := ⟨Nat.le_refl p, id⟩

theorem Reaches.trans {p q r : Nat} (h : x.Reaches p q) (h' : x.Reaches q r) : x.Reaches p r :=
  ⟨Nat.le_trans h.1 h'.1, fun hp => h'.2 (h.2 hp)⟩

theorem Forward.eq_of_failed {w : Matcher} (h : x.Forward w) {p q : Nat} (hw : w p = .failed q) : q = p := by
  rcases h p with hf | ⟨n, _, hm⟩
  · rw [hf] at hw
    cases hw
    rfl
  · rw [hm] at hw
    cases hw

theorem Forward.reaches {w : Matcher} (h : x.Forward w) {p q : Nat} (hw : w p = .matched q) : x.Reaches p q := by
  rcases h p with hf | ⟨n, hn, hm⟩
  · rw [hf] at hw
    cases hw
  · rw [hm] at hw
    cases hw
    exact ⟨Nat.le_add_right _ _, fun hp => by omega⟩

variable (x)

theorem forward_text (t : Octets) : x.Forward (x.text t) := by
  intro p
  simp only [text]
  split
  · rename_i h
    have hl := (List.isPrefixOf_iff_prefix.mp h).length_le
    rw [length_after] at hl
    exact Or.inr ⟨_, hl, rfl⟩
  · exact Or.inl rfl

theorem slice_add (p n : Nat) : x.slice ⟨p, p + n⟩ = (x.after p).take n := by
  rw [slice, if_pos (Nat.le_add_right p n), Nat.add_sub_cancel_left]

theorem text_eq_matched {t : Octets} {p q : Nat} : x.text t p = .matched q ↔ t <+: x.after p ∧ q = p + t.length := by
  rw [text, ← List.isPrefixOf_iff_prefix]
  split
  · rename_i h
    rw [Match.matched.injEq, eq_comm, and_iff_right h]
  · rename_i h
    exact ⟨nofun, fun hm => absurd hm.1 h⟩

theorem slice_of_text {t : Octets} {p q : Nat} (h : x.text t p = .matched q) : x.slice ⟨p, q⟩ = t := by
  obtain ⟨⟨s, hs⟩, rfl⟩ := x.text_eq_matched.mp h
  rw [slice_add, ← hs, List.take_left]

theorem forward_foldedText (t : Octets) : x.Forward (x.foldedText t) := by
  intro p
  simp only [foldedText]
  split
  · rename_i n h
    have hl := Utf8.foldedPrefixAtMost_le h
    rw [length_after] at hl
    exact Or.inr ⟨n, hl, rfl⟩
  · exact Or.inl rfl

theorem forward_runeIn (low high : Rune) : x.Forward (x.runeIn low high) := by
  intro p
  simp only [runeIn]
  split
  · exact Or.inl rfl
  · rename_i c rest h
    have hl := Utf8.size_decode_le (c :: rest)
    rw [← h, length_after] at hl
    split
    · exact Or.inr ⟨_, h ▸ hl, rfl⟩
    · exact Or.inl rfl

theorem forward?_eq_some {n p q : Nat} (h : x.forward? n p = some q) : ∃ k, k ≤ x.size - p ∧ q = p + k := by
  induction n generalizing p with
  | zero =>
      cases h
      exact ⟨0, Nat.zero_le _, rfl⟩
  | succ n ih =>
      simp only [forward?] at h
      split at h
      · cases h
      · rename_i c rest hc
        have hl := Utf8.size_decode_le (c :: rest)
        rw [← hc, length_after] at hl
        rw [← hc] at h
        obtain ⟨k, hk, rfl⟩ := ih h
        exact ⟨(Utf8.decode (x.after p)).size + k, by omega, by omega⟩

theorem forward_skip (n : Nat) : x.Forward (x.skip n) := by
  intro p
  simp only [skip]
  split
  · rename_i q h
    obtain ⟨k, hk, rfl⟩ := x.forward?_eq_some h
    exact Or.inr ⟨k, hk, rfl⟩
  · exact Or.inl rfl

theorem forward_skipUntil (t : Octets) : x.Forward (x.skipUntil t) := by
  intro p
  simp only [skipUntil]
  split
  · rename_i n h
    have hl := firstOccurrence?_le h
    rw [length_after] at hl
    exact Or.inr ⟨n, hl, rfl⟩
  · exact Or.inl rfl

theorem forward_atStart : x.Forward atStart := by
  intro p
  simp only [atStart]
  split
  · exact Or.inr ⟨0, Nat.zero_le _, rfl⟩
  · exact Or.inl rfl

theorem forward_atEnd : x.Forward x.atEnd := by
  intro p
  simp only [atEnd]
  split
  · exact Or.inr ⟨0, Nat.zero_le _, rfl⟩
  · exact Or.inl rfl

/-- What came first stays in the lead until something ends before it. -/
theorem foldl_closer_eq_matched {us : List Octets} {p q : Nat} {a : Match} :
    us.foldl (fun m u => m.closer (x.skipUntil u p)) a = .matched q ↔
      (a = .matched q ∨ ∃ u ∈ us, x.skipUntil u p = .matched q) ∧ (∀ r, a = .matched r → q ≤ r) ∧
        ∀ u ∈ us, ∀ r, x.skipUntil u p = .matched r → q ≤ r := by
  induction us generalizing a with
  | nil =>
      simp only [List.foldl_nil, List.not_mem_nil, false_and, exists_false, or_false, false_implies,
        implies_true, and_true, iff_self_and]
      intro h r hr
      rw [h] at hr
      cases hr
      exact Nat.le_refl _
  | cons u us ih =>
      rw [List.foldl_cons, ih]
      simp only [List.mem_cons, exists_eq_or_imp, forall_eq_or_imp]
      cases a with
      | failed k =>
          cases hb : x.skipUntil u p with
          | failed j => simp only [Match.closer, reduceCtorEq, false_or, false_implies, implies_true, true_and]
          | matched j => simp only [Match.closer, reduceCtorEq, false_or, false_implies, implies_true, true_and]
      | matched k =>
          cases hb : x.skipUntil u p with
          | failed j => simp only [Match.closer, reduceCtorEq, false_or, false_implies, implies_true, true_and]
          | matched j =>
              simp only [Match.closer]
              split <;> grind

theorem foldl_closer_eq_failed {us : List Octets} {p q : Nat} {a : Match} :
    us.foldl (fun m u => m.closer (x.skipUntil u p)) a = .failed q ↔
      a = .failed q ∧ ∀ u ∈ us, ∃ r, x.skipUntil u p = .failed r := by
  induction us generalizing a with
  | nil => simp only [List.foldl_nil, List.not_mem_nil, false_implies, implies_true, and_true]
  | cons u us ih =>
      rw [List.foldl_cons, ih, List.forall_mem_cons, ← and_assoc]
      refine and_congr_left fun _ => ?_
      cases a <;> cases x.skipUntil u p <;> simp only [Match.closer] <;> grind

theorem skipUntilAny_eq_matched {t : Octets} {ts : List Octets} {p q : Nat} :
    x.skipUntilAny t ts p = .matched q ↔ (∃ u ∈ t :: ts, x.skipUntil u p = .matched q) ∧
      ∀ u ∈ t :: ts, ∀ r, x.skipUntil u p = .matched r → q ≤ r := by
  rw [skipUntilAny, foldl_closer_eq_matched]
  simp only [List.mem_cons, exists_eq_or_imp, forall_eq_or_imp]

theorem skipUntilAny_eq_failed {t : Octets} {ts : List Octets} {p : Nat} :
    x.skipUntilAny t ts p = .failed p ↔ ∀ u ∈ t :: ts, ∃ r, x.skipUntil u p = .failed r := by
  rw [skipUntilAny, foldl_closer_eq_failed, List.forall_mem_cons]
  refine and_congr_left fun _ => ⟨fun h => ⟨p, h⟩, fun ⟨r, h⟩ => ?_⟩
  have hr := (x.forward_skipUntil t).eq_of_failed h
  rw [h, hr]

theorem forward_skipUntilAny (t : Octets) (ts : List Octets) : x.Forward (x.skipUntilAny t ts) := by
  intro p
  cases h : x.skipUntilAny t ts p with
  | failed q =>
      have hq := (x.forward_skipUntil t).eq_of_failed (x.foldl_closer_eq_failed.mp h).1
      rw [hq]
      exact Or.inl rfl
  | matched q =>
      obtain ⟨⟨u, _, hu⟩, _⟩ := x.skipUntilAny_eq_matched.mp h
      rcases x.forward_skipUntil u p with hf | ⟨n, hn, hm⟩
      · rw [hf] at hu
        cases hu
      · rw [hm] at hu
        cases hu
        exact Or.inr ⟨n, hn, rfl⟩

end Subject

end Peg
