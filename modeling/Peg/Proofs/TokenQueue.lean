import Peg.Proofs.Adequacy

namespace Peg

section Pair

variable {tokens : Array Token} {i j : Nat} {t u : Token}

theorem Pair.rule_eq (ht : tokens[i]? = some t) : (Pair.mk tokens i).rule = t.rule := by
  rw [rule, token?, ht, Option.map_some, Option.getD_some]

theorem Pair.partner_eq (ht : tokens[i]? = some t) : (Pair.mk tokens i).partner = t.partner := by
  rw [partner, token?, ht, Option.map_some, Option.getD_some]

theorem Pair.start_eq (ht : tokens[i]? = some t) : (Pair.mk tokens i).start = t.offset := by
  rw [start, token?, ht, Option.map_some, Option.getD_some]

theorem Pair.stop_eq (ht : tokens[i]? = some t) (hu : tokens[t.partner]? = some u) :
    (Pair.mk tokens i).stop = u.offset := by
  rw [stop, partner_eq ht, hu, Option.map_some, Option.getD_some]

theorem Pairs.mem_flatten_ofTokens {q : Pair} : q ∈ (Pairs.ofTokens tokens).flatten ↔
    ∃ k t, q = ⟨tokens, k⟩ ∧ tokens[k]? = some t ∧ t.edge = .start := by
  simp only [flatten, ofTokens, List.mem_filter, List.mem_map, List.mem_range'_1, decide_eq_true_eq,
    Option.map_eq_some_iff]
  constructor
  · rintro ⟨⟨k, _, rfl⟩, t, ht, he⟩
    exact ⟨k, t, rfl, ht, he⟩
  · rintro ⟨k, t, rfl, ht, he⟩
    have hk := (Array.getElem?_eq_some_iff.mp ht).1
    exact ⟨⟨k, ⟨Nat.zero_le k, by omega⟩, rfl⟩, t, ht, he⟩

namespace Pairs

theorem flatten_append {k : Nat} (hij : i ≤ j) (hjk : j ≤ k) :
    (mk tokens i k).flatten = (mk tokens i j).flatten ++ (mk tokens j k).flatten := by
  have hk : k - i = j - i + (k - j) := by omega
  have hj : i + (j - i) = j := by omega
  have hr := List.range'_append_1 (s := i) (m := j - i) (n := k - j)
  rw [hj, ← hk] at hr
  simp only [flatten, ← hr, List.map_append, List.filter_append]

theorem flatten_start (ht : tokens[i]? = some t) (he : t.edge = .start) :
    (mk tokens i (i + 1)).flatten = [⟨tokens, i⟩] := by
  simp [flatten, Pair.token?, ht, he]

theorem flatten_stop (ht : tokens[i]? = some t) (he : t.edge = .stop) : (mk tokens i (i + 1)).flatten = [] := by
  simp [flatten, Pair.token?, ht, he]

end Pairs

end Pair

namespace Forest

/-- The edges of a forest are found in a queue from the index `i` on. -/
def StandsAt (f : Forest) (tokens : Array Token) (i : Nat) : Prop := f.tokensFrom i <+: tokens.toList.drop i

def spans : Forest → List Span
  | nil => []
  | cons _ span _ next => span :: next.spans

variable {rule : Octets} {span : Span} {f inner next : Forest} {tokens : Array Token} {i k low high : Nat}
  {t u : Token}

theorem getElem?_of_prefix_drop {l : List Token} (h : t :: l <+: tokens.toList.drop i) :
    tokens[i]? = some t ∧ l <+: tokens.toList.drop (i + 1) := by
  obtain ⟨r, hr⟩ := h
  rw [List.cons_append] at hr
  constructor
  · rw [← Array.getElem?_toList, ← List.head?_drop, ← hr, List.head?_cons]
  · rw [← List.tail_drop, ← hr, List.tail_cons]
    exact List.prefix_append l r

theorem prefix_drop_of_append {l l' : List Token} (h : l ++ l' <+: tokens.toList.drop i) :
    l <+: tokens.toList.drop i ∧ l' <+: tokens.toList.drop (i + l.length) := by
  obtain ⟨r, hr⟩ := h
  rw [List.append_assoc] at hr
  constructor
  · exact ⟨l' ++ r, hr⟩
  · rw [← List.drop_drop, ← hr, List.drop_left]
    exact List.prefix_append l' r

theorem standsAt_zero (h : tokens.toList = f.tokens) : f.StandsAt tokens 0 := by
  rw [StandsAt, List.drop_zero, h]
  exact List.prefix_refl _

theorem size_eq_of_tokens (h : tokens.toList = f.tokens) : tokens.size = 2 * f.size := by
  rw [← Array.length_toList, h, Forest.tokens, length_tokensFrom]

/-- The edges of the first tree stand around those of the rules inside it. -/
theorem StandsAt.cons (h : (Forest.cons rule span inner next).StandsAt tokens i) :
    tokens[i]? = some ⟨.start, rule, i + 1 + 2 * inner.size, span.start⟩ ∧ inner.StandsAt tokens (i + 1) ∧
      tokens[i + 1 + 2 * inner.size]? = some ⟨.stop, rule, i, span.stop⟩ ∧
      next.StandsAt tokens (i + 1 + 2 * inner.size + 1) := by
  obtain ⟨hs, h⟩ := getElem?_of_prefix_drop h
  obtain ⟨hin, h⟩ := prefix_drop_of_append h
  rw [length_tokensFrom] at h
  obtain ⟨hl, hn⟩ := getElem?_of_prefix_drop h
  exact ⟨hs, hin, hl, hn⟩

/-- A start token is the root of a tree, whose rules inside stand behind it. -/
theorem StandsAt.hasTree (h : f.StandsAt tokens i) (hik : i ≤ k) (hk : k < i + 2 * f.size) (ht : tokens[k]? = some t)
    (he : t.edge = .start) : ∃ (inner : Forest) (stop : Nat), f.HasTree t.rule ⟨t.offset, stop⟩ inner ∧
      inner.StandsAt tokens (k + 1) ∧ t.partner = k + 1 + 2 * inner.size ∧ t.partner < i + 2 * f.size ∧
      tokens[t.partner]? = some ⟨.stop, t.rule, k, stop⟩ := by
  induction f generalizing i with
  | nil => exact absurd hk (Nat.not_lt_of_le hik)
  | cons rule span inner next ihi ihn =>
      obtain ⟨hs, hin, hl, hnx⟩ := h.cons
      rw [size] at hk ⊢
      rcases Nat.eq_or_lt_of_le hik with rfl | hik
      · rw [hs] at ht
        cases ht
        refine ⟨inner, span.stop, .root rule span inner next, hin, rfl, ?_, hl⟩
        dsimp only
        omega
      · rcases Nat.lt_trichotomy k (i + 1 + 2 * inner.size) with hlt | rfl | hgt
        · obtain ⟨f, stop, hf, hfs, hp, hpl, hu⟩ := ihi hin hik hlt
          exact ⟨f, stop, .inner hf, hfs, hp, by omega, hu⟩
        · rw [hl] at ht
          cases ht
          cases he
        · obtain ⟨f, stop, hf, hfs, hp, hpl, hu⟩ := ihn hnx hgt (by omega)
          exact ⟨f, stop, .next hf, hfs, hp, by omega, hu⟩

theorem StandsAt.root (h : f.StandsAt tokens i) (hik : i ≤ k) (hk : k < i + 2 * f.size) (hu : tokens[k]? = some u)
    (he : u.edge = .stop) : i ≤ u.partner ∧ u.partner < k ∧
      ∃ start, tokens[u.partner]? = some ⟨.start, u.rule, k, start⟩ := by
  induction f generalizing i with
  | nil => exact absurd hk (Nat.not_lt_of_le hik)
  | cons rule span inner next ihi ihn =>
      obtain ⟨hs, hin, hl, hnx⟩ := h.cons
      rw [size] at hk
      rcases Nat.eq_or_lt_of_le hik with rfl | hik
      · rw [hs] at hu
        cases hu
        cases he
      · rcases Nat.lt_trichotomy k (i + 1 + 2 * inner.size) with hlt | rfl | hgt
        · obtain ⟨hle, hr⟩ := ihi hin hik hlt
          exact ⟨by omega, hr⟩
        · rw [hl] at hu
          cases hu
          exact ⟨Nat.le_refl i, hik, span.start, hs⟩
        · obtain ⟨hle, hr⟩ := ihn hnx hgt (by omega)
          exact ⟨by omega, hr⟩

/-- The rules side by side are found by going from each stop token to the token behind it. -/
theorem StandsAt.map_listFrom (h : f.StandsAt tokens i) {n : Nat} (hn : 2 * f.size ≤ n) :
    (Pairs.listFrom tokens (i + 2 * f.size) n i).map (fun p => (p.rule, p.span)) = f.roots := by
  induction f generalizing i n with
  | nil => cases n <;> simp [Pairs.listFrom, size, roots]
  | cons rule span inner next _ ih =>
      obtain ⟨hs, hin, hl, hnx⟩ := h.cons
      rw [size] at hn
      obtain ⟨n, rfl⟩ := Nat.exists_eq_add_of_le' (Nat.le_trans (by omega : 1 ≤ _) hn)
      have hp := Pair.partner_eq hs
      have hrule : (Pair.mk tokens i).rule = rule := Pair.rule_eq hs
      have hspan : (Pair.mk tokens i).span = span := by
        rw [Pair.span, Pair.start_eq hs, Pair.stop_eq hs hl]
      have hend : i + 2 * (inner.size + next.size + 1) = i + 1 + 2 * inner.size + 1 + 2 * next.size := by omega
      have hne : i ≠ i + 2 * (inner.size + next.size + 1) := by omega
      rw [size, Pairs.listFrom, if_neg hne]
      dsimp only
      rw [List.map_cons, hrule, hspan, hp, hend, ih hnx (by omega), roots]

theorem map_snd_roots (f : Forest) : f.roots.map Prod.snd = f.spans := by
  induction f with
  | nil => rfl
  | cons rule span inner next _ ih => rw [roots, List.map_cons, ih, spans]

/-- Between the edges of the first tree stand the rules inside it, and behind them those next to it. -/
theorem StandsAt.flatten_cons (h : (Forest.cons rule span inner next).StandsAt tokens i) :
    (Pairs.mk tokens i (i + 2 * (Forest.cons rule span inner next).size)).flatten = ⟨tokens, i⟩ ::
      ((Pairs.mk tokens (i + 1) (i + 1 + 2 * inner.size)).flatten ++
        (Pairs.mk tokens (i + 1 + 2 * inner.size + 1) (i + 1 + 2 * inner.size + 1 + 2 * next.size)).flatten) := by
  obtain ⟨hs, -, hl, -⟩ := h.cons
  have hend : i + 2 * (inner.size + next.size + 1) = i + 1 + 2 * inner.size + 1 + 2 * next.size := by omega
  rw [size, hend, Pairs.flatten_append (j := i + 1) (by omega) (by omega), Pairs.flatten_start hs rfl,
    Pairs.flatten_append (j := i + 1 + 2 * inner.size) (by omega) (by omega),
    Pairs.flatten_append (i := i + 1 + 2 * inner.size) (j := i + 1 + 2 * inner.size + 1) (by omega) (by omega),
    Pairs.flatten_stop hl rfl]
  rfl

/-- The rules at every depth are found by going through all tokens. -/
theorem StandsAt.map_flatten (h : f.StandsAt tokens i) :
    (Pairs.mk tokens i (i + 2 * f.size)).flatten.map (fun p => (p.rule, p.span)) = f.nodes := by
  induction f generalizing i with
  | nil => simp [Pairs.flatten, size, nodes]
  | cons rule span inner next ihi ihn =>
      obtain ⟨hs, hin, hl, hnx⟩ := h.cons
      have hrule : (Pair.mk tokens i).rule = rule := Pair.rule_eq hs
      have hspan : (Pair.mk tokens i).span = span := by
        rw [Pair.span, Pair.start_eq hs, Pair.stop_eq hs hl]
      rw [h.flatten_cons, List.map_cons, List.map_append, hrule, hspan, ihi hin, ihn hnx, nodes]

/-- The forest is read back from the queue. -/
theorem StandsAt.forestFrom (h : f.StandsAt tokens i) {n : Nat} (hn : 2 * f.size ≤ n) :
    Pairs.forestFrom tokens n i (i + 2 * f.size) = f := by
  induction f generalizing i n with
  | nil => cases n <;> simp [Pairs.forestFrom, size]
  | cons rule span inner next ihi ihn =>
      obtain ⟨hs, hin, hl, hnx⟩ := h.cons
      rw [size] at hn
      obtain ⟨n, rfl⟩ := Nat.exists_eq_add_of_le' (Nat.le_trans (by omega : 1 ≤ _) hn)
      have hp := Pair.partner_eq hs
      have hrule : (Pair.mk tokens i).rule = rule := Pair.rule_eq hs
      have hspan : (Pair.mk tokens i).span = span := by
        rw [Pair.span, Pair.start_eq hs, Pair.stop_eq hs hl]
      have hend : i + 2 * (inner.size + next.size + 1) = i + 1 + 2 * inner.size + 1 + 2 * next.size := by omega
      have hne : i ≠ i + 2 * (inner.size + next.size + 1) := by omega
      rw [size, Pairs.forestFrom, if_neg hne]
      dsimp only
      rw [hrule, hspan, hp, hend, ihi hin (by omega), ihn hnx (by omega)]

theorem StandsAt.nested (h : f.StandsAt tokens i) {j : Nat} (hik : i ≤ k) (hkj : k < j) (hj : j < i + 2 * f.size)
    (ht : tokens[k]? = some t) (hu : tokens[j]? = some u) (hte : t.edge = .start) (hue : u.edge = .start) :
    t.partner < j ∨ u.partner < t.partner := by
  induction f generalizing i with
  | nil => exact absurd hj (Nat.not_lt_of_le (Nat.le_trans hik (Nat.le_of_lt hkj)))
  | cons rule span inner next ihi ihn =>
      obtain ⟨hs, hin, hl, hnx⟩ := h.cons
      rw [size] at hj
      rcases Nat.eq_or_lt_of_le hik with rfl | hik
      · rw [hs] at ht
        cases ht
        rcases Nat.lt_or_ge j (i + 1 + 2 * inner.size) with hlt | hge
        · obtain ⟨_, _, _, _, _, hp, _⟩ := hin.hasTree hkj hlt hu hue
          exact .inr hp
        · rcases Nat.eq_or_lt_of_le hge with rfl | hgt
          · rw [hl] at hu
            cases hu
            cases hue
          · exact .inl hgt
      · rcases Nat.lt_trichotomy k (i + 1 + 2 * inner.size) with hlt | rfl | hgt
        · rcases Nat.lt_or_ge j (i + 1 + 2 * inner.size) with hjl | hjg
          · exact ihi hin hik hjl
          · obtain ⟨_, _, _, _, _, hp, _⟩ := hin.hasTree hik hlt ht hte
            exact .inl (Nat.lt_of_lt_of_le hp hjg)
        · rw [hl] at ht
          cases ht
          cases hte
        · exact ihn hnx hgt (by omega)

theorem Within.offsets (hw : f.Within low high) (i : Nat) :
    (∀ t ∈ f.tokensFrom i, low ≤ t.offset ∧ t.offset ≤ high) ∧
      (f.tokensFrom i).Pairwise fun t u => t.offset ≤ u.offset := by
  induction f generalizing i low high with
  | nil => exact ⟨nofun, .nil⟩
  | cons rule span inner next ihi ihn =>
      obtain ⟨hl, hwi, hwn⟩ := hw
      obtain ⟨hi, hip⟩ := ihi hwi (i + 1)
      obtain ⟨hn, hnp⟩ := ihn hwn (i + 1 + 2 * inner.size + 1)
      have hsp := hwi.le
      have hnh := hwn.le
      have hbehind : ∀ u ∈ (⟨.stop, rule, i, span.stop⟩ : Token) :: next.tokensFrom (i + 1 + 2 * inner.size + 1),
          span.stop ≤ u.offset ∧ u.offset ≤ high := by
        rw [List.forall_mem_cons]
        exact ⟨⟨Nat.le_refl _, hnh⟩, hn⟩
      have hrest : ∀ u ∈ inner.tokensFrom (i + 1) ++ ⟨.stop, rule, i, span.stop⟩ ::
          next.tokensFrom (i + 1 + 2 * inner.size + 1), span.start ≤ u.offset ∧ u.offset ≤ high := by
        rw [List.forall_mem_append]
        refine ⟨fun u hu => ?_, fun u hu => ?_⟩
        · have hb := hi u hu
          omega
        · have hb := hbehind u hu
          omega
      rw [tokensFrom, List.forall_mem_cons, List.pairwise_cons, List.pairwise_append, List.pairwise_cons]
      refine ⟨⟨⟨hl, by dsimp only; omega⟩, fun u hu => ?_⟩, fun u hu => (hrest u hu).1, hip,
        ⟨fun u hu => (hn u hu).1, hnp⟩, fun t ht u hu => Nat.le_trans (hi t ht).2 (hbehind u hu).1⟩
      have hb := hrest u hu
      omega

theorem Within.spans (hw : f.Within low high) :
    (∀ s ∈ f.spans, low ≤ s.start ∧ s.start ≤ s.stop ∧ s.stop ≤ high) ∧
      f.spans.Pairwise fun s t => s.stop ≤ t.start := by
  induction f generalizing low with
  | nil => exact ⟨nofun, .nil⟩
  | cons rule span inner next _ ih =>
      obtain ⟨hl, hwi, hwn⟩ := hw
      obtain ⟨hb, hp⟩ := ih hwn
      have hsp := hwi.le
      have hnh := hwn.le
      rw [Forest.spans, List.forall_mem_cons, List.pairwise_cons]
      refine ⟨⟨⟨hl, hsp, hnh⟩, fun s hs => ?_⟩, fun s hs => (hb s hs).1, hp⟩
      have hb := hb s hs
      omega

end Forest

theorem Pairs.forest_ofTokens {f : Forest} {tokens : Array Token} (h : tokens.toList = f.tokens) :
    (Pairs.ofTokens tokens).forest = f := by
  have hf := (Forest.standsAt_zero h).forestFrom (Nat.le_refl _)
  rwa [Nat.zero_add, ← Forest.size_eq_of_tokens h] at hf

/-- Start and stop tokens are the ends of intervals, any two of which are nested or disjoint, and from token
to token the offset does not decrease. -/
structure BalancedQueue (tokens : Array Token) : Prop where
  of_start : ∀ ⦃i : Nat⦄ ⦃t : Token⦄, tokens[i]? = some t → t.edge = .start →
    i < t.partner ∧ ∃ q, tokens[t.partner]? = some ⟨.stop, t.rule, i, q⟩
  of_stop : ∀ ⦃j : Nat⦄ ⦃u : Token⦄, tokens[j]? = some u → u.edge = .stop →
    u.partner < j ∧ ∃ p, tokens[u.partner]? = some ⟨.start, u.rule, j, p⟩
  nested : ∀ ⦃i j : Nat⦄ ⦃t u : Token⦄, tokens[i]? = some t → tokens[j]? = some u → t.edge = .start →
    u.edge = .start → i < j → t.partner < j ∨ u.partner < t.partner
  ordered : ∀ ⦃i j : Nat⦄ ⦃t u : Token⦄, tokens[i]? = some t → tokens[j]? = some u → i ≤ j → t.offset ≤ u.offset

/-- From an index on, start and stop tokens are the ends of intervals, any two of which are nested or disjoint. -/
structure MatchedFrom (tokens : Array Token) (first : Nat) : Prop where
  of_start : ∀ ⦃i : Nat⦄ ⦃t : Token⦄, first ≤ i → tokens[i]? = some t → t.edge = .start →
    i < t.partner ∧ ∃ q, tokens[t.partner]? = some ⟨.stop, t.rule, i, q⟩
  of_stop : ∀ ⦃j : Nat⦄ ⦃u : Token⦄, first ≤ j → tokens[j]? = some u → u.edge = .stop →
    first ≤ u.partner ∧ u.partner < j ∧ ∃ p, tokens[u.partner]? = some ⟨.start, u.rule, j, p⟩
  nested : ∀ ⦃i j : Nat⦄ ⦃t u : Token⦄, first ≤ i → tokens[i]? = some t → tokens[j]? = some u → t.edge = .start →
    u.edge = .start → i < j → t.partner < j ∨ u.partner < t.partner

/-- Pairs side by side, each behind the one before, lie between two offsets. -/
structure Pairs.Between (ps : Pairs) (low high : Nat) : Prop where
  inside : ∀ p ∈ ps.toList, low ≤ p.start ∧ p.start ≤ p.stop ∧ p.stop ≤ high
  behind : ps.toList.Pairwise fun p q => p.stop ≤ q.start

namespace Forest

variable {f : Forest} {tokens : Array Token} {low high : Nat}

theorem StandsAt.matchedFrom {i : Nat} (h : f.StandsAt tokens i) (hsize : tokens.size = i + 2 * f.size) :
    MatchedFrom tokens i := by
  have hlt : ∀ {k t}, tokens[k]? = some t → k < i + 2 * f.size := by
    intro k t ht
    rw [← hsize]
    exact (Array.getElem?_eq_some_iff.mp ht).1
  refine ⟨?_, ?_, ?_⟩
  · intro k t hk ht he
    obtain ⟨inner, stop, _, _, hp, _, hu⟩ := h.hasTree hk (hlt ht) ht he
    exact ⟨by omega, stop, hu⟩
  · intro k u hk hu he
    exact h.root hk (hlt hu) hu he
  · intro k j t u hk ht hu hte hue hkj
    exact h.nested hk hkj (hlt hu) ht hu hte hue

theorem balancedQueue (h : tokens.toList = f.tokens) (hw : f.Within low high) : BalancedQueue tokens := by
  have hm : MatchedFrom tokens 0 := (standsAt_zero h).matchedFrom (by rw [size_eq_of_tokens h, Nat.zero_add])
  refine ⟨?_, ?_, ?_, ?_⟩
  · intro i t ht he
    exact hm.of_start (Nat.zero_le i) ht he
  · intro j u hu he
    exact (hm.of_stop (Nat.zero_le j) hu he).2
  · intro i j t u ht hu hte hue hij
    exact hm.nested (Nat.zero_le i) ht hu hte hue hij
  · intro i j t u ht hu hij
    rcases Nat.eq_or_lt_of_le hij with rfl | hij
    · rw [ht] at hu
      cases hu
      exact Nat.le_refl _
    · rw [← Array.getElem?_toList, h] at ht hu
      have hp := (hw.offsets 0).2
      obtain ⟨hi, rfl⟩ := List.getElem?_eq_some_iff.mp ht
      obtain ⟨hj, rfl⟩ := List.getElem?_eq_some_iff.mp hu
      exact List.pairwise_iff_getElem.mp hp i j hi hj hij

theorem StandsAt.between {i : Nat} (h : f.StandsAt tokens i) (hw : f.Within low high) :
    (Pairs.mk tokens i (i + 2 * f.size)).Between low high := by
  have hn : 2 * f.size ≤ i + 2 * f.size - i := by omega
  have hm : (Pairs.mk tokens i (i + 2 * f.size)).toList.map Pair.span = f.spans := by
    rw [← f.map_snd_roots, ← h.map_listFrom hn, List.map_map]
    rfl
  obtain ⟨hb, hp⟩ := hw.spans
  rw [← hm] at hb hp
  constructor
  · intro p hmem
    exact hb _ (List.mem_map_of_mem hmem)
  · exact List.pairwise_map.mp hp

end Forest

theorem Parser.accepted_tokens {p : Parser} {n : Nat} {start text : Octets} {tokens : Array Token}
    (h : p.parse? n start text = some (.ok (.accepted tokens))) :
    ∃ f : Forest, tokens.toList = f.tokens ∧ f.Within 0 text.length := by
  rcases parse?_sound h with ⟨_, he⟩ | ⟨a, ha, ht⟩
  · cases he
  · cases ht with
    | @ok q c f _ hf =>
        obtain ⟨hq, hw⟩ := Eval.spans ha
        have hx := hq.2 (Nat.zero_le _)
        rw [Subject.size_eq] at hx
        exact ⟨f, hf, hw.mono (Nat.le_refl _) hx⟩

/-- The queue of a match is balanced, no offset lies outside the text, and the spans of its pairs nest. -/
theorem Parser.tokens_balanced {p : Parser} {n : Nat} {start text : Octets} {tokens : Array Token}
    (h : p.parse? n start text = some (.ok (.accepted tokens))) :
    BalancedQueue tokens ∧ (∀ t ∈ tokens, t.offset ≤ text.length) ∧
      (Pairs.ofTokens tokens).Between 0 text.length ∧
      ∀ q ∈ (Pairs.ofTokens tokens).flatten, q.start ≤ q.stop ∧ q.inner.Between q.start q.stop := by
  obtain ⟨f, hf, hw⟩ := accepted_tokens h
  have hs := Forest.standsAt_zero hf
  have hsize := Forest.size_eq_of_tokens hf
  refine ⟨Forest.balancedQueue hf hw, ?_, ?_, ?_⟩
  · intro t ht
    rw [← Array.mem_toList_iff, hf] at ht
    exact ((hw.offsets 0).1 t ht).2
  · rw [Pairs.ofTokens, hsize, ← Nat.zero_add (2 * f.size)]
    exact hs.between hw
  · intro q hq
    obtain ⟨k, t, rfl, ht, hte⟩ := Pairs.mem_flatten_ofTokens.mp hq
    have hk := (Array.getElem?_eq_some_iff.mp ht).1
    obtain ⟨inner, stop, htree, hin, hp, -, hu⟩ := hs.hasTree (Nat.zero_le k) (by omega) ht hte
    have hiw : inner.Within t.offset stop := hw.hasTree htree
    rw [Pair.inner, Pair.partner_eq ht, Pair.start_eq ht, Pair.stop_eq ht hu, hp]
    exact ⟨hiw.le, hin.between hiw⟩

theorem Parser.tokens_balanced_calc : ∃ tokens : Array Token,
    ({ grammar := Calc.grammar } : Parser).parse? 4 (ascii "term") (ascii "7") = some (.ok (.accepted tokens)) ∧
      tokens.size = 4 ∧ BalancedQueue tokens ∧ (Pairs.ofTokens tokens).Between 0 1 := by
  have h : ({ grammar := Calc.grammar } : Parser).parse? 4 (ascii "term") (ascii "7") = some (.ok (.accepted
      #[⟨.start, ascii "term", 3, 0⟩, ⟨.start, ascii "number", 2, 0⟩, ⟨.stop, ascii "number", 1, 1⟩,
        ⟨.stop, ascii "term", 0, 1⟩])) := rfl
  obtain ⟨hb, -, hp, -⟩ := tokens_balanced h
  exact ⟨_, h, rfl, hb, hp⟩

end Peg
