import Mathlib.Logic.Relation
import Peg.Proofs.TokenQueue

namespace Peg

namespace Pairs

def head (ps : Pairs) : Pair := ⟨ps.tokens, ps.first⟩

/-- The pairs behind the first one begin behind its stop token. -/
def tail (ps : Pairs) : Pairs := { ps with first := ps.head.partner + 1 }

/-- Going from pair to pair comes to the last token, and these are the pairs on the way. -/
inductive Iterates : Pairs → List Pair → Prop
  | stop {ps} (h : ps.first = ps.last) : Iterates ps []
  | step {ps l} (h : ps.first ≠ ps.last) (hl : Iterates ps.tail l) : Iterates ps (ps.head :: l)

/-- Going from pair to pair, and before that into each of them, comes to an end, and these are the pairs that are
visited. -/
inductive Visits : Pairs → List Pair → Prop
  | stop {ps} (h : ps.first = ps.last) : Visits ps []
  | step {ps l l'} (h : ps.first ≠ ps.last) (hinner : Visits ps.head.inner l) (hnext : Visits ps.tail l') :
      Visits ps (ps.head :: (l ++ l'))

theorem Iterates.unique {ps : Pairs} {l l' : List Pair} (h : ps.Iterates l) (h' : ps.Iterates l') : l = l' := by
  induction h generalizing l' with
  | stop hs =>
      cases h' with
      | stop => rfl
      | step hn => exact absurd hs hn
  | step hn _ ih =>
      cases h' with
      | stop hs => exact absurd hs hn
      | step _ hl => rw [ih hl]

theorem Visits.unique {ps : Pairs} {l l' : List Pair} (h : ps.Visits l) (h' : ps.Visits l') : l = l' := by
  induction h generalizing l' with
  | stop hs =>
      cases h' with
      | stop => rfl
      | step hn => exact absurd hs hn
  | step hn _ _ ihi ihn =>
      cases h' with
      | stop hs => exact absurd hs hn
      | step _ hinner hnext => rw [ihi hinner, ihn hnext]

theorem Iterates.isEmpty_iff {ps : Pairs} {l : List Pair} (h : ps.Iterates l) : ps.isEmpty = true ↔ l = [] := by
  rw [isEmpty, beq_iff_eq]
  cases h with
  | stop h => exact iff_of_true h rfl
  | step h => exact iff_of_false h (List.cons_ne_nil _ _)

theorem Iterates.eq_cons {ps : Pairs} {l : List Pair} (h : ps.Iterates l) (hne : ps.isEmpty = false) :
    ∃ l', l = ps.head :: l' := by
  cases h with
  | stop h => exact absurd h (beq_eq_false_iff_ne.mp hne)
  | step => exact ⟨_, rfl⟩

theorem Visits.eq_cons {ps : Pairs} {l : List Pair} (h : ps.Visits l) (hne : ps.isEmpty = false) :
    ∃ l', l = ps.head :: l' := by
  cases h with
  | stop h => exact absurd h (beq_eq_false_iff_ne.mp hne)
  | step => exact ⟨_, rfl⟩

theorem flatten_increases (ps : Pairs) : ps.flatten.Pairwise fun p q => p.index < q.index := by
  refine List.Pairwise.filter _ (List.pairwise_map.mpr ?_)
  exact List.pairwise_lt_range'

end Pairs

/-- The second pair is one of those side by side directly inside the first. -/
def Pair.HasChild (p q : Pair) : Prop := q ∈ p.inner.toList

namespace Forest

variable {f inner next : Forest} {rule : Octets} {span : Span} {tokens : Array Token} {i : Nat}

/-- The pairs of a forest whose tokens stand from the index `i` on. -/
def pairsAt (f : Forest) (tokens : Array Token) (i : Nat) : Pairs := ⟨tokens, i, i + 2 * f.size⟩

/-- The pairs of the first tree, and those behind it. -/
theorem StandsAt.pairsAt_cons (h : (Forest.cons rule span inner next).StandsAt tokens i) :
    let ps := (Forest.cons rule span inner next).pairsAt tokens i
    ps.first ≠ ps.last ∧ ps.head.inner = inner.pairsAt tokens (i + 1) ∧
      ps.tail = next.pairsAt tokens (i + 1 + 2 * inner.size + 1) := by
  have hp : (Pair.mk tokens i).partner = i + 1 + 2 * inner.size := Pair.partner_eq h.cons.1
  have hend : i + 2 * (inner.size + next.size + 1) = i + 1 + 2 * inner.size + 1 + 2 * next.size := by omega
  refine ⟨?_, ?_, ?_⟩
  · simp only [Forest.pairsAt, size]
    omega
  · simp only [Pair.inner, Pairs.head, Forest.pairsAt, hp]
  · simp only [Pairs.tail, Pairs.head, Forest.pairsAt, size, hp, hend]

theorem StandsAt.iterates_listFrom (h : f.StandsAt tokens i) {n : Nat} (hn : 2 * f.size ≤ n) :
    (f.pairsAt tokens i).Iterates (Pairs.listFrom tokens (i + 2 * f.size) n i) := by
  induction f generalizing i n with
  | nil =>
      have hl : Pairs.listFrom tokens i n i = [] := by cases n <;> simp [Pairs.listFrom]
      rw [size, Nat.mul_zero, Nat.add_zero, hl]
      exact .stop rfl
  | cons rule span inner next _ ih =>
      obtain ⟨hne, -, htail⟩ := h.pairsAt_cons
      obtain ⟨n, rfl⟩ := Nat.exists_eq_add_of_le' (Nat.le_trans (by rw [size]; omega : 1 ≤ _) hn)
      have hl := ih h.cons.2.2.2 (n := n) (by rw [size] at hn; omega)
      have hp : (Pair.mk tokens i).partner = i + 1 + 2 * inner.size := Pair.partner_eq h.cons.1
      have hend : i + 2 * (inner.size + next.size + 1) = i + 1 + 2 * inner.size + 1 + 2 * next.size := by omega
      rw [← htail, ← hend, ← hp] at hl
      have hfirst : i ≠ i + 2 * (Forest.cons rule span inner next).size := hne
      rw [Pairs.listFrom, if_neg hfirst]
      exact .step hne hl

theorem StandsAt.iterates (h : f.StandsAt tokens i) : (f.pairsAt tokens i).Iterates (f.pairsAt tokens i).toList := by
  have hn : 2 * f.size ≤ i + 2 * f.size - i := by omega
  exact h.iterates_listFrom hn

theorem StandsAt.toList_cons (h : (Forest.cons rule span inner next).StandsAt tokens i) :
    ((Forest.cons rule span inner next).pairsAt tokens i).toList =
      ⟨tokens, i⟩ :: (next.pairsAt tokens (i + 1 + 2 * inner.size + 1)).toList := by
  obtain ⟨hne, -, htail⟩ := h.pairsAt_cons
  have hnext := h.cons.2.2.2.iterates
  rw [← htail] at hnext
  rw [← htail]
  exact h.iterates.unique (.step hne hnext)

theorem StandsAt.visits (h : f.StandsAt tokens i) : (f.pairsAt tokens i).Visits (f.pairsAt tokens i).flatten := by
  induction f generalizing i with
  | nil =>
      have hl : (nil.pairsAt tokens i).flatten = [] := by simp [Pairs.flatten, Forest.pairsAt, size]
      rw [hl]
      exact .stop rfl
  | cons rule span inner next ihi ihn =>
      obtain ⟨hne, hinner, htail⟩ := h.pairsAt_cons
      obtain ⟨-, hin, -, hnx⟩ := h.cons
      have hi := ihi hin
      have hn := ihn hnx
      rw [← hinner] at hi
      rw [← htail] at hn
      have hv := Pairs.Visits.step hne hi hn
      rw [hinner, htail] at hv
      rwa [Forest.pairsAt, h.flatten_cons]

/-- The pairs at every depth are those side by side and all that are inside them. -/
theorem StandsAt.mem_flatten (h : f.StandsAt tokens i) {r : Pair} : r ∈ (f.pairsAt tokens i).flatten ↔
    ∃ q ∈ (f.pairsAt tokens i).toList, Relation.ReflTransGen Pair.HasChild q r := by
  induction f generalizing i with
  | nil => simp [Pairs.flatten, Pairs.toList, Pairs.listFrom, Forest.pairsAt, size]
  | cons rule span inner next ihi ihn =>
      obtain ⟨-, hin, -, hnx⟩ := h.cons
      have hinner : (Pair.mk tokens i).inner = inner.pairsAt tokens (i + 1) := h.pairsAt_cons.2.1
      have hfirst : Relation.ReflTransGen Pair.HasChild ⟨tokens, i⟩ r ↔
          r = ⟨tokens, i⟩ ∨ r ∈ (inner.pairsAt tokens (i + 1)).flatten := by
        rw [Relation.ReflTransGen.cases_head_iff, ihi hin, ← hinner]
        exact or_congr_left eq_comm
      rw [h.toList_cons, Forest.pairsAt, h.flatten_cons, List.mem_cons, List.mem_append, ← or_assoc]
      simp only [List.mem_cons, exists_eq_or_imp]
      exact or_congr hfirst.symm (ihn hnx)

/-- What is inside a pair stands next to it in the list of all pairs. -/
theorem StandsAt.inner_of_mem (h : f.StandsAt tokens i) {q : Pair} (hq : q ∈ (f.pairsAt tokens i).flatten) :
    ∃ inner : Forest, inner.StandsAt tokens (q.index + 1) ∧ q.inner = inner.pairsAt tokens (q.index + 1) ∧
      ∃ before after, (f.pairsAt tokens i).flatten = before ++ q :: (q.inner.flatten ++ after) := by
  induction f generalizing i with
  | nil => simp [Pairs.flatten, Forest.pairsAt, size] at hq
  | cons rule span inner next ihi ihn =>
      obtain ⟨-, hin, -, hnx⟩ := h.cons
      have hinner : (Pair.mk tokens i).inner = inner.pairsAt tokens (i + 1) := h.pairsAt_cons.2.1
      have hall : ((Forest.cons rule span inner next).pairsAt tokens i).flatten = ⟨tokens, i⟩ ::
          ((inner.pairsAt tokens (i + 1)).flatten ++
            (next.pairsAt tokens (i + 1 + 2 * inner.size + 1)).flatten) := h.flatten_cons
      rw [hall] at hq ⊢
      rcases List.mem_cons.mp hq with rfl | hq
      · exact ⟨inner, hin, hinner, [], _, by rw [hinner, List.nil_append]⟩
      · rcases List.mem_append.mp hq with hq | hq
        · obtain ⟨f, hf, hqf, before, after, he⟩ := ihi hin hq
          refine ⟨f, hf, hqf, ⟨tokens, i⟩ :: before,
            after ++ (next.pairsAt tokens (i + 1 + 2 * inner.size + 1)).flatten, ?_⟩
          rw [he]
          simp only [List.cons_append, List.append_assoc]
        · obtain ⟨f, hf, hqf, before, after, he⟩ := ihn hnx hq
          refine ⟨f, hf, hqf, ⟨tokens, i⟩ :: ((inner.pairsAt tokens (i + 1)).flatten ++ before), after, ?_⟩
          rw [he]
          simp only [List.cons_append, List.append_assoc]

end Forest

/-- The pairs of a match are the forest of its tokens. Going along them and into each one visits the start tokens in
the order of the queue, each of them once. The length of pairs side by side is how many there are to go along, and
what is inside a pair follows it in the list of all pairs, its first child at once. -/
theorem Parser.pairs_traversed {p : Parser} {n : Nat} {start text : Octets} {tokens : Array Token}
    (h : p.parse? n start text = some (.ok (.accepted tokens))) :
    let all := Pairs.ofTokens tokens
    ((∀ l, all.Visits l ↔ l = all.flatten) ∧ (all.flatten.Pairwise fun q r => q.index < r.index) ∧
      ∀ q, q ∈ all.flatten ↔ ∃ k t, q = ⟨tokens, k⟩ ∧ tokens[k]? = some t ∧ t.edge = .start) ∧
    (∀ ps, ps = all ∨ (∃ q ∈ all.flatten, ps = q.inner) → (∀ l, ps.Iterates l ↔ l = ps.toList) ∧
      ∀ l, ps.Iterates l → ps.size = l.length ∧ (ps.isEmpty = true ↔ l = [])) ∧
    ∀ q ∈ all.flatten, (∀ r, r ∈ q.inner.flatten ↔ Relation.TransGen Pair.HasChild q r) ∧
      ∃ before after, all.flatten = before ++ q :: (q.inner.flatten ++ after) ∧
        (q.inner.isEmpty = false → ∃ c l rest, q.inner.Iterates (c :: l) ∧ all.flatten = before ++ q :: c :: rest) := by
  obtain ⟨f, hf, -⟩ := accepted_tokens h
  have hs := Forest.standsAt_zero hf
  have hall : f.pairsAt tokens 0 = Pairs.ofTokens tokens := by
    rw [Forest.pairsAt, Pairs.ofTokens, Forest.size_eq_of_tokens hf, Nat.zero_add]
  have hvisits := hs.visits
  have hiterates := hs.iterates
  have hinner := fun q => hs.inner_of_mem (q := q)
  rw [hall] at hvisits hiterates hinner
  refine ⟨⟨?_, Pairs.flatten_increases _, fun q => Pairs.mem_flatten_ofTokens⟩, ?_, ?_⟩
  · exact fun l => ⟨fun hl => hl.unique hvisits, fun hl => hl ▸ hvisits⟩
  · intro ps hps
    have hl : ps.Iterates ps.toList := by
      rcases hps with rfl | ⟨q, hq, rfl⟩
      · exact hiterates
      · obtain ⟨g, hg, hqg, -⟩ := hinner q hq
        rw [hqg]
        exact hg.iterates
    refine ⟨fun l => ⟨fun h => h.unique hl, fun h => h ▸ hl⟩, fun l h => ⟨?_, h.isEmpty_iff⟩⟩
    rw [Pairs.size, hl.unique h]
  · intro q hq
    obtain ⟨g, hg, hqg, before, after, he⟩ := hinner q hq
    refine ⟨fun r => ?_, before, after, he, fun hne => ?_⟩
    · rw [Relation.TransGen.head'_iff, hqg, hg.mem_flatten, ← hqg]
      rfl
    · have hv := hg.visits
      have hl := hg.iterates
      rw [← hqg] at hv hl
      obtain ⟨l, hl'⟩ := hl.eq_cons hne
      obtain ⟨l', hv'⟩ := hv.eq_cons hne
      refine ⟨q.inner.head, l, l' ++ after, hl' ▸ hl, ?_⟩
      rw [he, hv']
      rfl

/-- A pair with two pairs in it, of which the first has one in it. -/
theorem Parser.pairs_traversed_nested :
    let g : Grammar := ⟨[.written "outer" .normal (.seq (.rule "inner") (.rule "letter")),
      .written "inner" .normal (.rule "letter"), .written "letter" .atomic (.written "a")],
      by decide, by decide, by decide⟩
    let tokens : Array Token := #[⟨.start, ascii "outer", 7, 0⟩, ⟨.start, ascii "inner", 4, 0⟩,
      ⟨.start, ascii "letter", 3, 0⟩, ⟨.stop, ascii "letter", 2, 1⟩, ⟨.stop, ascii "inner", 1, 1⟩,
      ⟨.start, ascii "letter", 6, 1⟩, ⟨.stop, ascii "letter", 5, 2⟩, ⟨.stop, ascii "outer", 0, 2⟩]
    ({ grammar := g } : Parser).parse? 4 (ascii "outer") (ascii "aa") = some (.ok (.accepted tokens)) ∧
      (Pairs.ofTokens tokens).Visits [⟨tokens, 0⟩, ⟨tokens, 1⟩, ⟨tokens, 2⟩, ⟨tokens, 5⟩] ∧
      Relation.TransGen Pair.HasChild ⟨tokens, 0⟩ ⟨tokens, 2⟩ :=
  have h := rfl
  ⟨h, ((Parser.pairs_traversed h).1.1 _).mpr rfl,
    (((Parser.pairs_traversed h).2.2 _ (.head _)).1 _).mp (.tail _ (.head _))⟩

end Peg
