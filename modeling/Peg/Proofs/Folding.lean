import Peg.Proofs.Resynchronisation

namespace Peg.Utf8

variable {c d : Char} {cs ds es : List Char} {s t t' : Octets} {n k : Nat}

theorem runes_ofChars (cs : List Char) : runes (ofChars cs) = cs.map Char.toNat := by
  have h := runes_ofChars_append cs []
  rw [List.append_nil] at h
  exact h.trans (List.append_nil _)

theorem countRunes_ofChars (cs : List Char) : countRunes (ofChars cs) = cs.length := by
  rw [← length_runes, runes_ofChars, List.length_map]

/-- A fold is as long as its rune: both take one octet, or two, or they are the same. -/
theorem fold_cases (r : Rune) : r < 0x80 ∧ fold r < 0x80 ∨
    (0x80 ≤ r ∧ r < 0x800) ∧ 0x80 ≤ fold r ∧ fold r < 0x800 ∨ fold r = r := by
  unfold fold
  grind

theorem length_encodeScalar_fold (r : Rune) : (encodeScalar (fold r)).length = (encodeScalar r).length := by
  rcases fold_cases r with ⟨h, hf⟩ | ⟨⟨h, h'⟩, hf, hf'⟩ | hf
  · rw [encodeScalar, encodeScalar, if_pos h, if_pos hf]
    rfl
  · rw [encodeScalar, encodeScalar, if_neg (Nat.not_lt.mpr h), if_neg (Nat.not_lt.mpr hf), if_pos h', if_pos hf']
    rfl
  · rw [hf]

theorem length_encodeChar (c : Char) : (String.utf8EncodeChar c).length = (encodeScalar (fold c.toNat)).length := by
  rw [length_encodeScalar_fold, encodeScalar_eq (isScalar_toNat c), Char.ofNat_toNat]

/-- Character by character these fold alike. -/
def FoldAlike (cs ds : List Char) : Prop := cs.map (fold ·.toNat) = ds.map (fold ·.toNat)

instance (cs ds : List Char) : Decidable (FoldAlike cs ds) := inferInstanceAs (Decidable (_ = _))

theorem map_fold_runes (cs : List Char) : (runes (ofChars cs)).map fold = cs.map (fold ·.toNat) := by
  rw [runes_ofChars, List.map_map]
  rfl

namespace FoldAlike

theorem refl (cs : List Char) : FoldAlike cs cs := rfl

theorem cons_iff : FoldAlike (c :: cs) (d :: ds) ↔ fold c.toNat = fold d.toNat ∧ FoldAlike cs ds := by
  rw [FoldAlike, List.map_cons, List.map_cons, List.cons.injEq, FoldAlike]

theorem length_ofChars_eq (h : FoldAlike cs ds) : (ofChars cs).length = (ofChars ds).length := by
  induction cs generalizing ds with
  | nil =>
      cases ds with
      | nil => rfl
      | cons => cases h
  | cons c cs ih =>
      cases ds with
      | nil => cases h
      | cons d ds =>
          obtain ⟨hc, hcs⟩ := cons_iff.mp h
          rw [ofChars_cons, ofChars_cons, List.length_append, List.length_append, length_encodeChar,
            length_encodeChar, hc, ih hcs]

/-- The fold of a literal is found wherever characters stand that fold alike, whatever follows them. -/
theorem foldedPrefixAtMost_append (h : FoldAlike cs ds) (hn : ds.length ≤ n) (t : Octets) :
    foldedPrefixAtMost n (ofChars cs ++ t) (ofChars ds) = some (ofChars cs).length := by
  induction cs generalizing ds n with
  | nil =>
      cases ds with
      | nil => simp only [ofChars_nil, foldedPrefixAtMost, List.length_nil]
      | cons => cases h
  | cons c cs ih =>
      cases ds with
      | nil => cases h
      | cons d ds =>
          obtain ⟨hc, hcs⟩ := cons_iff.mp h
          obtain ⟨n, rfl⟩ := Nat.exists_eq_add_of_le' (Nat.one_le_of_lt hn)
          have hrest := ih hcs (Nat.le_of_succ_le_succ hn)
          rw [foldedPrefixAtMost_succ (by simp) (by simp)]
          simp only [ofChars_cons, List.append_assoc, decode_encodeChar, List.drop_left, if_pos hc, hrest,
            Option.map_some, List.length_append]

/-- A text is compared with the folds of a literal, and with nothing else of it. -/
theorem foldedPrefixAtMost_eq (h : FoldAlike ds es) (hn : ds.length ≤ n) (hk : es.length ≤ k) (s : Octets) :
    foldedPrefixAtMost n s (ofChars ds) = foldedPrefixAtMost k s (ofChars es) := by
  have hnil : ∀ {n : Nat} {c : Char} {cs : List Char}, foldedPrefixAtMost n [] (ofChars (c :: cs)) = none := by
    intro n c cs
    obtain ⟨o, os, ho⟩ := List.exists_cons_of_ne_nil (encodeChar_ne_nil c)
    rw [ofChars_cons, ho]
    cases n <;> rfl
  induction ds generalizing es n k s with
  | nil =>
      cases es with
      | nil => simp only [ofChars_nil, foldedPrefixAtMost]
      | cons => cases h
  | cons d ds ih =>
      cases es with
      | nil => cases h
      | cons e es =>
          obtain ⟨hd, hds⟩ := cons_iff.mp h
          obtain ⟨n, rfl⟩ := Nat.exists_eq_add_of_le' (Nat.one_le_of_lt hn)
          obtain ⟨k, rfl⟩ := Nat.exists_eq_add_of_le' (Nat.one_le_of_lt hk)
          have hrest := ih hds (Nat.le_of_succ_le_succ hn) (Nat.le_of_succ_le_succ hk)
          by_cases hs : s = []
          · subst hs
            rw [hnil, hnil]
          · rw [foldedPrefixAtMost_succ hs (by simp), foldedPrefixAtMost_succ hs (by simp)]
            simp only [ofChars_cons, decode_encodeChar, List.drop_left, hd, hrest]

end FoldAlike

theorem foldedPrefix?_ofChars (cs ds : List Char) : foldedPrefix? (ofChars cs) (ofChars ds) =
    if FoldAlike (cs.take ds.length) ds then some (ofChars ds).length else none := by
  rw [foldedPrefix?, foldedPrefixAtMost_ofChars length_le_ofChars]
  by_cases h : FoldAlike (cs.take ds.length) ds
  · rw [h.length_ofChars_eq, if_pos h]
    exact if_pos h
  · rw [if_neg h]
    exact if_neg h

theorem foldAlike_take_iff (cs ds : List Char) : FoldAlike (cs.take ds.length) ds ↔
    countRunes (ofChars ds) ≤ countRunes (ofChars cs) ∧
      ((runes (ofChars cs)).take (countRunes (ofChars ds))).map fold = (runes (ofChars ds)).map fold := by
  rw [countRunes_ofChars, countRunes_ofChars, List.map_take, map_fold_runes, map_fold_runes, ← List.map_take]
  refine ⟨fun h => ⟨?_, h⟩, And.right⟩
  have hlength := congrArg List.length h
  rw [List.length_map, List.length_map, List.length_take] at hlength
  omega

/-- A literal is found in a text without regard to case just if the text has as many runes and the first of them fold
as those of the literal do. What is found is as long as the literal, and holds just these runes. So all that is found as
it is written is found without regard to case too, with the same end, and a literal may be written in any case. -/
theorem foldedPrefix?_exact (ht : WellFormed t) :
    (∀ s, WellFormed s →
      foldedPrefix? s t = (if countRunes t ≤ countRunes s ∧
        ((runes s).take (countRunes t)).map fold = (runes t).map fold then some t.length else none) ∧
      ∀ n, foldedPrefix? s t = some n → n = t.length ∧ runes (s.take n) = (runes s).take (countRunes t)) ∧
    (∀ (x : Subject) p q, x.text t p = .matched q → x.foldedText t p = .matched q) ∧
    ∀ t', WellFormed t' → (runes t').map fold = (runes t).map fold → t'.length = t.length ∧
      ∀ x : Subject, x.foldedText t' = x.foldedText t := by
  obtain ⟨ds, rfl⟩ := ht
  refine ⟨?_, ?_, ?_⟩
  · rintro _ ⟨cs, rfl⟩
    have hiff := foldAlike_take_iff cs ds
    rw [foldedPrefix?_ofChars]
    by_cases h : FoldAlike (cs.take ds.length) ds
    · have hcut : (ofChars cs).take (ofChars ds).length = ofChars (cs.take ds.length) := by
        have hcs : ofChars cs = ofChars (cs.take ds.length) ++ ofChars (cs.drop ds.length) := by
          rw [← ofChars_append, List.take_append_drop]
        rw [hcs, ← h.length_ofChars_eq, List.take_left]
      rw [if_pos h, if_pos (hiff.mp h)]
      refine ⟨rfl, ?_⟩
      rintro _ ⟨⟩
      rw [hcut, runes_ofChars, runes_ofChars, countRunes_ofChars, List.map_take]
      exact ⟨rfl, rfl⟩
    · rw [if_neg h, if_neg (mt hiff.mpr h)]
      exact ⟨rfl, nofun⟩
  · intro x p q h
    obtain ⟨⟨s, hs⟩, rfl⟩ := x.text_eq_matched.mp h
    rw [Subject.foldedText, foldedPrefix?, ← hs, (FoldAlike.refl ds).foldedPrefixAtMost_append length_le_ofChars s]
  · rintro _ ⟨es, rfl⟩ h
    rw [map_fold_runes, map_fold_runes] at h
    have halike : FoldAlike es ds := h
    refine ⟨halike.length_ofChars_eq, fun x => funext fun p => ?_⟩
    rw [Subject.foldedText, Subject.foldedText, foldedPrefix?, foldedPrefix?,
      halike.foldedPrefixAtMost_eq length_le_ofChars length_le_ofChars]

/-- Accented letters in the one case and in the other, behind which the text goes on. -/
theorem foldedPrefix?_exact_accents :
    let s := ofChars ['É', 't', 'é', '!']
    let t := ofChars ['é', 'T', 'É']
    let t' := ofChars ['é', 't', 'é']
    let x := Subject.ofOctets (t' ++ ascii "!")
    (WellFormed s ∧ WellFormed t ∧ WellFormed t' ∧ (runes t').map fold = (runes t).map fold) ∧
      foldedPrefix? s t = some 5 ∧ runes (s.take 5) = [0xC9, 0x74, 0xE9] ∧ x.text t' 0 = .matched 5 ∧
      x.foldedText t' 0 = .matched 5 ∧ x.foldedText t' = x.foldedText t := by
  intro s t t' x
  have hs : WellFormed s := ⟨_, rfl⟩
  have ht : WellFormed t := ⟨_, rfl⟩
  have ht' : WellFormed t' := ⟨_, rfl⟩
  have hfold : (runes t').map fold = (runes t).map fold := by decide
  obtain ⟨hfound, -, hcase⟩ := foldedPrefix?_exact ht
  have hfive : foldedPrefix? s t = some 5 := (hfound s hs).1
  have htext : x.text t' 0 = .matched 5 := by decide
  exact ⟨⟨hs, ht, ht', hfold⟩, hfive, ((hfound s hs).2 5 hfive).2, htext,
    (foldedPrefix?_exact ht').2.1 x 0 5 htext, (hcase t' ht' hfold).2 x⟩

end Peg.Utf8
