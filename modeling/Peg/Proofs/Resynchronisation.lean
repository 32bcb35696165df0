import Peg.Proofs.Decoding

namespace Peg.Utf8

variable {u s t : Octets} {r : Rune} {o : UInt8}

/-- The last rune of a text is cut off: some octets more would have made a character of it. -/
inductive EndsInside : Octets → Prop where
  | here {s : Octets} (h : IsCut s) : EndsInside s
  | later {u s : Octets} {r : Rune} (h : FirstRune u r s) (hs : EndsInside s) : EndsInside (u ++ s)

theorem EndsInside.ne_nil (h : EndsInside s) : s ≠ [] := by
  cases h with
  | here h => exact h.1
  | later h => exact List.append_ne_nil_of_left_ne_nil h.ne_nil _

theorem Resumes.append (hs : Resumes s) (ht : Resumes t) : Resumes (s ++ t) := by
  cases s with
  | nil => exact ht
  | cons => exact hs

/-- Only a rune that is cut off depends on what comes behind the text. -/
theorem FirstRune.isCut_or_append (h : FirstRune u r s) :
    (IsCut u ∧ s = []) ∨ ∀ t, Resumes t → FirstRune u r (s ++ t) := by
  cases h with
  | character c => exact .inr fun t _ => .character c (s ++ t)
  | cut h => exact .inl ⟨h, rfl⟩
  | spoiled h hw hs => exact .inr fun t ht => .spoiled h hw (hs.append ht)

/-- Induction over a text, rune by rune from its end. -/
theorem induction_on_runes {p : Octets → Prop} (nil : p [])
    (rune : ∀ u r s, FirstRune u r s → p s → p (u ++ s)) (s : Octets) : p s := by
  induction hn : s.length using Nat.strongRecOn generalizing s with
  | ind n ih =>
      subst hn
      by_cases hs : s = []
      · subst hs
        exact nil
      · obtain ⟨u, r, t, rfl, h⟩ := exists_firstRune hs
        have hpos := List.length_pos_iff.mpr h.ne_nil
        exact rune u r t h (ih t.length (by rw [List.length_append]; omega) t rfl)

theorem decodeAll_of_firstRune (h : FirstRune u r t) : decodeAll (u ++ t) = ⟨r, u.length⟩ :: decodeAll t := by
  rw [decodeAll_of_ne_nil (List.append_ne_nil_of_left_ne_nil h.ne_nil t), decode_of_firstRune h, List.drop_left]

theorem runes_of_firstRune (h : FirstRune u r t) : runes (u ++ t) = r :: runes t := by
  rw [runes, decodeAll_of_firstRune h, List.map_cons, runes]

theorem length_runes (s : Octets) : (runes s).length = countRunes s := List.length_map _

theorem runes_append (hs : ¬EndsInside s) (ht : Resumes t) : runes (s ++ t) = runes s ++ runes t := by
  induction s using induction_on_runes with
  | nil => rfl
  | rune u r s h ih =>
      rcases h.isCut_or_append with ⟨hu, rfl⟩ | happend
      · rw [List.append_nil] at hs
        exact absurd (.here hu) hs
      · rw [List.append_assoc, runes_of_firstRune (happend t ht), runes_of_firstRune h, List.cons_append,
          ih fun hs' => hs (.later h hs')]

/-- An octet that begins a rune spoils every one that is cut off. -/
theorem IsCut.spoils (h : IsCut s) (ho : ¬IsContinuation o) : Spoils s o := by
  refine ⟨.inr h, ?_⟩
  rintro c ⟨w, hw⟩
  obtain ⟨a, v, rfl⟩ := List.exists_cons_of_ne_nil h.1
  obtain ⟨b, bs, hb, -, -, hbs⟩ := encodeChar_eq_cons c
  rw [hb, List.cons_append, List.cons_append, List.cons.injEq] at hw
  refine ho (hbs o ?_)
  rw [← hw.2]
  exact List.mem_append_left _ (List.mem_append_right _ List.mem_cons_self)

/-- A rune that is cut off takes the next octet with it, and the continuation octets behind that one. -/
theorem runes_append_cons (hs : EndsInside s) (ho : ¬IsContinuation o) (t : Octets) :
    runes (s ++ o :: t) = runes s ++ runes (t.dropWhile fun b => decide (IsContinuation b)) := by
  induction hs with
  | @here s h =>
      obtain ⟨u, hu, hspoiled⟩ := (h.spoils ho).exists_firstRune t
      have hcut := runes_of_firstRune (FirstRune.cut h)
      rw [List.append_nil] at hcut
      rw [hu, runes_of_firstRune hspoiled, hcut]
      rfl
  | @later u s r h hs ih =>
      rcases h.isCut_or_append with ⟨-, rfl⟩ | happend
      · exact absurd rfl hs.ne_nil
      · rw [List.append_assoc, runes_of_firstRune (happend _ (resumes_cons.mpr ho)), runes_of_firstRune h, ih,
          List.cons_append]

theorem EndsInside.runes_append_quote_ne (hs : EndsInside s) : runes (s ++ [0x22]) ≠ runes s ++ runes [0x22] := by
  intro h
  rw [runes_append_cons hs (by decide) []] at h
  cases List.append_cancel_left h

/-- A text of characters is decoded to them, whatever follows it. -/
theorem runes_ofChars_append (cs : List Char) (t : Octets) : runes (ofChars cs ++ t) = cs.map Char.toNat ++ runes t := by
  induction cs with
  | nil => rfl
  | cons c cs ih =>
      rw [ofChars_cons, List.append_assoc, runes_of_firstRune (.character c (ofChars cs ++ t)), ih, List.map_cons,
        List.cons_append]

theorem WellFormed.not_endsInside (h : WellFormed s) : ¬EndsInside s := by
  obtain ⟨cs, rfl⟩ := h
  intro hs
  have hempty := runes_ofChars_append cs []
  rw [List.append_nil] at hempty
  refine hs.runes_append_quote_ne ?_
  rw [runes_ofChars_append, hempty, List.append_assoc]
  rfl

/-- What follows where a rune may begin is decoded for itself, whatever it is, just if the last rune in front
of it is not cut off. One that is swallows the octet that ought to begin a rune. -/
theorem runes_append_iff (s : Octets) :
    ((∀ t, Resumes t → runes (s ++ t) = runes s ++ runes t ∧ countRunes (s ++ t) = countRunes s + countRunes t) ↔
        ¬EndsInside s) ∧
      (EndsInside s → ∀ o t, ¬IsContinuation o →
        runes (s ++ o :: t) = runes s ++ runes (t.dropWhile fun b => decide (IsContinuation b))) := by
  refine ⟨⟨?_, ?_⟩, fun hs o t ho => runes_append_cons hs ho t⟩
  · intro h hs
    exact hs.runes_append_quote_ne (h [0x22] (resumes_cons.mpr (by decide))).1
  · intro hs t ht
    have happend := runes_append hs ht
    refine ⟨happend, ?_⟩
    rw [← length_runes, happend, List.length_append, length_runes, length_runes]

/-- A euro sign that is cut off swallows an accented letter. Behind a letter that has been swallowed all goes
on as it should. -/
theorem runes_append_iff_euro :
    (EndsInside [0xE2, 0x82] ∧ runes ([0xE2, 0x82] ++ 0xC3 :: [0xA9, 0x22]) = runes [0xE2, 0x82] ++ runes [0x22]) ∧
      ¬EndsInside [0xC3, 0x41] ∧
        runes ([0xC3, 0x41] ++ [0xC3, 0xA9]) = runes [0xC3, 0x41] ++ runes [0xC3, 0xA9] := by
  have hcut : EndsInside [0xE2, 0x82] :=
    .here ⟨List.cons_ne_nil _ _, Char.ofNat 0x20AC, 0xAC, [], by decide⟩
  have hwhole : ¬EndsInside [0xC3, 0x41] := by
    intro h
    have hlost := (runes_append_iff [0xC3, 0x41]).2 h 0x22 [] (by decide)
    exact absurd hlost (by decide)
  refine ⟨⟨hcut, (runes_append_iff [0xE2, 0x82]).2 hcut 0xC3 [0xA9, 0x22] (by decide)⟩, hwhole, ?_⟩
  exact (((runes_append_iff [0xC3, 0x41]).1.mpr hwhole) [0xC3, 0xA9] (resumes_cons.mpr (by decide))).1

/-- A rune that is cut off swallows a quote, and the first octet of a character. -/
theorem runes_append_ne :
    (Resumes [0x22] ∧ runes ([0xC3] ++ [0x22]) ≠ runes [0xC3] ++ runes [0x22] ∧
        countRunes ([0xC3] ++ [0x22]) ≠ countRunes [0xC3] + countRunes [0x22]) ∧
      Resumes [0xC3, 0xA9] ∧ runes ([0xC3] ++ [0xC3, 0xA9]) ≠ runes [0xC3] ++ runes [0xC3, 0xA9] :=
  ⟨⟨resumes_cons.mpr (by decide), by decide, by decide⟩, resumes_cons.mpr (by decide), by decide⟩

end Peg.Utf8
