import Peg.Expr.Basic
import Peg.Proofs.Decoding

namespace Peg

namespace Utf8

variable {s u v w : Octets} {o : UInt8} {r : Rune}

/-- Such octets are no character, and they are read as one rune. -/
inductive Malformed : Octets → Prop where
  | cut {v : Octets} (h : IsCut v) : Malformed v
  | spoiled {v w : Octets} {o : UInt8} (h : Spoils v o) (hw : ∀ b ∈ w, IsContinuation b) : Malformed (v ++ o :: w)

theorem firstRune_nil : FirstRune s r [] ↔
    (∃ c : Char, c.toNat = r ∧ String.utf8EncodeChar c = s) ∨ r = replacement ∧ Malformed s := by
  constructor
  · intro h
    cases h with
    | character c => exact .inl ⟨c, rfl, rfl⟩
    | cut h => exact .inr ⟨rfl, .cut h⟩
    | spoiled h hw => exact .inr ⟨rfl, .spoiled h hw⟩
  · rintro (⟨c, rfl, rfl⟩ | ⟨rfl, h⟩)
    · exact .character c []
    · cases h with
      | cut h => exact .cut h
      | spoiled h hw => exact .spoiled h hw nofun

theorem IsCut.not_prefix (h : IsCut v) (c : Char) : ¬String.utf8EncodeChar c <+: v := by
  rintro ⟨w, rfl⟩
  obtain ⟨-, d, o, t, hd⟩ := h
  have hd' : String.utf8EncodeChar d ++ [] = String.utf8EncodeChar c ++ (w ++ o :: t) := by
    rw [List.append_nil, hd, List.append_assoc]
  exact List.append_ne_nil_of_right_ne_nil w (List.cons_ne_nil o t) (encodeChar_append_inj hd').2.symm

theorem Spoils.not_prefix (h : Spoils v o) (w : Octets) (c : Char) : ¬String.utf8EncodeChar c <+: v ++ o :: w := by
  intro hc
  have ho : v ++ [o] <+: v ++ o :: w := ⟨w, by rw [List.append_assoc, List.singleton_append]⟩
  rcases List.prefix_or_prefix_of_prefix ho hc with hle | hle
  · exact h.2 c hle
  rcases List.prefix_concat_iff.mp hle with he | hle
  · exact h.2 c (he ▸ List.prefix_refl _)
  rcases h.1 with rfl | hv
  · exact encodeChar_ne_nil c (List.prefix_nil.mp hle)
  · exact hv.not_prefix c hle

theorem Malformed.not_prefix (h : Malformed s) (c : Char) : ¬String.utf8EncodeChar c <+: s := by
  cases h with
  | cut h => exact h.not_prefix c
  | spoiled h => exact h.not_prefix _ c

theorem Malformed.ne_nil (h : Malformed s) : s ≠ [] := by
  cases h with
  | cut h => exact h.1
  | spoiled => exact List.append_ne_nil_of_right_ne_nil _ (List.cons_ne_nil _ _)

theorem WellFormed.not_malformed (h : WellFormed s) : ¬Malformed s := by
  obtain ⟨cs, rfl⟩ := h
  intro h
  cases cs with
  | nil => exact h.ne_nil rfl
  | cons c cs => exact h.not_prefix c ⟨_, (ofChars_cons c cs).symm⟩

end Utf8

namespace Escape

open Utf8

variable {raw text : Octets} {r : Rune}

theorem decodeRune?_of_decode? (h : decode? raw = some text) : decodeRune? raw = some r ↔ FirstRune text r [] := by
  cases text with
  | nil =>
      rw [decodeRune?, h]
      exact ⟨nofun, fun h => absurd rfl h.ne_nil⟩
  | cons c rest =>
      rw [decodeRune?, h]
      dsimp only
      constructor
      · intro hr
        split at hr
        · rename_i hsize
          cases hr
          obtain ⟨u, r, t, hu, hfirst⟩ := exists_firstRune (List.cons_ne_nil c rest)
          rw [hu, decode_of_firstRune hfirst] at hsize
          have ht : t = [] := by
            rw [List.length_append] at hsize
            exact List.eq_nil_of_length_eq_zero (Nat.left_eq_add.mp hsize)
          subst ht
          rw [hu, decode_of_firstRune hfirst, List.append_nil]
          exact hfirst
        · cases hr
      · intro hfirst
        have hd := decode_of_firstRune hfirst
        rw [List.append_nil] at hd
        rw [hd, if_pos rfl]

theorem decodeRune?_eq_some : decodeRune? raw = some r ↔ ∃ text, decode? raw = some text ∧ FirstRune text r [] := by
  cases h : decode? raw with
  | none =>
      rw [decodeRune?, h]
      exact ⟨nofun, nofun⟩
  | some text => simp [decodeRune?_of_decode? h]

theorem decodeRune?_eq_some_iff : decodeRune? raw = some r ↔
    (∃ c : Char, c.toNat = r ∧ decode? raw = some (String.utf8EncodeChar c)) ∨
      r = replacement ∧ ∃ text, decode? raw = some text ∧ Malformed text := by
  rw [decodeRune?_eq_some]
  constructor
  · rintro ⟨text, ht, hr⟩
    rcases firstRune_nil.mp hr with ⟨c, hc, rfl⟩ | ⟨hr, hm⟩
    · exact .inl ⟨c, hc, ht⟩
    · exact .inr ⟨hr, text, ht, hm⟩
  · rintro (⟨c, hc, ht⟩ | ⟨hr, text, ht, hm⟩)
    · exact ⟨_, ht, firstRune_nil.mpr (.inl ⟨c, hc, rfl⟩)⟩
    · exact ⟨text, ht, firstRune_nil.mpr (.inr ⟨hr, hm⟩)⟩

theorem not_malformed_of_wellFormed (hraw : WellFormed raw) (ht : decode? raw = some text) : ¬Malformed text :=
  (wellFormed_decode? hraw ht).not_malformed

theorem exists_char_of_wellFormed (hraw : WellFormed raw) (h : decodeRune? raw = some r) :
    ∃ c : Char, c.toNat = r ∧ decode? raw = some (String.utf8EncodeChar c) := by
  rcases decodeRune?_eq_some_iff.mp h with hc | ⟨-, text, ht, hm⟩
  · exact hc
  · exact absurd hm (not_malformed_of_wellFormed hraw ht)

/-- A literal that denotes one character is taken for it. So is one that denotes a malformed text which is
read as one rune, for U+FFFD. No well-formed literal denotes such a text. -/
theorem decodeRune?_exact (raw : Octets) :
    (∀ r, decodeRune? raw = some r ↔
        (∃ c : Char, c.toNat = r ∧ decode? raw = some (String.utf8EncodeChar c)) ∨
          r = replacement ∧ ∃ text, decode? raw = some text ∧ Malformed text) ∧
      ((∀ r, decodeRune? raw = some r ↔ ∃ c : Char, c.toNat = r ∧ decode? raw = some (String.utf8EncodeChar c)) ↔
        ∀ text, decode? raw = some text → ¬Malformed text) ∧
      (WellFormed raw → ∀ text, decode? raw = some text → ¬Malformed text) := by
  refine ⟨fun r => decodeRune?_eq_some_iff, ⟨?_, ?_⟩, fun hraw text ht => not_malformed_of_wellFormed hraw ht⟩
  · intro h text ht hm
    obtain ⟨c, -, hc⟩ := (h replacement).mp (decodeRune?_eq_some_iff.mpr (.inr ⟨rfl, text, ht, hm⟩))
    rw [ht] at hc
    cases hc
    exact hm.not_prefix c (List.prefix_refl _)
  · intro h r
    rw [decodeRune?_eq_some_iff]
    exact or_iff_left fun ⟨_, text, ht, hm⟩ => h text ht hm

/-- The literal of an accented letter stands for that letter. -/
theorem decodeRune?_exact_accent :
    WellFormed (ascii "\\u\x7be9\x7d") ∧ decodeRune? (ascii "\\u\x7be9\x7d") = some 0xE9 := by
  have hraw : WellFormed (ascii "\\u\x7be9\x7d") := ⟨"\\u\x7be9\x7d".toList, by decide⟩
  have hsome := (decodeRune?_exact (ascii "\\u\x7be9\x7d")).2.1.mpr ((decodeRune?_exact _).2.2 hraw)
  exact ⟨hraw, (hsome 0xE9).mpr ⟨Char.ofNat 0xE9, by decide, by decide⟩⟩

theorem not_exists_char_of_ne (h : decode? raw = some text) (hne : text ≠ encode replacement) :
    ¬∃ c : Char, c.toNat = replacement ∧ decode? raw = some (String.utf8EncodeChar c) := by
  rintro ⟨c, hc, he⟩
  rw [h, ← encode_toNat, hc] at he
  exact hne (Option.some.inj he)

/-- An octet that is none of UTF-8, a surrogate, and a letter behind a lead all pass for U+FFFD. -/
theorem decodeRune?_malformed :
    (decodeRune? [0xFF] = some replacement ∧
        ¬∃ c : Char, c.toNat = replacement ∧ decode? [0xFF] = some (String.utf8EncodeChar c)) ∧
      (decodeRune? [0xED, 0xA0, 0x80] = some replacement ∧
        ¬∃ c : Char, c.toNat = replacement ∧ decode? [0xED, 0xA0, 0x80] = some (String.utf8EncodeChar c)) ∧
      decodeRune? [0xC3, 0x41] = some replacement ∧
        ¬∃ c : Char, c.toNat = replacement ∧ decode? [0xC3, 0x41] = some (String.utf8EncodeChar c) := by
  have hone : decode? [0xFF] = some [0xFF] := by decide
  have hsurrogate : decode? [0xED, 0xA0, 0x80] = some [0xED, 0xA0, 0x80] := by decide
  have hletter : decode? [0xC3, 0x41] = some [0xC3, 0x41] := by decide
  refine ⟨⟨by decide, ?_⟩, ⟨by decide, ?_⟩, by decide, ?_⟩
  · exact not_exists_char_of_ne hone (by decide)
  · exact not_exists_char_of_ne hsurrogate (by decide)
  · exact not_exists_char_of_ne hletter (by decide)

end Escape

open Utf8

/-- The ends of a range that is written in well-formed literals are the characters these denote. -/
theorem RuneRange.exists_chars (r : RuneRange) (hlow : WellFormed r.rawLow) (hhigh : WellFormed r.rawHigh) :
    ∃ c d : Char, (c.toNat = r.low ∧ Escape.decode? r.rawLow = some (String.utf8EncodeChar c)) ∧
      d.toNat = r.high ∧ Escape.decode? r.rawHigh = some (String.utf8EncodeChar d) := by
  obtain ⟨c, hc⟩ := Escape.exists_char_of_wellFormed hlow r.low_decodes
  obtain ⟨d, hd⟩ := Escape.exists_char_of_wellFormed hhigh r.high_decodes
  exact ⟨c, d, hc, hd⟩

end Peg
