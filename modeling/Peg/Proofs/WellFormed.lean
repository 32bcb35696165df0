import Peg.Expr.Basic
import Peg.Proofs.Escapes

namespace Peg

theorem firstOccurrence?_eq_some {t s : Octets} {n : Nat} (h : firstOccurrence? t s = some n) :
    ∃ u v, s = u ++ (t ++ v) ∧ n = u.length := by
  induction s generalizing n with
  | nil =>
      rw [firstOccurrence?] at h
      split at h
      · rename_i ht
        cases h
        exact ⟨[], [], by rw [List.isEmpty_iff.mp ht]; rfl, rfl⟩
      · cases h
  | cons c s ih =>
      rw [firstOccurrence?] at h
      split at h
      · rename_i ht
        cases h
        obtain ⟨v, hv⟩ := List.isPrefixOf_iff_prefix.mp ht
        exact ⟨[], v, hv.symm, rfl⟩
      · obtain ⟨k, hk, rfl⟩ := Option.map_eq_some_iff.mp h
        obtain ⟨u, v, rfl, rfl⟩ := ih hk
        exact ⟨c :: u, v, rfl, rfl⟩

namespace Utf8

/-- Such octets encode characters one behind the other. -/
def WellFormed (s : Octets) : Prop := ∃ cs, s = ofChars cs

variable {s t u : Octets}

theorem WellFormed.append (hs : WellFormed s) (ht : WellFormed t) : WellFormed (s ++ t) := by
  obtain ⟨cs, rfl⟩ := hs
  obtain ⟨ds, rfl⟩ := ht
  exact ⟨cs ++ ds, (ofChars_append cs ds).symm⟩

theorem wellFormed_encodeChar (c : Char) : WellFormed (String.utf8EncodeChar c) :=
  ⟨[c], (List.append_nil _).symm⟩

/-- The first octet of a character says that it is the first one. -/
theorem encodeChar_eq_cons (c : Char) : ∃ b bs, String.utf8EncodeChar c = b :: bs ∧ ¬IsContinuation b ∧
    (b < 0x80 → bs = []) ∧ ∀ o ∈ bs, IsContinuation o := by
  have hc : c.toNat < 0xD800 ∨ 0xDFFF < c.toNat ∧ c.toNat < 0x110000 := c.valid
  have hcont : ∀ k : Nat, IsContinuation (UInt8.ofNat (k % 64 + 0x80)) := by
    intro k
    have hk : (UInt8.ofNat (k % 64 + 0x80)).toNat = k % 64 + 0x80 := by
      rw [UInt8.toNat_ofNat', Nat.mod_eq_of_lt (by omega)]
    simp only [IsContinuation, UInt8.le_iff_toNat_le, hk, UInt8.reduceToNat]
    omega
  have hlead : ∀ k : Nat, 0xC0 ≤ k → k < 0x100 → ¬IsContinuation (UInt8.ofNat k) ∧ ¬UInt8.ofNat k < 0x80 := by
    intro k hk hk'
    have ht : (UInt8.ofNat k).toNat = k := by
      rw [UInt8.toNat_ofNat', Nat.mod_eq_of_lt hk']
    simp only [IsContinuation, UInt8.le_iff_toNat_le, UInt8.lt_iff_toNat_lt, ht, UInt8.reduceToNat]
    omega
  simp only [String.utf8EncodeChar, Char.toNat_val]
  generalize c.toNat = n at hc ⊢
  split
  · have hn : (UInt8.ofNat n).toNat = n := by
      rw [UInt8.toNat_ofNat', Nat.mod_eq_of_lt (by omega)]
    refine ⟨_, [], rfl, ?_, fun _ => rfl, nofun⟩
    simp only [IsContinuation, UInt8.le_iff_toNat_le, hn, UInt8.reduceToNat]
    omega
  · split
    · obtain ⟨hb, hb'⟩ := hlead (n / 64 % 32 + 0xC0) (by omega) (by omega)
      exact ⟨_, _, rfl, hb, fun h => absurd h hb', List.forall_mem_singleton.mpr (hcont _)⟩
    · split
      · obtain ⟨hb, hb'⟩ := hlead (n / 4096 % 16 + 0xE0) (by omega) (by omega)
        exact ⟨_, _, rfl, hb, fun h => absurd h hb',
          List.forall_mem_cons.mpr ⟨hcont _, List.forall_mem_singleton.mpr (hcont _)⟩⟩
      · obtain ⟨hb, hb'⟩ := hlead (n / 262144 % 8 + 0xF0) (by omega) (by omega)
        exact ⟨_, _, rfl, hb, fun h => absurd h hb', List.forall_mem_cons.mpr ⟨hcont _,
          List.forall_mem_cons.mpr ⟨hcont _, List.forall_mem_singleton.mpr (hcont _)⟩⟩⟩

/-- A text goes on where a rune may begin, or it is at its end. -/
def Resumes (s : Octets) : Prop := ∀ o ∈ s.head?, ¬IsContinuation o

theorem resumes_cons {o : UInt8} : Resumes (o :: s) ↔ ¬IsContinuation o := by
  constructor
  · intro h
    exact h o rfl
  · rintro h a ⟨⟩
    exact h

/-- Where a rune may begin, a character ends. -/
theorem ofChars_eq_append {cs : List Char} (h : ofChars cs = u ++ s) (hs : Resumes s) :
    ∃ ds es, cs = ds ++ es ∧ u = ofChars ds ∧ s = ofChars es := by
  induction cs generalizing u with
  | nil =>
      obtain ⟨rfl, rfl⟩ := List.append_eq_nil_iff.mp h.symm
      exact ⟨[], [], rfl, rfl, rfl⟩
  | cons c cs ih =>
      cases u with
      | nil => exact ⟨[], c :: cs, rfl, rfl, h.symm⟩
      | cons o u =>
          obtain ⟨b, bs, hb, _, _, hbs⟩ := encodeChar_eq_cons c
          rw [ofChars_cons] at h
          -- The rest of the first character lies in `u`, for `s` begins with no octet of it.
          have hu : ∃ v, o :: u = String.utf8EncodeChar c ++ v := by
            rcases List.append_eq_append_iff.mp h with ⟨v, hv, _⟩ | ⟨v, hv, hv'⟩
            · exact ⟨v, hv⟩
            · cases v with
              | nil => exact ⟨[], by rw [hv, List.append_nil, List.append_nil]⟩
              | cons a v =>
                  rw [hb, List.cons_append, List.cons.injEq] at hv
                  have ha : a ∈ bs := hv.2 ▸ List.mem_append_right _ List.mem_cons_self
                  exact absurd (hbs a ha) (hs a (by rw [hv', List.cons_append]; rfl))
          obtain ⟨v, hv⟩ := hu
          rw [hv, List.append_assoc, List.append_cancel_left_eq] at h
          obtain ⟨ds, es, rfl, rfl, rfl⟩ := ih h
          exact ⟨c :: ds, es, rfl, hv, rfl⟩

/-- A text of characters occurs only where a character begins, for so does it. -/
theorem firstOccurrence?_ofChars {ts cs : List Char} {n : Nat}
    (h : firstOccurrence? (ofChars ts) (ofChars cs) = some n) :
    ∃ ds es, cs = ds ++ es ∧ n = (ofChars ds).length := by
  cases ts with
  | nil =>
      have h0 : firstOccurrence? (ofChars []) (ofChars cs) = some 0 := by cases ofChars cs <;> rfl
      rw [h0] at h
      cases h
      exact ⟨[], cs, rfl, rfl⟩
  | cons t ts =>
      obtain ⟨u, v, hs, rfl⟩ := firstOccurrence?_eq_some h
      obtain ⟨ds, es, rfl, rfl, -⟩ := ofChars_eq_append hs fun o ho => by
        obtain ⟨b, bs, hb, hfirst, _⟩ := encodeChar_eq_cons t
        rw [ofChars_cons, hb] at ho
        cases ho
        exact hfirst
      exact ⟨ds, es, rfl, rfl⟩

/-- An octet below 0x80 is a character of its own. -/
theorem ofChars_eq_ascii_append {cs : List Char} (h : ofChars cs = u ++ s) (hu : ∀ o ∈ u, o < 0x80) :
    WellFormed s := by
  induction u generalizing cs with
  | nil => exact ⟨cs, h.symm⟩
  | cons o u ih =>
      cases cs with
      | nil => cases h
      | cons c cs =>
          obtain ⟨b, bs, hb, _, hbs, _⟩ := encodeChar_eq_cons c
          rw [ofChars_cons, hb, List.cons_append, List.cons_append, List.cons.injEq] at h
          obtain ⟨rfl, h⟩ := h
          obtain ⟨ho, hu⟩ := List.forall_mem_cons.mp hu
          rw [hbs ho, List.nil_append] at h
          exact ih h hu

theorem wellFormed_singleton {o : UInt8} (h : o < 0x80) : WellFormed [o] := by
  have hn : o.toNat < 0x80 := UInt8.lt_iff_toNat_lt.mp h
  have hs : IsScalar o.toNat :=
    ⟨Nat.lt_trans hn (by decide), fun h => absurd h.1 (Nat.not_le_of_lt (Nat.lt_trans hn (by decide)))⟩
  have he := encodeScalar_eq hs
  rw [encodeScalar, if_pos hn, Nat.toUInt8, UInt8.ofNat_toNat] at he
  rw [he]
  exact wellFormed_encodeChar _

end Utf8

namespace Escape

open Utf8

variable {s t u raw text : Octets}

/-- An escape is written in ASCII, and what it denotes is well-formed. -/
theorem Denotes.plain_or_wellFormed (h : Denotes u t) :
    (∃ c, c ≠ backslash ∧ u = [c]) ∨ (∀ o ∈ u, o < 0x80) ∧ WellFormed t := by
  cases h with
  | @plain c h => exact .inl ⟨c, h, rfl⟩
  | letter h =>
      have hall : ∀ p ∈ letters, p.1.toUInt8 < 0x80 ∧ p.2.toUInt8 < 0x80 := by decide
      obtain ⟨hc, hd⟩ := hall _ h
      exact .inr ⟨List.forall_mem_cons.mpr ⟨by decide, List.forall_mem_singleton.mpr hc⟩, wellFormed_singleton hd⟩
  | @pair digits c _ h =>
      exact .inr ⟨List.forall_mem_cons.mpr ⟨by decide, List.forall_mem_cons.mpr ⟨by decide, h.ascii⟩⟩,
        wellFormed_encodeChar c⟩
  | @braced digits c _ h =>
      have hdigits : ∀ o ∈ digits ++ [closeBrace], o < 0x80 :=
        List.forall_mem_append.mpr ⟨h.ascii, List.forall_mem_singleton.mpr (by decide)⟩
      exact .inr ⟨List.forall_mem_cons.mpr ⟨by decide, List.forall_mem_cons.mpr ⟨by decide,
        List.forall_mem_cons.mpr ⟨by decide, hdigits⟩⟩⟩, wellFormed_encodeChar c⟩

theorem decode?_append {u : Octets} (h : ∀ c ∈ u, c ≠ backslash) (s : Octets) :
    decode? (u ++ s) = (decode? s).map (u ++ ·) := by
  induction u with
  | nil => simp
  | cons c u ih =>
      obtain ⟨hc, hu⟩ := List.forall_mem_cons.mp h
      rw [← List.singleton_append, List.append_assoc, decode?_append_of_denotes (.plain hc), ih hu, Option.map_map]
      rfl

theorem length_lt_of_append {v r : Octets} (h : s = v ++ r) (hv : v ≠ []) : r.length < s.length := by
  have hl := List.length_pos_iff.mpr hv
  rw [h, List.length_append]
  omega

/-- A character that is no backslash denotes itself, and a backslash begins an escape. -/
theorem decode?_cons {c : Char} {cs : List Char} (h : decode? (ofChars (c :: cs)) = some text) :
    ∃ v r t t', ofChars (c :: cs) = v ++ r ∧ v ≠ [] ∧ WellFormed r ∧ WellFormed t ∧ decode? r = some t' ∧
      text = t ++ t' := by
  obtain ⟨b, bs, hb, _, hascii, hrest⟩ := encodeChar_eq_cons c
  by_cases he : b = backslash
  · subst he
    have hs : ofChars (c :: cs) = backslash :: ofChars cs := by rw [ofChars_cons, hb, hascii (by decide)]; rfl
    obtain ⟨v, r, t, t', hv, hu, ht', rfl⟩ := exists_denotes_of_decode? (hs ▸ List.cons_ne_nil _ _) h
    rcases hu.plain_or_wellFormed with ⟨o, ho, rfl⟩ | ⟨ha, ht⟩
    · exact absurd (List.cons.inj (hs.symm.trans hv)).1.symm ho
    · exact ⟨v, r, t, t', hv, hu.ne_nil, ofChars_eq_ascii_append hv ha, ht, ht', rfl⟩
  · have hplain : ∀ o ∈ String.utf8EncodeChar c, o ≠ backslash := by
      rw [hb]
      refine List.forall_mem_cons.mpr ⟨he, ?_⟩
      rintro o ho rfl
      exact absurd (hrest _ ho) (by decide)
    rw [ofChars_cons, decode?_append hplain] at h
    obtain ⟨t', ht, rfl⟩ := Option.map_eq_some_iff.mp h
    exact ⟨_, _, _, t', ofChars_cons c cs, encodeChar_ne_nil c, ⟨cs, rfl⟩, wellFormed_encodeChar c, ht, rfl⟩

/-- What is well-formed denotes something well-formed, or nothing. -/
theorem wellFormed_decode? (hr : WellFormed raw) (h : decode? raw = some text) : WellFormed text := by
  induction hn : raw.length using Nat.strongRecOn generalizing raw text with
  | ind n ih =>
      subst hn
      obtain ⟨cs, rfl⟩ := hr
      cases cs with
      | nil =>
          cases h
          exact ⟨[], rfl⟩
      | cons c cs =>
          obtain ⟨v, r, t, t', hv, hne, hr, ht, ht', rfl⟩ := decode?_cons h
          exact ht.append (ih r.length (length_lt_of_append hv hne) hr ht' rfl)

end Escape

end Peg
