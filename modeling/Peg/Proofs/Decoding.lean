import Mathlib.Data.List.TakeWhile
import Peg.Proofs.Automaton
import Peg.Proofs.WellFormed

namespace Peg.Utf8

variable {b o low high : UInt8} {n rune r : Nat} {bs s t u v : Octets}

namespace Tail

theorem exists_of_le (h : low ≤ high) (n rune : Nat) : ∃ bs r, Tail low high n rune bs r := by
  induction n generalizing low high rune with
  | zero => exact ⟨[], rune, nil⟩
  | succ n ih =>
      obtain ⟨bs, r, hbs⟩ := @ih 0x80 0xBF (by decide) (rune * 0x40 + (low.toNat - 0x80))
      exact ⟨low :: bs, r, cons (UInt8.le_refl low) h hbs⟩

theorem uncons (h : Tail low high (n + 1) rune bs r) (hl : 0x80 ≤ low.toNat) (hh : high.toNat ≤ 0xBF) :
    ∃ b rest k, bs = b :: rest ∧ b.toNat = k + 0x80 ∧ k < 0x40 ∧ low.toNat ≤ k + 0x80 ∧ k + 0x80 ≤ high.toNat ∧
      Tail 0x80 0xBF n (rune * 0x40 + k) rest r := by
  cases h with
  | @cons _ _ b _ _ _ rest hlow hhigh h =>
      rw [UInt8.le_iff_toNat_le] at hlow hhigh
      obtain ⟨k, hk⟩ := Nat.exists_eq_add_of_le' (Nat.le_trans hl hlow)
      rw [hk, Nat.add_sub_cancel] at h
      exact ⟨b, rest, k, rfl, hk, by omega, by omega, by omega, h⟩

theorem eq_nil (h : Tail low high 0 rune bs r) : bs = [] ∧ r = rune := by
  cases h
  exact ⟨rfl, rfl⟩

end Tail

section Octets

variable {c b₁ b₂ b₃ : UInt8} {k k₁ k₂ k₃ : Nat}

theorem encodeScalar_two (hn : n = k * 0x40 + k₁) (hk : 2 ≤ k ∧ k < 0x20) (hk₁ : k₁ < 0x40)
    (hc : c.toNat = k + 0xC0) (h₁ : b₁.toNat = k₁ + 0x80) : IsScalar n ∧ encodeScalar n = [c, b₁] := by
  have hle : ¬n < 0x80 := by omega
  have hlt : n < 0x800 := by omega
  refine ⟨isScalar_iff.mpr (by omega), ?_⟩
  rw [encodeScalar, if_neg hle, if_pos hlt, continuation]
  simp only [List.cons.injEq, ← UInt8.toNat_inj, Nat.toUInt8, UInt8.toNat_ofNat', and_true]
  omega

theorem encodeScalar_three (hn : n = (k * 0x40 + k₁) * 0x40 + k₂) (hk : k < 0x10) (hk₁ : k₁ < 0x40)
    (hk₂ : k₂ < 0x40) (hlow : k = 0 → 0x20 ≤ k₁) (hhigh : k = 0xD → k₁ < 0x20) (hc : c.toNat = k + 0xE0)
    (h₁ : b₁.toNat = k₁ + 0x80) (h₂ : b₂.toNat = k₂ + 0x80) : IsScalar n ∧ encodeScalar n = [c, b₁, b₂] := by
  have hle : ¬n < 0x80 := by omega
  have hle' : ¬n < 0x800 := by omega
  have hlt : n < 0x10000 := by omega
  refine ⟨isScalar_iff.mpr (by omega), ?_⟩
  rw [encodeScalar, if_neg hle, if_neg hle', if_pos hlt, continuation, continuation]
  simp only [List.cons.injEq, ← UInt8.toNat_inj, Nat.toUInt8, UInt8.toNat_ofNat', and_true]
  omega

theorem encodeScalar_four (hn : n = ((k * 0x40 + k₁) * 0x40 + k₂) * 0x40 + k₃) (hk : k < 5) (hk₁ : k₁ < 0x40)
    (hk₂ : k₂ < 0x40) (hk₃ : k₃ < 0x40) (hlow : k = 0 → 0x10 ≤ k₁) (hhigh : k = 4 → k₁ < 0x10)
    (hc : c.toNat = k + 0xF0) (h₁ : b₁.toNat = k₁ + 0x80) (h₂ : b₂.toNat = k₂ + 0x80) (h₃ : b₃.toNat = k₃ + 0x80) :
    IsScalar n ∧ encodeScalar n = [c, b₁, b₂, b₃] := by
  have hle : ¬n < 0x80 := by omega
  have hle' : ¬n < 0x800 := by omega
  have hle'' : ¬n < 0x10000 := by omega
  refine ⟨isScalar_iff.mpr (by omega), ?_⟩
  rw [encodeScalar, if_neg hle, if_neg hle', if_neg hle'', continuation, continuation, continuation]
  simp only [List.cons.injEq, ← UInt8.toNat_inj, Nat.toUInt8, UInt8.toNat_ofNat', and_true]
  omega

end Octets

/-- A lead and what is due behind it are a character. -/
theorem exists_encodeChar_of_tail {lead : Lead} (hlead : Lead.ofOctet? b = some lead)
    (h : Tail lead.low lead.high lead.following lead.bits bs r) : ∃ c, String.utf8EncodeChar c = b :: bs := by
  suffices hs : ∃ n, IsScalar n ∧ encodeScalar n = b :: bs by
    obtain ⟨n, hn, he⟩ := hs
    exact ⟨Char.ofNat n, (encodeScalar_eq hn).symm.trans he⟩
  rcases Lead.exists_of_ofOctet? hlead with ⟨hb, rfl⟩ | ⟨k, hb, hk, hk', rfl⟩ | ⟨k, hb, hk, rfl⟩ | ⟨k, hb, hk, rfl⟩
  · rw [h.eq_nil.1]
    refine ⟨b.toNat, isScalar_iff.mpr (by omega), ?_⟩
    rw [encodeScalar, if_pos hb, Nat.toUInt8, UInt8.ofNat_toNat]
  · obtain ⟨b₁, bs, k₁, rfl, h₁, hk₁, -, -, h⟩ := h.uncons (Nat.le_refl _) (Nat.le_refl _)
    rw [h.eq_nil.1]
    exact ⟨_, encodeScalar_two rfl ⟨hk, hk'⟩ hk₁ hb h₁⟩
  · obtain ⟨b₁, bs, k₁, rfl, h₁, hk₁, hlow, hhigh, h⟩ :=
      h.uncons (by dsimp only; split <;> decide) (by dsimp only; split <;> decide)
    obtain ⟨b₂, bs, k₂, rfl, h₂, hk₂, -, -, h⟩ := h.uncons (by decide) (by decide)
    rw [h.eq_nil.1]
    -- The range of the second octet leaves no overlong form behind E0 and no surrogate behind ED.
    refine ⟨_, encodeScalar_three rfl hk hk₁ hk₂ ?_ ?_ hb h₁ h₂⟩
    · rintro rfl
      exact @Nat.le_of_add_le_add_right 0x20 0x80 k₁ hlow
    · rintro rfl
      exact Nat.lt_of_add_lt_add_right (Nat.lt_succ_of_le hhigh)
  · obtain ⟨b₁, bs, k₁, rfl, h₁, hk₁, hlow, hhigh, h⟩ :=
      h.uncons (by dsimp only; split <;> decide) (by dsimp only; split <;> decide)
    obtain ⟨b₂, bs, k₂, rfl, h₂, hk₂, -, -, h⟩ := h.uncons (by decide) (by decide)
    obtain ⟨b₃, bs, k₃, rfl, h₃, hk₃, -, -, h⟩ := h.uncons (by decide) (by decide)
    rw [h.eq_nil.1]
    refine ⟨_, encodeScalar_four rfl hk hk₁ hk₂ hk₃ ?_ ?_ hb h₁ h₂ h₃⟩
    · rintro rfl
      exact @Nat.le_of_add_le_add_right 0x10 0x80 k₁ hlow
    · rintro rfl
      exact Nat.lt_of_add_lt_add_right (Nat.lt_succ_of_le hhigh)

theorem Lead.low_le_high {c : UInt8} {lead : Lead} (h : ofOctet? c = some lead) : lead.low ≤ lead.high := by
  rcases exists_of_ofOctet? h with ⟨-, rfl⟩ | ⟨k, -, -, -, rfl⟩ | ⟨k, -, -, rfl⟩ | ⟨k, -, -, rfl⟩
  · exact (by decide : (0x80 : UInt8) ≤ 0xBF)
  · exact (by decide : (0x80 : UInt8) ≤ 0xBF)
  all_goals
    by_cases hk : k = 0
    · subst hk
      decide
    · dsimp only
      rw [if_neg hk]
      split <;> decide

/-- Such octets begin a character and do not end it. -/
def IsCut (v : Octets) : Prop := v ≠ [] ∧ ∃ c o w, String.utf8EncodeChar c = v ++ o :: w

/-- Up to here it could have become a character, and with this octet it cannot. -/
def Spoils (v : Octets) (o : UInt8) : Prop := (v = [] ∨ IsCut v) ∧ ∀ c, ¬v ++ [o] <+: String.utf8EncodeChar c

/-- How a text begins: the octets of its first rune, that rune, and the rest. -/
inductive FirstRune : Octets → Rune → Octets → Prop where
  | character (c : Char) (t : Octets) : FirstRune (String.utf8EncodeChar c) c.toNat t
  | cut {v : Octets} (h : IsCut v) : FirstRune v replacement []
  | spoiled {v w t : Octets} {o : UInt8} (h : Spoils v o) (hw : ∀ b ∈ w, IsContinuation b) (ht : Resumes t) :
      FirstRune (v ++ o :: w) replacement t

theorem decodeTail_cut {size : Nat} (h : Tail low high n rune (bs ++ b :: s) r) :
    decodeTail low high n rune size bs = ⟨replacement, size + bs.length⟩ := by
  induction bs generalizing low high n rune size with
  | nil =>
      cases h
      rfl
  | cons c bs ih =>
      cases h with
      | cons hl hh h =>
          rw [decodeTail, if_pos ⟨hl, hh⟩, ih h, List.length_cons, Nat.add_right_comm, Nat.add_assoc]

theorem decodeTail_spoiled {size : Nat} (h : Tail low high n rune (bs ++ b :: s) r)
    (ho : ∀ u r', ¬Tail low high n rune (bs ++ o :: u) r') :
    decodeTail low high n rune size (bs ++ o :: t) = resynchronise (size + bs.length + 1) t := by
  induction bs generalizing low high n rune size with
  | nil =>
      cases h with
      | @cons _ _ _ n _ _ _ hl hh h =>
          -- An octet in range would be the next one of some character.
          refine if_neg fun hc => ?_
          obtain ⟨u, r', hu⟩ := Tail.exists_of_le (by decide : (0x80 : UInt8) ≤ 0xBF) n (rune * 0x40 + (o.toNat - 0x80))
          exact ho u r' (.cons hc.1 hc.2 hu)
  | cons c bs ih =>
      cases h with
      | cons hl hh h =>
          rw [List.cons_append, decodeTail, if_pos ⟨hl, hh⟩, ih h fun u r' hu => ho u r' (.cons hl hh hu),
            List.length_cons, Nat.add_right_comm size, Nat.add_assoc size]

theorem IsCut.exists_lead (h : IsCut v) : ∃ b bs c s lead r, v = b :: bs ∧ Lead.ofOctet? b = some lead ∧
    Tail lead.low lead.high lead.following lead.bits (bs ++ c :: s) r := by
  obtain ⟨hv, c, o, w, hc⟩ := h
  obtain ⟨b, bs, rfl⟩ := List.exists_cons_of_ne_nil hv
  obtain ⟨lead, hlead, ht⟩ := exists_lead_of_encodeChar hc
  exact ⟨b, bs, o, w, lead, c.toNat, rfl, hlead, ht⟩

theorem decode_cut (h : IsCut v) : decode v = ⟨replacement, v.length⟩ := by
  obtain ⟨b, bs, c, s, lead, r, rfl, hlead, ht⟩ := h.exists_lead
  rw [decode, hlead, List.length_cons, Nat.add_comm]
  exact decodeTail_cut ht

theorem decode_spoiled (h : Spoils v o) (t : Octets) : decode (v ++ o :: t) = resynchronise (v.length + 1) t := by
  obtain ⟨rfl | hv, ho⟩ := h
  · have hlead : Lead.ofOctet? o = none := by
      -- Every lead begins some character.
      refine Option.eq_none_iff_forall_ne_some.mpr fun lead hlead => ?_
      obtain ⟨bs, r, hbs⟩ := Tail.exists_of_le (Lead.low_le_high hlead) lead.following lead.bits
      obtain ⟨c, hc⟩ := exists_encodeChar_of_tail hlead hbs
      exact ho c (hc ▸ ⟨bs, rfl⟩)
    rw [List.nil_append, decode, hlead]
    rfl
  · obtain ⟨b, bs, c, s, lead, r, rfl, hlead, ht⟩ := hv.exists_lead
    have ho' : ∀ u r', ¬Tail lead.low lead.high lead.following lead.bits (bs ++ o :: u) r' := by
      intro u r' hu
      obtain ⟨d, hd⟩ := exists_encodeChar_of_tail hlead hu
      exact ho d (hd ▸ ⟨u, by simp⟩)
    rw [List.cons_append, decode, hlead, List.length_cons, Nat.add_comm bs.length 1]
    exact decodeTail_spoiled ht ho'

theorem resumes_dropWhile (s : Octets) : Resumes (s.dropWhile fun b => decide (IsContinuation b)) := by
  intro o ho
  have h := List.head?_dropWhile_not (fun b => decide (IsContinuation b)) s
  rw [Option.mem_def.mp ho] at h
  simpa using h

theorem takeWhile_continuation {w t : Octets} (hw : ∀ b ∈ w, IsContinuation b) (ht : Resumes t) :
    (w ++ t).takeWhile (fun b => decide (IsContinuation b)) = w := by
  rw [List.takeWhile_append_of_pos fun b hb => decide_eq_true (hw b hb)]
  cases t with
  | nil => exact List.append_nil w
  | cons o t => rw [List.takeWhile_cons_of_neg (by simpa using resumes_cons.mp ht), List.append_nil]

theorem decode_of_firstRune (h : FirstRune u r t) : decode (u ++ t) = ⟨r, u.length⟩ := by
  cases h with
  | character c => exact decode_encodeChar c t
  | cut h => rw [List.append_nil, decode_cut h]
  | @spoiled v w _ o h hw ht =>
      rw [List.append_assoc, List.cons_append, decode_spoiled h, resynchronise, takeWhile_continuation hw ht,
        List.length_append, List.length_cons, Nat.add_assoc, Nat.add_comm 1]

/-- An octet that spoils a rune, and the continuation octets behind it, are read as one. -/
theorem Spoils.exists_firstRune (h : Spoils v o) (t : Octets) :
    ∃ u, v ++ o :: t = u ++ t.dropWhile (fun b => decide (IsContinuation b)) ∧
      FirstRune u replacement (t.dropWhile fun b => decide (IsContinuation b)) := by
  refine ⟨v ++ o :: t.takeWhile (fun b => decide (IsContinuation b)), ?_, .spoiled h ?_ (resumes_dropWhile t)⟩
  · rw [List.append_assoc, List.cons_append, List.takeWhile_append_dropWhile]
  · intro b hb
    simpa using List.mem_takeWhile_imp hb

/-- Octet by octet a text may go on as a character does, till one is whole, the text ends, or an octet spoils it. -/
theorem exists_firstRune_append (hv : v = [] ∨ IsCut v) (hs : v ++ s ≠ []) :
    ∃ u r t, v ++ s = u ++ t ∧ FirstRune u r t := by
  induction s generalizing v with
  | nil =>
      rw [List.append_nil] at hs ⊢
      exact ⟨v, replacement, [], (List.append_nil v).symm, .cut (hv.resolve_left hs)⟩
  | cons o s ih =>
      by_cases ho : ∃ c, v ++ [o] <+: String.utf8EncodeChar c
      · obtain ⟨c, w, hc⟩ := ho
        have hvo : v ++ o :: s = v ++ [o] ++ s := by rw [List.append_assoc, List.singleton_append]
        cases w with
        | nil =>
            rw [List.append_nil] at hc
            exact ⟨_, _, s, hc ▸ hvo, .character c s⟩
        | cons a w =>
            rw [hvo] at hs ⊢
            exact ih (.inr ⟨by simp, c, a, w, hc.symm⟩) hs
      · obtain ⟨u, hu, h⟩ := Spoils.exists_firstRune ⟨hv, not_exists.mp ho⟩ s
        exact ⟨u, replacement, _, hu, h⟩

theorem exists_firstRune (hs : s ≠ []) : ∃ u r t, s = u ++ t ∧ FirstRune u r t :=
  exists_firstRune_append (v := []) (.inl rfl) hs

/-- Only an octet below 0x80 is read as a number below 0x80. -/
theorem decode_of_rune_lt (h : (decode (b :: s)).rune < 0x80) : decode (b :: s) = ⟨b.toNat, 1⟩ := by
  obtain ⟨u, r, t, hu, hfirst⟩ := exists_firstRune (List.cons_ne_nil b s)
  have hd := decode_of_firstRune hfirst
  rw [hu, hd] at h
  cases hfirst with
  | character c =>
      have hc : String.utf8EncodeChar c = [c.toNat.toUInt8] := by
        rw [← encode_toNat, encode_of_isScalar (isScalar_toNat c), encodeScalar, if_pos h]
      have hlt : c.toNat < 0x80 := h
      have hb : b.toNat = c.toNat := by
        rw [hc, List.singleton_append] at hu
        rw [(List.cons.inj hu).1, Nat.toUInt8, UInt8.toNat_ofNat', Nat.mod_eq_of_lt (by omega)]
      rw [hu, hd, hb, hc, List.length_singleton]
  | cut | spoiled => exact absurd h (by decide : ¬replacement < 0x80)

theorem FirstRune.ne_nil (h : FirstRune u r t) : u ≠ [] := by
  cases h with
  | character c => exact encodeChar_ne_nil c
  | cut h => exact h.1
  | spoiled => exact List.append_ne_nil_of_right_ne_nil _ (List.cons_ne_nil _ _)

/-- What begins with no character begins with U+FFFD, and goes on where a rune may begin. -/
theorem FirstRune.replaced (h : FirstRune u r t) (hc : ∀ c, ¬String.utf8EncodeChar c <+: u ++ t) :
    r = replacement ∧ Resumes t := by
  cases h with
  | character c => exact absurd (List.prefix_append _ _) (hc c)
  | cut => exact ⟨rfl, nofun⟩
  | spoiled h hw ht => exact ⟨rfl, ht⟩

theorem decode_replaced (hs : s ≠ []) (hc : ∀ c, ¬String.utf8EncodeChar c <+: s) :
    (decode s).rune = replacement ∧ Resumes (s.drop (decode s).size) := by
  obtain ⟨u, r, t, rfl, h⟩ := exists_firstRune hs
  obtain ⟨rfl, ht⟩ := h.replaced hc
  rw [decode_of_firstRune h, List.drop_left]
  exact ⟨rfl, ht⟩

theorem encode?_eq_none {n : Nat} : encode? n = none ↔ ¬n.isValidChar := by
  rw [encode?, ite_eq_right_iff, isScalar_iff_isValidChar]
  exact ⟨fun h hn => Option.some_ne_none _ (h hn), fun h hn => absurd hn h⟩

/-- The decoder reads a character where one stands, and else gives up on what cannot become one. So it
inverts the encoder, which encodes all scalar values and nothing else. It is the one with the tables. -/
theorem decode_exact :
    (∀ s c, String.utf8EncodeChar c <+: s → decode s = ⟨c.toNat, (encode c.toNat).length⟩) ∧
      (∀ s, s ≠ [] → (∀ c, ¬String.utf8EncodeChar c <+: s) → (decode s).rune = replacement ∧
        0 < (decode s).size ∧ (decode s).size ≤ s.length ∧ Resumes (s.drop (decode s).size)) ∧
      (∀ (c : Char) (t : Octets), (decode (encode c.toNat ++ t)).rune = c.toNat ∧
        (encode c.toNat ++ t).drop (decode (encode c.toNat ++ t)).size = t) ∧
      (∀ c : Char, encode? c.toNat = some (String.utf8EncodeChar c) ∧ encode c.toNat = String.utf8EncodeChar c) ∧
      (∀ n, (encode? n = none ↔ ¬n.isValidChar) ∧ (¬n.isValidChar → encode n = [0xEF, 0xBF, 0xBD])) ∧
      ∀ s, Automaton.decode s = decode s := by
  refine ⟨?_, ?_, ?_, fun c => ⟨encode?_toNat c, encode_toNat c⟩, ?_, Automaton.decode_eq⟩
  · rintro s c ⟨t, rfl⟩
    rw [decode_encodeChar, encode_toNat]
  · intro s hs hc
    obtain ⟨hr, ht⟩ := decode_replaced hs hc
    exact ⟨hr, size_decode_pos hs, size_decode_le s, ht⟩
  · intro c t
    rw [encode_toNat, decode_encodeChar]
    exact ⟨rfl, List.drop_left⟩
  · intro n
    refine ⟨encode?_eq_none, fun hn => ?_⟩
    rw [encode, encode?_eq_none.mpr hn, Option.getD_none]
    decide

/-- An accented letter is read, whatever stands behind it, and a surrogate is given up. -/
theorem decode_exact_surrogate :
    decode [0xC3, 0xA9, 0x22] = ⟨0xE9, 2⟩ ∧ (decode [0xED, 0xA0, 0x80, 0x41]).rune = replacement ∧
      Resumes ([0xED, 0xA0, 0x80, 0x41].drop (decode [0xED, 0xA0, 0x80, 0x41]).size) := by
  have hnone : ∀ c, ¬String.utf8EncodeChar c <+: [0xED, 0xA0, 0x80, 0x41] := by
    rintro c ⟨t, ht⟩
    have hc : (decode (String.utf8EncodeChar c ++ t)).rune = c.toNat := by rw [decode_encodeChar]
    rw [ht] at hc
    have he := encode_toNat c
    rw [← hc] at he
    rw [← he] at ht
    exact absurd (List.cons.inj ht).1 (by decide)
  obtain ⟨hr, -, -, ht⟩ := decode_exact.2.1 [0xED, 0xA0, 0x80, 0x41] (List.cons_ne_nil _ _) hnone
  exact ⟨decode_exact.1 [0xC3, 0xA9, 0x22] (Char.ofNat 0xE9) ⟨[0x22], by decide⟩, hr, ht⟩

example : decode [0xED, 0xA0, 0x80, 0x41] = ⟨replacement, 3⟩ := by decide

end Peg.Utf8
