import Peg.Proofs.Matchers

namespace Peg

/-- What holds of the 256 octets holds of every octet. -/
theorem forall_octet {p : UInt8 → Prop} (h : ∀ i < 256, p (UInt8.ofNat i)) (c : UInt8) : p c := by
  have hc := h c.toNat c.toNat_lt
  rwa [UInt8.ofNat_toNat] at hc

namespace Utf8

/-- The octets that encode some characters. What encodes characters is exactly what is well-formed. -/
def ofChars (cs : List Char) : Octets := cs.flatMap String.utf8EncodeChar

theorem Lead.ofOctet?_two {n : Nat} (hl : 2 ≤ n) (hh : n < 0x20) :
    ofOctet? (UInt8.ofNat (n + 0xC0)) = some { bits := n, following := 1 } := by
  have hn : (UInt8.ofNat (n + 0xC0)).toNat = n + 0xC0 := by
    rw [UInt8.toNat_ofNat', Nat.mod_eq_of_lt (by omega)]
  simp only [ofOctet?, UInt8.lt_iff_toNat_lt, hn, UInt8.reduceToNat]
  rw [if_neg (by omega), if_neg (by omega), if_pos (by omega), Nat.add_sub_cancel]

theorem Lead.ofOctet?_three {n : Nat} (hh : n < 0x10) :
    ofOctet? (UInt8.ofNat (n + 0xE0)) = some
      { bits := n, following := 2, low := if n = 0 then 0xA0 else 0x80,
        high := if n = 0xD then 0x9F else 0xBF } := by
  have hn : (UInt8.ofNat (n + 0xE0)).toNat = n + 0xE0 := by
    rw [UInt8.toNat_ofNat', Nat.mod_eq_of_lt (by omega)]
  simp only [ofOctet?, UInt8.lt_iff_toNat_lt, ← UInt8.toNat_inj, hn, UInt8.reduceToNat]
  rw [if_neg (by omega), if_neg (by omega), if_neg (by omega)]
  by_cases h0 : n = 0
  · subst h0
    rfl
  · rw [if_neg (by omega), if_neg h0]
    by_cases hD : n = 0xD
    · subst hD
      rfl
    · rw [if_neg (by omega), if_pos (by omega), if_neg hD, Nat.add_sub_cancel]

theorem Lead.ofOctet?_four {n : Nat} (hh : n < 5) :
    ofOctet? (UInt8.ofNat (n + 0xF0)) = some
      { bits := n, following := 3, low := if n = 0 then 0x90 else 0x80,
        high := if n = 4 then 0x8F else 0xBF } := by
  match n, hh with
  | 0, _ | 1, _ | 2, _ | 3, _ | 4, _ => rfl

/-- The four kinds of leads. -/
theorem Lead.exists_of_ofOctet? {c : UInt8} {lead : Lead} (h : ofOctet? c = some lead) :
    (c.toNat < 0x80 ∧ lead = { bits := c.toNat, following := 0 }) ∨
    (∃ k, c.toNat = k + 0xC0 ∧ 2 ≤ k ∧ k < 0x20 ∧ lead = { bits := k, following := 1 }) ∨
    (∃ k, c.toNat = k + 0xE0 ∧ k < 0x10 ∧ lead =
      { bits := k, following := 2, low := if k = 0 then 0xA0 else 0x80, high := if k = 0xD then 0x9F else 0xBF }) ∨
    (∃ k, c.toNat = k + 0xF0 ∧ k < 5 ∧ lead =
      { bits := k, following := 3, low := if k = 0 then 0x90 else 0x80, high := if k = 4 then 0x8F else 0xBF }) := by
  have hc := c.toNat_lt
  have hk : ∀ m k, c.toNat = k + m → c = UInt8.ofNat (k + m) := fun m k hk => by rw [← hk, UInt8.ofNat_toNat]
  by_cases h1 : c.toNat < 0x80
  · rw [ofOctet?, if_pos (UInt8.lt_iff_toNat_lt.mpr h1)] at h
    exact .inl ⟨h1, (Option.some.inj h).symm⟩
  by_cases h2 : c.toNat < 0xC2
  · rw [ofOctet?, if_neg (mt UInt8.lt_iff_toNat_lt.mp h1), if_pos (UInt8.lt_iff_toNat_lt.mpr h2)] at h
    cases h
  by_cases h3 : c.toNat < 0xE0
  · obtain ⟨k, hck⟩ := Nat.exists_eq_add_of_le' (show 0xC0 ≤ c.toNat by omega)
    rw [hk _ _ hck, ofOctet?_two (by omega) (by omega)] at h
    exact .inr (.inl ⟨k, hck, by omega, by omega, (Option.some.inj h).symm⟩)
  by_cases h4 : c.toNat < 0xF0
  · obtain ⟨k, hck⟩ := Nat.exists_eq_add_of_le' (show 0xE0 ≤ c.toNat by omega)
    rw [hk _ _ hck, ofOctet?_three (by omega)] at h
    exact .inr (.inr (.inl ⟨k, hck, by omega, (Option.some.inj h).symm⟩))
  by_cases h5 : c.toNat < 0xF5
  · obtain ⟨k, hck⟩ := Nat.exists_eq_add_of_le' (show 0xF0 ≤ c.toNat by omega)
    rw [hk _ _ hck, ofOctet?_four (by omega)] at h
    exact .inr (.inr (.inr ⟨k, hck, by omega, (Option.some.inj h).symm⟩))
  · simp only [ofOctet?, UInt8.lt_iff_toNat_lt, ← UInt8.toNat_inj, UInt8.reduceToNat] at h
    grind

/-- The octets that are due behind a lead, the first of them in its own range. They take the rune that has
been read to another one. -/
inductive Tail : UInt8 → UInt8 → Nat → Nat → Octets → Nat → Prop where
  | nil {low high : UInt8} {rune : Nat} : Tail low high 0 rune [] rune
  | cons {low high c : UInt8} {n rune r : Nat} {s : Octets} (hl : low ≤ c) (hh : c ≤ high)
      (h : Tail 0x80 0xBF n (rune * 0x40 + (c.toNat - 0x80)) s r) : Tail low high (n + 1) rune (c :: s) r

section Tail

variable {low high : UInt8} {n rune r k : Nat} {s : Octets}

theorem Tail.bits (hk : k < 0x40) (hl : low.toNat ≤ k + 0x80) (hh : k + 0x80 ≤ high.toNat)
    (h : Tail 0x80 0xBF n (rune * 0x40 + k) s r) : Tail low high (n + 1) rune (UInt8.ofNat (k + 0x80) :: s) r := by
  have hn : (UInt8.ofNat (k + 0x80)).toNat = k + 0x80 := by
    rw [UInt8.toNat_ofNat', Nat.mod_eq_of_lt (by omega)]
  have hbits : (UInt8.ofNat (k + 0x80)).toNat - 0x80 = k := by rw [hn, Nat.add_sub_cancel]
  rw [← hn] at hl hh
  exact .cons (UInt8.le_iff_toNat_le.mpr hl) (UInt8.le_iff_toNat_le.mpr hh) (hbits.symm ▸ h)

theorem Tail.more (hk : k < 0x40) (h : Tail 0x80 0xBF n (rune * 0x40 + k) s r) :
    Tail 0x80 0xBF (n + 1) rune (UInt8.ofNat (k + 0x80) :: s) r :=
  h.bits hk (Nat.le_add_left _ _) (Nat.add_le_add_right (Nat.le_of_lt_succ hk) _)

theorem decodeTail_of_tail (h : Tail low high n rune s r) (size : Nat) (t : Octets) :
    decodeTail low high n rune size (s ++ t) = ⟨r, size + s.length⟩ := by
  induction h generalizing size with
  | nil => rfl
  | cons hl hh _ ih =>
      rw [List.cons_append, decodeTail, if_pos ⟨hl, hh⟩, ih, List.length_cons, Nat.add_right_comm, Nat.add_assoc]

end Tail

/-- The first octet of a character announces the others. -/
theorem exists_lead_of_encodeChar {c : Char} {b : UInt8} {bs : Octets} (h : String.utf8EncodeChar c = b :: bs) :
    ∃ lead, Lead.ofOctet? b = some lead ∧ Tail lead.low lead.high lead.following lead.bits bs c.toNat := by
  have hc : c.toNat < 0xD800 ∨ 0xDFFF < c.toNat ∧ c.toNat < 0x110000 := c.valid
  simp only [String.utf8EncodeChar, Char.toNat_val] at h
  generalize c.toNat = n at hc h ⊢
  have hmod : ∀ m : Nat, m % 64 < 0x40 := fun m => Nat.mod_lt m (by decide)
  split at h
  · obtain ⟨rfl, rfl⟩ := List.cons.inj h
    have hn : (UInt8.ofNat n).toNat = n := by
      rw [UInt8.toNat_ofNat', Nat.mod_eq_of_lt (by omega)]
    refine ⟨{ bits := n, following := 0 }, ?_, .nil⟩
    simp only [Lead.ofOctet?, UInt8.lt_iff_toNat_lt, hn, UInt8.reduceToNat]
    rw [if_pos (by omega)]
  split at h
  · obtain ⟨rfl, rfl⟩ := List.cons.inj h
    have hrune : n / 64 % 32 * 64 + n % 64 = n := by omega
    refine ⟨_, Lead.ofOctet?_two (by omega) (by omega), .more (hmod n) ?_⟩
    dsimp only
    rw [hrune]
    exact .nil
  split at h
  · obtain ⟨rfl, rfl⟩ := List.cons.inj h
    have hrune : (n / 4096 % 16 * 64 + n / 64 % 64) * 64 + n % 64 = n := by omega
    refine ⟨_, Lead.ofOctet?_three (by omega), .bits (hmod _) ?_ ?_ (.more (hmod n) ?_)⟩
    · dsimp only
      split <;> simp
      omega
    · dsimp only
      split <;> simp <;> omega
    · dsimp only
      rw [hrune]
      exact .nil
  · obtain ⟨rfl, rfl⟩ := List.cons.inj h
    have hrune : ((n / 262144 % 8 * 64 + n / 4096 % 64) * 64 + n / 64 % 64) * 64 + n % 64 = n := by omega
    refine ⟨_, Lead.ofOctet?_four (by omega), .bits (hmod _) ?_ ?_ (.more (hmod _) (.more (hmod n) ?_))⟩
    · dsimp only
      split <;> simp
      omega
    · dsimp only
      split <;> simp <;> omega
    · dsimp only
      rw [hrune]
      exact .nil

theorem length_encodeChar_pos (c : Char) : 0 < (String.utf8EncodeChar c).length := by
  rw [String.length_utf8EncodeChar]
  exact c.utf8Size_pos

theorem encodeChar_ne_nil (c : Char) : String.utf8EncodeChar c ≠ [] :=
  List.ne_nil_of_length_pos (length_encodeChar_pos c)

/-- A character is decoded from what encodes it, whatever follows. -/
theorem decode_encodeChar (c : Char) (s : Octets) :
    decode (String.utf8EncodeChar c ++ s) = ⟨c.toNat, (String.utf8EncodeChar c).length⟩ := by
  obtain ⟨b, bs, hb⟩ := List.exists_cons_of_ne_nil (encodeChar_ne_nil c)
  obtain ⟨lead, hlead, ht⟩ := exists_lead_of_encodeChar hb
  rw [hb, List.cons_append, decode, hlead, List.length_cons, Nat.add_comm bs.length]
  exact decodeTail_of_tail ht 1 s

theorem isScalar_iff {n : Nat} : IsScalar n ↔ n < 0x110000 ∧ ¬(0xD800 ≤ n ∧ n < 0xE000) := Iff.rfl

theorem isScalar_iff_isValidChar {n : Nat} : IsScalar n ↔ n.isValidChar := by
  rw [isScalar_iff, Nat.isValidChar]
  omega

theorem toNat_ofNat {n : Nat} (h : IsScalar n) : (Char.ofNat n).toNat = n := by
  rw [Char.toNat, Char.ofNat, dif_pos (isScalar_iff_isValidChar.mp h)]
  rfl

theorem encodeScalar_eq {n : Nat} (h : IsScalar n) : encodeScalar n = String.utf8EncodeChar (Char.ofNat n) := by
  have hl : n < 0x110000 := h.1
  have hn := toNat_ofNat h
  simp only [encodeScalar, continuation, String.utf8EncodeChar, Char.toNat_val, hn, Nat.toUInt8]
  by_cases h1 : n < 128
  · have h1' : n ≤ 127 := by omega
    rw [if_pos h1, if_pos h1']
  have h1' : ¬n ≤ 127 := by omega
  rw [if_neg h1, if_neg h1']
  by_cases h2 : n < 2048
  · have h2' : n ≤ 2047 := by omega
    have hd : n / 64 % 32 + 192 = 192 + n / 64 := by omega
    rw [if_pos h2, if_pos h2', hd, Nat.add_comm 128]
  have h2' : ¬n ≤ 2047 := by omega
  rw [if_neg h2, if_neg h2']
  by_cases h3 : n < 65536
  · have h3' : n ≤ 65535 := by omega
    have hd : n / 4096 % 16 + 224 = 224 + n / 4096 := by omega
    rw [if_pos h3, if_pos h3', hd, Nat.add_comm 128, Nat.add_comm 128]
  · have h3' : ¬n ≤ 65535 := by omega
    have hd : n / 262144 % 8 + 240 = 240 + n / 262144 := by omega
    rw [if_neg h3, if_neg h3', hd, Nat.add_comm 128, Nat.add_comm 128, Nat.add_comm 128]

theorem isScalar_toNat (c : Char) : IsScalar c.toNat := isScalar_iff_isValidChar.mpr c.valid

theorem encode?_toNat (c : Char) : encode? c.toNat = some (String.utf8EncodeChar c) := by
  rw [encode?, if_pos (isScalar_toNat c), encodeScalar_eq (isScalar_toNat c), Char.ofNat_toNat]

theorem encode_toNat (c : Char) : encode c.toNat = String.utf8EncodeChar c := by
  rw [encode, encode?_toNat, Option.getD_some]

theorem encode?_eq_some {n : Nat} {t : Octets} :
    encode? n = some t ↔ ∃ c : Char, c.toNat = n ∧ String.utf8EncodeChar c = t := by
  constructor
  · intro h
    by_cases hn : IsScalar n
    · rw [encode?, if_pos hn, encodeScalar_eq hn] at h
      exact ⟨Char.ofNat n, toNat_ofNat hn, Option.some.inj h⟩
    · rw [encode?, if_neg hn] at h
      cases h
  · rintro ⟨c, rfl, rfl⟩
    exact encode?_toNat c

theorem encodeChar_append_inj {c d : Char} {s t : Octets}
    (h : String.utf8EncodeChar c ++ s = String.utf8EncodeChar d ++ t) : c = d ∧ s = t := by
  have hd := congrArg (fun u => (decode u).rune) h
  simp only [decode_encodeChar] at hd
  have hcd := Char.toNat_inj.mp hd
  subst hcd
  exact ⟨rfl, List.append_cancel_left h⟩

@[simp] theorem ofChars_nil : ofChars [] = [] := rfl

@[simp] theorem ofChars_cons (c : Char) (cs : List Char) :
    ofChars (c :: cs) = String.utf8EncodeChar c ++ ofChars cs :=
  List.flatMap_cons

theorem ofChars_singleton (c : Char) : ofChars [c] = String.utf8EncodeChar c := List.append_nil _

@[simp] theorem ofChars_append (cs ds : List Char) : ofChars (cs ++ ds) = ofChars cs ++ ofChars ds :=
  List.flatMap_append

theorem ofChars_eq_nil {cs : List Char} : ofChars cs = [] ↔ cs = [] := by
  cases cs with
  | nil => simp
  | cons c cs => simp

theorem length_le_ofChars {cs : List Char} : cs.length ≤ (ofChars cs).length := by
  induction cs with
  | nil => exact Nat.le_refl _
  | cons c cs ih =>
      have hc := length_encodeChar_pos c
      rw [List.length_cons, ofChars_cons, List.length_append]
      omega

/-- No character's encoding begins another's, so that prefixes are found octet by octet. -/
theorem ofChars_prefix {cs ds : List Char} : ofChars cs <+: ofChars ds ↔ cs <+: ds := by
  induction cs generalizing ds with
  | nil => simp
  | cons c cs ih =>
      cases ds with
      | nil => simp
      | cons d ds =>
          rw [List.cons_prefix_cons, ← ih, ofChars_cons, ofChars_cons]
          constructor
          · rintro ⟨t, ht⟩
            rw [List.append_assoc] at ht
            obtain ⟨hc, ht⟩ := encodeChar_append_inj ht
            exact ⟨hc, t, ht⟩
          · rintro ⟨rfl, h⟩
            exact (List.prefix_append_right_inj _).mpr h

theorem foldedPrefixAtMost_succ {n : Nat} {s t : Octets} (hs : s ≠ []) (ht : t ≠ []) :
    foldedPrefixAtMost (n + 1) s t =
      if fold (decode s).rune = fold (decode t).rune then
        (foldedPrefixAtMost n (s.drop (decode s).size) (t.drop (decode t).size)).map ((decode s).size + ·)
      else none := by
  obtain ⟨c, s, rfl⟩ := List.exists_cons_of_ne_nil hs
  obtain ⟨d, t, rfl⟩ := List.exists_cons_of_ne_nil ht
  rfl

/-- Folded texts are compared character by character. -/
theorem foldedPrefixAtMost_ofChars {n : Nat} {cs ds : List Char} (hn : ds.length ≤ n) :
    foldedPrefixAtMost n (ofChars cs) (ofChars ds) =
      if (cs.take ds.length).map (fold ·.toNat) = ds.map (fold ·.toNat) then
        some (ofChars (cs.take ds.length)).length
      else none := by
  induction ds generalizing n cs with
  | nil =>
      simp only [ofChars_nil, foldedPrefixAtMost, List.length_nil, List.take_zero, List.map_nil, if_true]
  | cons d ds ih =>
      obtain ⟨n, rfl⟩ : ∃ k, n = k + 1 := Nat.exists_eq_succ_of_ne_zero (by rw [List.length_cons] at hn; omega)
      have hds : ofChars (d :: ds) ≠ [] := by simp
      cases cs with
      | nil =>
          obtain ⟨o, os, ho⟩ := List.exists_cons_of_ne_nil hds
          rw [ho]
          simp only [ofChars_nil, foldedPrefixAtMost, List.take_nil, List.map_nil, List.map_cons, reduceCtorEq,
            if_false]
      | cons c cs =>
          have hcs : ofChars (c :: cs) ≠ [] := by simp
          rw [foldedPrefixAtMost_succ hcs hds]
          simp only [ofChars_cons, decode_encodeChar, List.drop_left, List.length_cons, List.take_succ_cons,
            List.map_cons, List.cons.injEq, ih (Nat.le_of_succ_le_succ hn), List.length_append]
          split <;> rename_i hc
          · simp only [hc, true_and]
            split <;> rfl
          · rw [if_neg fun h => hc h.1]

theorem fold_eq_e {r : Nat} (h : fold r = 0x65) : r = 0x65 ∨ r = 0x45 := by
  simp only [fold] at h
  grind

end Utf8

/-- From an offset on, the subject encodes the given characters. -/
def Subject.Holds (x : Subject) (p : Nat) (cs : List Char) : Prop :=
  p ≤ x.size ∧ x.after p = Utf8.ofChars cs

namespace Subject.Holds

variable {x : Subject} {p q : Nat} {cs ds : List Char}

theorem ofChars (cs : List Char) : (ofOctets (Utf8.ofChars cs)).Holds 0 cs :=
  ⟨Nat.zero_le _, by rw [after_eq]; rfl⟩

theorem size_eq (h : x.Holds p cs) : x.size = p + (Utf8.ofChars cs).length := by
  have hl := x.length_after p
  rw [h.2] at hl
  have hp := h.1
  omega

theorem drop (h : x.Holds p (cs ++ ds)) : x.Holds (p + (Utf8.ofChars cs).length) ds := by
  have hs := h.size_eq
  have ha := h.2
  rw [x.after_eq] at ha
  rw [Utf8.ofChars_append] at ha hs
  rw [List.length_append] at hs
  refine ⟨by omega, ?_⟩
  rw [x.after_eq, Nat.add_comm, Nat.add_comm, ← List.drop_drop, ha, List.drop_left]

theorem next {c : Char} (h : x.Holds p (c :: cs)) : x.Holds (p + (Utf8.ofChars [c]).length) cs := @drop x p [c] cs h

theorem slice (h : x.Holds p (cs ++ ds)) : x.slice ⟨p, p + (Utf8.ofChars cs).length⟩ = Utf8.ofChars cs := by
  rw [slice_add, h.2, Utf8.ofChars_append, List.take_left]

/-- Whoever moves on leaves less behind. -/
theorem length_pos (h : x.Holds p (cs ++ ds)) (h' : x.Holds q ds) (hq : p < q) : 0 < cs.length := by
  have hs := h.size_eq
  have hs' := h'.size_eq
  refine List.length_pos_iff.mpr ?_
  rintro rfl
  rw [List.nil_append] at hs
  omega

theorem text (h : x.Holds p cs) (t : List Char) :
    x.text (Utf8.ofChars t) p = if t <+: cs then .matched (p + (Utf8.ofChars t).length) else .failed p := by
  simp only [Subject.text, List.isPrefixOf_iff_prefix, h.2, Utf8.ofChars_prefix]

theorem runeIn_nil (h : x.Holds p []) (low high : Rune) : x.runeIn low high p = .failed p := by
  simp only [runeIn, h.2, Utf8.ofChars_nil]

theorem runeIn_cons {c : Char} (h : x.Holds p (c :: cs)) (low high : Rune) :
    x.runeIn low high p =
      if low ≤ c.toNat ∧ c.toNat ≤ high then .matched (p + (Utf8.ofChars [c]).length) else .failed p := by
  have ha : x.after p = String.utf8EncodeChar c ++ Utf8.ofChars cs := h.2
  obtain ⟨o, os, ho⟩ := List.exists_cons_of_ne_nil (Utf8.encodeChar_ne_nil c)
  have hd := Utf8.decode_encodeChar c (Utf8.ofChars cs)
  rw [ho, List.cons_append] at ha hd
  simp only [runeIn, ha, hd, Utf8.ofChars_singleton, ho]

theorem skip_one_nil (h : x.Holds p []) : x.skip 1 p = .failed p := by
  simp only [skip, forward?, h.2, Utf8.ofChars_nil]

theorem skip_one_cons {c : Char} (h : x.Holds p (c :: cs)) :
    x.skip 1 p = .matched (p + (Utf8.ofChars [c]).length) := by
  have ha : x.after p = String.utf8EncodeChar c ++ Utf8.ofChars cs := h.2
  obtain ⟨o, os, ho⟩ := List.exists_cons_of_ne_nil (Utf8.encodeChar_ne_nil c)
  have hd := Utf8.decode_encodeChar c (Utf8.ofChars cs)
  rw [ho, List.cons_append] at ha hd
  simp only [skip, forward?, ha, hd, Utf8.ofChars_singleton, ho]

theorem foldedText (h : x.Holds p cs) (t : List Char) :
    x.foldedText (Utf8.ofChars t) p =
      if (cs.take t.length).map (Utf8.fold ·.toNat) = t.map (Utf8.fold ·.toNat) then
        .matched (p + (Utf8.ofChars (cs.take t.length)).length)
      else .failed p := by
  simp only [Subject.foldedText, Utf8.foldedPrefix?, h.2, Utf8.foldedPrefixAtMost_ofChars Utf8.length_le_ofChars]
  split <;> split <;> simp_all

end Subject.Holds

end Peg
