import Mathlib.Data.List.Forall2
import Mathlib.Data.List.TakeWhile
import Mathlib.Data.Nat.Digits.Defs
import Peg.Proofs.Utf8
import Peg.Text.Escape

namespace Peg.Escape

open Utf8

variable {raw s t w digits : Octets} {c : UInt8} {d n : Nat}

/-- Each digit stands where its value says. The higher ones are small or capital letters. -/
def HexDigit (c : UInt8) (d : Nat) : Prop :=
  (ascii "0123456789abcdef")[d]? = some c ∨ (ascii "0123456789ABCDEF")[d]? = some c

/-- Digits that write a number, the highest one first. -/
def HexNumeral (digits : Octets) (n : Nat) : Prop :=
  ∃ ds, List.Forall₂ HexDigit digits ds ∧ n = Nat.ofDigits 16 ds.reverse

/-- The characters that may follow a backslash, and what they stand for there. -/
def letters : List (Char × Char) :=
  [('"', '"'), ('\\', '\\'), ('r', '\r'), ('n', '\n'), ('t', '\t'), ('0', Char.ofNat 0),
    (Char.ofNat 0x27, Char.ofNat 0x27)]

/-- The units of an escaped text, and what each of them denotes. -/
inductive Denotes : Octets → Octets → Prop where
  | plain {c : UInt8} (h : c ≠ backslash) : Denotes [c] [c]
  | letter {c d : Char} (h : (c, d) ∈ letters) : Denotes [backslash, c.toUInt8] [d.toUInt8]
  | pair {digits : Octets} {c : Char} (hl : digits.length = 2) (h : HexNumeral digits c.toNat) :
      Denotes (backslash :: 'x'.toUInt8 :: digits) (String.utf8EncodeChar c)
  | braced {digits : Octets} {c : Char} (hl : 2 ≤ digits.length ∧ digits.length ≤ 6)
      (h : HexNumeral digits c.toNat) :
      Denotes (backslash :: 'u'.toUInt8 :: openBrace :: (digits ++ [closeBrace])) (String.utf8EncodeChar c)

/-- The text is these units one behind the other. Each stands with what it denotes. -/
structure Splits (raw : Octets) (parts : List (Octets × Octets)) : Prop where
  denotes : ∀ p ∈ parts, Denotes p.1 p.2
  raw_eq : raw = parts.flatMap Prod.fst

section Digits

theorem hexDigit?_eq_some : hexDigit? c = some d ↔ HexDigit c d := by
  constructor
  · intro h
    have hall : ∀ i < 256, ∀ d ∈ hexDigit? (UInt8.ofNat i), (ascii "0123456789abcdef")[d]? = some (UInt8.ofNat i) ∨
        (ascii "0123456789ABCDEF")[d]? = some (UInt8.ofNat i) := by decide +kernel
    exact forall_octet (p := fun c => ∀ d ∈ hexDigit? c, HexDigit c d) hall c d h
  · have hsmall : ∀ d < 16, hexDigit? ((ascii "0123456789abcdef").getD d 0) = some d := by decide
    have hcapital : ∀ d < 16, hexDigit? ((ascii "0123456789ABCDEF").getD d 0) = some d := by decide
    rintro (h | h)
    · have hd := hsmall d (List.getElem?_eq_some_iff.mp h).1
      rwa [List.getD_eq_getElem?_getD, h] at hd
    · have hd := hcapital d (List.getElem?_eq_some_iff.mp h).1
      rwa [List.getD_eq_getElem?_getD, h] at hd

theorem HexDigit.lt (h : HexDigit c d) : d < 16 := by
  rcases h with h | h <;> exact (List.getElem?_eq_some_iff.mp h).1

theorem HexDigit.ascii (h : HexDigit c d) : c < 0x80 := by
  have hall : ∀ k ∈ Peg.ascii "0123456789abcdef" ++ Peg.ascii "0123456789ABCDEF", k < 0x80 := by
    decide +kernel
  apply hall
  rcases h with h | h
  · exact List.mem_append_left _ (List.mem_of_getElem? h)
  · exact List.mem_append_right _ (List.mem_of_getElem? h)

theorem hexNumber?_eq_some {acc : Nat} : hexNumber? acc digits = some n ↔
    ∃ ds, List.Forall₂ HexDigit digits ds ∧ n = ds.foldl (fun n d => 16 * n + d) acc := by
  induction digits generalizing acc with
  | nil => simp [hexNumber?, eq_comm]
  | cons c digits ih =>
      rw [hexNumber?]
      cases hd : hexDigit? c with
      | none =>
          simp only [reduceCtorEq, false_iff, not_exists, not_and]
          rintro ds (_ | ⟨hc, -⟩)
          rw [hexDigit?_eq_some.mpr hc] at hd
          cases hd
      | some d =>
          rw [ih]
          constructor
          · rintro ⟨ds, hds, rfl⟩
            exact ⟨d :: ds, .cons (hexDigit?_eq_some.mp hd) hds, rfl⟩
          · rintro ⟨ds, _ | ⟨hc, hds⟩, rfl⟩
            rw [hexDigit?_eq_some.mpr hc] at hd
            cases hd
            exact ⟨_, hds, rfl⟩

theorem hexNumber?_zero : hexNumber? 0 digits = some n ↔ HexNumeral digits n := by
  simp only [hexNumber?_eq_some, HexNumeral, Nat.ofDigits_eq_foldr, List.foldr_reverse, Nat.cast_id, Nat.add_comm]

namespace HexNumeral

theorem forall_digit (h : HexNumeral digits n) : ∀ k ∈ digits, ∃ d, HexDigit k d := by
  obtain ⟨ds, hds, -⟩ := h
  induction hds with
  | nil => nofun
  | cons hd _ ih => exact List.forall_mem_cons.mpr ⟨⟨_, hd⟩, ih⟩

theorem ascii (h : HexNumeral digits n) : ∀ k ∈ digits, k < 0x80 := by
  intro k hk
  obtain ⟨d, hd⟩ := h.forall_digit k hk
  exact hd.ascii

theorem ne_closeBrace (h : HexNumeral digits n) : ∀ k ∈ digits, k ≠ closeBrace := by
  rintro k hk rfl
  obtain ⟨d, hd⟩ := h.forall_digit _ hk
  cases hexDigit?_eq_some.mpr hd

theorem isScalar (h : HexNumeral digits n) (hl : digits.length = 2) : IsScalar n := by
  obtain ⟨ds, hds, rfl⟩ := h
  obtain ⟨a, b, rfl⟩ := List.length_eq_two.mp hl
  obtain _ | ⟨ha, _ | ⟨hb, ⟨⟩⟩⟩ := hds
  rw [isScalar_iff]
  have hd := ha.lt
  have he := hb.lt
  simp only [List.reverse_cons, List.reverse_nil, List.nil_append, List.cons_append, Nat.ofDigits_cons, Nat.ofDigits_nil]
  omega

end HexNumeral

end Digits

theorem Denotes.ne_nil (h : Denotes w t) : w ≠ [] := by
  cases h <;> exact List.cons_ne_nil _ _

section Pieces

variable {piece : Piece}

theorem piece?_plain (hc : c ≠ backslash) (s : Octets) : piece? (c :: s) = some ⟨[c], 1⟩ := by
  rw [piece?.eq_def]
  exact if_pos hc

theorem piece?_escape (e : UInt8) (s : Octets) : piece? (backslash :: e :: s) =
    match letter? e with
    | some d => some ⟨[d], 2⟩
    | none => if e = 'x'.toUInt8 then pairPiece? s else if e = 'u'.toUInt8 then bracedPiece? s else none := by
  rw [piece?.eq_def]
  exact if_neg (not_not_intro rfl)

/-- A unit is read whole, whatever follows. -/
theorem piece?_of_denotes (h : Denotes w t) (s : Octets) : piece? (w ++ s) = some ⟨t, w.length⟩ := by
  cases h with
  | plain hc => exact piece?_plain hc s
  | letter h =>
      have hall : ∀ p ∈ letters, letter? p.1.toUInt8 = some p.2.toUInt8 := by decide
      rw [List.cons_append, List.cons_append, List.nil_append, piece?_escape, hall _ h]
      rfl
  | pair hl h =>
      obtain ⟨a, b, rfl⟩ := List.length_eq_two.mp hl
      have hx : letter? 'x'.toUInt8 = none := by decide
      rw [List.cons_append, List.cons_append, piece?_escape, hx]
      dsimp only
      rw [if_pos rfl, List.cons_append, List.cons_append, pairPiece?, hexNumber?_zero.mpr h, Option.map_some,
        encode_toNat]
      rfl
  | braced hl h =>
      have hu : letter? 'u'.toUInt8 = none := by decide
      rw [List.cons_append, List.cons_append, List.cons_append, piece?_escape, hu]
      dsimp only
      rw [if_neg (by decide), if_pos rfl, List.append_assoc, List.singleton_append, bracedPiece?,
        List.takeWhile_append_of_pos (by simpa using h.ne_closeBrace), List.takeWhile_cons_of_neg (by simp),
        List.append_nil]
      rw [if_pos ⟨rfl, by simp, hl.1, hl.2⟩, hexNumber?_zero.mpr h]
      dsimp only
      rw [encode?_toNat]
      simp

theorem bracedPiece?_eq_some (h : bracedPiece? s = some piece) :
    ∃ digits r n, s = openBrace :: (digits ++ closeBrace :: r) ∧ (2 ≤ digits.length ∧ digits.length ≤ 6) ∧
      hexNumber? 0 digits = some n ∧ encode? n = some piece.text ∧ piece.size = digits.length + 4 := by
  cases s with
  | nil => cases h
  | cons c s =>
      rw [bracedPiece?] at h
      split at h
      · rename_i hc
        obtain ⟨rfl, hlt, hlow, hhigh⟩ := hc
        have hs := List.takeWhile_append_dropWhile (p := fun k => decide (k ≠ closeBrace)) (l := s)
        have hhead := @List.head_dropWhile_not _ (fun k => decide (k ≠ closeBrace)) s
        generalize s.takeWhile (fun k => decide (k ≠ closeBrace)) = digits at h hlt hlow hhigh hs
        generalize s.dropWhile (fun k => decide (k ≠ closeBrace)) = rest at hs hhead
        cases rest with
        | nil =>
            rw [List.append_nil] at hs
            rw [hs] at hlt
            exact absurd hlt (Nat.lt_irrefl _)
        | cons k r =>
            have hk : k = closeBrace := Decidable.not_not.mp (of_decide_eq_false (hhead (List.cons_ne_nil k r)))
            split at h
            · rename_i n hn
              obtain ⟨t, ht, rfl⟩ := Option.map_eq_some_iff.mp h
              exact ⟨digits, r, n, by rw [← hs, hk], ⟨hlow, hhigh⟩, hn, ht, rfl⟩
            · cases h
      · cases h

theorem denotes_of_letter? {e k : UInt8} (h : letter? e = some k) : Denotes [backslash, e] [k] := by
  have hall : ∀ i < 256, ∀ k ∈ letter? (UInt8.ofNat i), ∃ p ∈ letters, UInt8.ofNat i = p.1.toUInt8 ∧ k = p.2.toUInt8 := by
    decide +kernel
  obtain ⟨p, hp, rfl, rfl⟩ :=
    forall_octet (p := fun e => ∀ k ∈ letter? e, ∃ p ∈ letters, e = p.1.toUInt8 ∧ k = p.2.toUInt8) hall e k h
  exact .letter hp

/-- What is read in one piece is a unit. -/
theorem exists_denotes_of_piece? (h : piece? s = some piece) :
    ∃ w r, s = w ++ r ∧ w.length = piece.size ∧ Denotes w piece.text := by
  cases s with
  | nil => cases h
  | cons c s =>
      by_cases hc : c = backslash
      · subst hc
        cases s with
        | nil => cases h
        | cons e s =>
            rw [piece?_escape] at h
            split at h
            · rename_i k hk
              cases h
              exact ⟨[backslash, e], s, rfl, rfl, denotes_of_letter? hk⟩
            split at h
            · rename_i hx
              subst hx
              match s, h with
              | a :: b :: s, h =>
                  obtain ⟨n, hn, rfl⟩ := Option.map_eq_some_iff.mp h
                  have hnum := hexNumber?_zero.mp hn
                  obtain ⟨k, rfl⟩ : ∃ k : Char, n = k.toNat := ⟨_, (toNat_ofNat (hnum.isScalar rfl)).symm⟩
                  rw [encode_toNat]
                  exact ⟨[backslash, 'x'.toUInt8, a, b], s, rfl, rfl, .pair rfl hnum⟩
            split at h
            · rename_i hu
              subst hu
              obtain ⟨digits, r, n, rfl, hl, hn, htext, hsize⟩ := bracedPiece?_eq_some h
              obtain ⟨k, rfl, hk⟩ := encode?_eq_some.mp htext
              rw [← hk]
              exact ⟨backslash :: 'u'.toUInt8 :: openBrace :: (digits ++ [closeBrace]), r, by simp, by simp [hsize],
                .braced hl (hexNumber?_zero.mp hn)⟩
            · cases h
      · rw [piece?_plain hc] at h
        cases h
        exact ⟨[c], s, rfl, rfl, .plain hc⟩

end Pieces

theorem decode?_append_of_denotes (h : Denotes w t) (s : Octets) : decode? (w ++ s) = (decode? s).map (t ++ ·) := by
  rw [decode?_of_piece? (piece?_of_denotes h s), List.drop_left]

/-- A text that begins with a unit denotes what its rest does, behind that unit. -/
theorem exists_denotes_of_decode? (hs : s ≠ []) (h : decode? s = some t) :
    ∃ w r u v, s = w ++ r ∧ Denotes w u ∧ decode? r = some v ∧ t = u ++ v := by
  cases hp : piece? s with
  | none =>
      rw [decode?_of_piece?_none hs hp] at h
      cases h
  | some piece =>
      obtain ⟨w, r, rfl, -, hw⟩ := exists_denotes_of_piece? hp
      rw [decode?_append_of_denotes hw] at h
      obtain ⟨v, hv, rfl⟩ := Option.map_eq_some_iff.mp h
      exact ⟨w, r, _, v, rfl, hw, hv, rfl⟩

/-- No unit begins another one. -/
theorem Denotes.append_inj {w' t' r r' : Octets} (h : Denotes w t) (h' : Denotes w' t') (he : w ++ r = w' ++ r') :
    w = w' ∧ t = t' ∧ r = r' := by
  have hp := piece?_of_denotes h r
  rw [he, piece?_of_denotes h' r'] at hp
  obtain ⟨rfl, hl⟩ := Piece.mk.inj (Option.some.inj hp)
  obtain ⟨rfl, rfl⟩ := List.append_inj he hl.symm
  exact ⟨rfl, rfl, rfl⟩

namespace Splits

variable {parts parts' : List (Octets × Octets)}

theorem nil : Splits [] [] := ⟨nofun, rfl⟩

theorem cons (hw : Denotes w t) (h : Splits raw parts) : Splits (w ++ raw) ((w, t) :: parts) := by
  refine ⟨List.forall_mem_cons.mpr ⟨hw, h.denotes⟩, ?_⟩
  rw [List.flatMap_cons, ← h.raw_eq]

theorem unique (h : Splits raw parts) (h' : Splits raw parts') : parts = parts' := by
  obtain ⟨h, rfl⟩ := h
  obtain ⟨h', he⟩ := h'
  induction parts generalizing parts' with
  | nil =>
      cases parts' with
      | nil => rfl
      | cons p parts' => exact absurd (List.append_eq_nil_iff.mp he.symm).1 (h' p List.mem_cons_self).ne_nil
  | cons p parts ih =>
      obtain ⟨hp, h⟩ := List.forall_mem_cons.mp h
      cases parts' with
      | nil => exact absurd (List.append_eq_nil_iff.mp he).1 hp.ne_nil
      | cons p' parts' =>
          obtain ⟨hp', h'⟩ := List.forall_mem_cons.mp h'
          obtain ⟨hw, ht, hr⟩ := hp.append_inj hp' he
          rw [Prod.ext hw ht, ih h h' hr]

theorem decode?_append (h : Splits raw parts) (s : Octets) :
    decode? (raw ++ s) = (decode? s).map (parts.flatMap Prod.snd ++ ·) := by
  obtain ⟨h, rfl⟩ := h
  induction parts with
  | nil => simp
  | cons p parts ih =>
      obtain ⟨hp, h⟩ := List.forall_mem_cons.mp h
      rw [List.flatMap_cons, List.append_assoc, decode?_append_of_denotes hp, ih h, Option.map_map, List.flatMap_cons]
      congr 1
      funext u
      exact (List.append_assoc _ _ _).symm

theorem decode?_eq (h : Splits raw parts) : decode? raw = some (parts.flatMap Prod.snd) := by
  have hd := h.decode?_append []
  rwa [List.append_nil, decode?_nil, Option.map_some, List.append_nil] at hd

end Splits

theorem exists_splits (h : decode? raw = some t) : ∃ parts, Splits raw parts ∧ parts.flatMap Prod.snd = t := by
  induction hn : raw.length using Nat.strongRecOn generalizing raw t with
  | ind n ih =>
      subst hn
      by_cases hs : raw = []
      · subst hs
        cases h
        exact ⟨[], .nil, rfl⟩
      · obtain ⟨w, r, u, v, rfl, hw, hv, rfl⟩ := exists_denotes_of_decode? hs h
        have hpos := List.length_pos_iff.mpr hw.ne_nil
        obtain ⟨parts, hparts, rfl⟩ := ih r.length (by rw [List.length_append]; omega) hv rfl
        exact ⟨(w, u) :: parts, .cons hw hparts, rfl⟩

theorem decode?_eq_some_iff : decode? raw = some t ↔ ∃ parts, Splits raw parts ∧ parts.flatMap Prod.snd = t := by
  constructor
  · exact exists_splits
  · rintro ⟨parts, h, rfl⟩
    exact h.decode?_eq

theorem decode?_eq_none_iff : decode? raw = none ↔ ¬∃ parts, Splits raw parts := by
  rw [Option.eq_none_iff_forall_ne_some]
  constructor
  · rintro h ⟨parts, hparts⟩
    exact h _ hparts.decode?_eq
  · intro h t ht
    obtain ⟨parts, hparts, -⟩ := exists_splits ht
    exact h ⟨parts, hparts⟩

/-- A text is decoded just if it is made of units, which is then so in one way. What is decoded does not
depend on what follows. -/
theorem decode?_exact (raw : Octets) :
    (∀ t, decode? raw = some t ↔ ∃ parts, Splits raw parts ∧ parts.flatMap Prod.snd = t) ∧
      (decode? raw = none ↔ ¬∃ parts, Splits raw parts) ∧
      (∀ parts parts', Splits raw parts → Splits raw parts' → parts = parts') ∧
      ∀ t s, decode? raw = some t →
        decode? (raw ++ s) = (decode? s).map (t ++ ·) ∧ (decode? (raw ++ s) = none ↔ decode? s = none) := by
  refine ⟨fun t => decode?_eq_some_iff, decode?_eq_none_iff, fun parts parts' => Splits.unique, ?_⟩
  intro t s h
  obtain ⟨parts, hparts, rfl⟩ := exists_splits h
  have happend := hparts.decode?_append s
  refine ⟨happend, ?_⟩
  rw [happend, Option.map_eq_none_iff]

/-- The escape of a newline is one unit. What follows it is decoded, or is not, on its own. -/
theorem decode?_exact_newline :
    Splits (ascii "\\n") [(ascii "\\n", [newline])] ∧ decode? (ascii "\\n" ++ ascii "a") = some [newline, 0x61] ∧
      decode? (ascii "\\n" ++ ascii "\\q") = none := by
  have hsplits : Splits (ascii "\\n") [(ascii "\\n", [newline])] := by
    refine ⟨List.forall_mem_singleton.mpr ?_, by decide⟩
    exact .letter (c := 'n') (d := '\n') (by decide)
  have hsome := ((decode?_exact (ascii "\\n")).1 [newline]).mpr ⟨_, hsplits, by decide⟩
  obtain ⟨happend, -⟩ := (decode?_exact (ascii "\\n")).2.2.2 _ (ascii "a") hsome
  obtain ⟨-, hnone⟩ := (decode?_exact (ascii "\\n")).2.2.2 _ (ascii "\\q") hsome
  exact ⟨hsplits, happend.trans (by decide), hnone.mpr (by decide)⟩

example : decode? (ascii "a\\u\x7b3bb\x7d\\n\\x410") = some [0x61, 0xCE, 0xBB, 0x0A, 0x41, 0x30] := by decide

end Peg.Escape
