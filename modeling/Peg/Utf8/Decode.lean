import Peg.Utf8.Encode

namespace Peg.Utf8

def IsContinuation (c : UInt8) : Prop := 0x80 ≤ c ∧ c ≤ 0xBF

instance (c : UInt8) : Decidable (IsContinuation c) := inferInstanceAs (Decidable (_ ∧ _))

/-- What the first octet of a rune announces: its own bits, how many continuation octets follow,
and the range of the first of them. The narrowed ranges shut out overlong forms, surrogates and
numbers above U+10FFFF. -/
structure Lead where
  bits : Nat
  following : Nat
  low : UInt8 := 0x80
  high : UInt8 := 0xBF

def Lead.ofOctet? (c : UInt8) : Option Lead :=
  if c < 0x80 then some { bits := c.toNat, following := 0 }
  else if c < 0xC2 then none
  else if c < 0xE0 then some { bits := c.toNat - 0xC0, following := 1 }
  else if c = 0xE0 then some { bits := 0, following := 2, low := 0xA0 }
  else if c = 0xED then some { bits := 0xD, following := 2, high := 0x9F }
  else if c < 0xF0 then some { bits := c.toNat - 0xE0, following := 2 }
  else if c = 0xF0 then some { bits := 0, following := 3, low := 0x90 }
  else if c < 0xF4 then some { bits := c.toNat - 0xF0, following := 3 }
  else if c = 0xF4 then some { bits := 4, following := 3, high := 0x8F }
  else none

structure Decoded where
  rune : Rune
  size : Nat
deriving DecidableEq, Repr

/-- Gives up on a rune after `size` octets: the continuation octets that come next belong to it too. -/
def resynchronise (size : Nat) (rest : Octets) : Decoded :=
  ⟨replacement, size + (rest.takeWhile fun c => decide (IsContinuation c)).length⟩

/-- Reads the `n` continuation octets that are due. An octet out of range is spent on the rune it
spoils. -/
def decodeTail (low high : UInt8) : Nat → Rune → Nat → Octets → Decoded
  | 0, rune, size, _ => ⟨rune, size⟩
  | _ + 1, _, size, [] => ⟨replacement, size⟩
  | n + 1, rune, size, c :: rest =>
      if low ≤ c ∧ c ≤ high then
        decodeTail 0x80 0xBF n (rune * 0x40 + (c.toNat - 0x80)) (size + 1) rest
      else resynchronise (size + 1) rest

/-- The first rune of a text. A malformed one is U+FFFD and ends before the next octet that is not a
continuation octet. -/
def decode : Octets → Decoded
  | [] => ⟨replacement, 0⟩
  | c :: rest =>
      match Lead.ofOctet? c with
      | some lead => decodeTail lead.low lead.high lead.following lead.bits 1 rest
      | none => resynchronise 1 rest

theorem le_size_decodeTail (low high : UInt8) (n : Nat) (rune : Rune) (size : Nat) (s : Octets) :
    size ≤ (decodeTail low high n rune size s).size := by
  induction n generalizing low high rune size s with
  | zero => exact Nat.le_refl _
  | succ n ih =>
      cases s with
      | nil => exact Nat.le_refl _
      | cons c rest =>
          simp only [decodeTail]
          split
          · exact Nat.le_trans (Nat.le_succ _) (ih _ _ _ _ _)
          · simp only [resynchronise]; omega

theorem size_decodeTail_le (low high : UInt8) (n : Nat) (rune : Rune) (size : Nat) (s : Octets) :
    (decodeTail low high n rune size s).size ≤ size + s.length := by
  induction n generalizing low high rune size s with
  | zero => exact Nat.le_add_right _ _
  | succ n ih =>
      cases s with
      | nil => exact Nat.le_add_right _ _
      | cons c rest =>
          simp only [decodeTail, List.length_cons]
          split
          · have := ih 0x80 0xBF (rune * 0x40 + (c.toNat - 0x80)) (size + 1) rest
            omega
          · have := (List.takeWhile_sublist (l := rest) fun c => decide (IsContinuation c)).length_le
            simp only [resynchronise]
            omega

/-- Every rune takes an octet, so decoding a text to its end stops. -/
theorem size_decode_pos {s : Octets} (h : s ≠ []) : 0 < (decode s).size := by
  cases s with
  | nil => exact absurd rfl h
  | cons c rest =>
      simp only [decode]
      split
      · exact le_size_decodeTail _ _ _ _ _ _
      · simp only [resynchronise]; omega

theorem size_decode_le (s : Octets) : (decode s).size ≤ s.length := by
  cases s with
  | nil => exact Nat.le_refl _
  | cons c rest =>
      simp only [decode, List.length_cons]
      split
      · have := size_decodeTail_le ‹Lead›.low ‹Lead›.high ‹Lead›.following ‹Lead›.bits 1 rest
        omega
      · have := (List.takeWhile_sublist (l := rest) fun c => decide (IsContinuation c)).length_le
        simp only [resynchronise]
        omega

def decodeAtMost : Nat → Octets → List Decoded
  | 0, _ => []
  | _ + 1, [] => []
  | n + 1, c :: rest =>
      decode (c :: rest) :: decodeAtMost n ((c :: rest).drop (decode (c :: rest)).size)

/-- All runes of a text. A text holds no more runes than octets. -/
def decodeAll (s : Octets) : List Decoded := decodeAtMost s.length s

def runes (s : Octets) : List Rune := (decodeAll s).map Decoded.rune

def countRunes (s : Octets) : Nat := (decodeAll s).length

theorem decodeAtMost_of_length_le {n : Nat} {s : Octets} (h : s.length ≤ n) :
    decodeAtMost n s = decodeAll s := by
  have key : ∀ m n (s : Octets), s.length ≤ m → s.length ≤ n → decodeAtMost m s = decodeAtMost n s := by
    intro m
    induction m with
    | zero =>
        intro n s hm _
        have hs : s = [] := List.eq_nil_of_length_eq_zero (Nat.le_zero.mp hm)
        subst hs
        cases n <;> rfl
    | succ m ih =>
        intro n s hm hn
        cases s with
        | nil => cases n <;> rfl
        | cons c rest =>
            cases n with
            | zero => simp at hn
            | succ n =>
                have hpos := size_decode_pos (List.cons_ne_nil c rest)
                simp only [decodeAtMost]
                rw [ih n]
                · simp only [List.length_drop, List.length_cons] at *; omega
                · simp only [List.length_drop, List.length_cons] at *; omega
  exact key n s.length s h (Nat.le_refl _)

theorem decodeAll_of_ne_nil {s : Octets} (h : s ≠ []) :
    decodeAll s = decode s :: decodeAll (s.drop (decode s).size) := by
  cases s with
  | nil => exact absurd rfl h
  | cons c rest =>
      have hpos := size_decode_pos (List.cons_ne_nil c rest)
      simp only [decodeAll, List.length_cons, decodeAtMost]
      rw [decodeAtMost_of_length_le]
      · rfl
      · simp only [List.length_drop, List.length_cons]; omega

end Peg.Utf8
