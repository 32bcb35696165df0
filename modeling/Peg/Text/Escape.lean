import Peg.Utf8.Decode

namespace Peg.Escape

def backslash : UInt8 := 0x5C

def hexDigit? (c : UInt8) : Option Nat :=
  if 0x30 ≤ c ∧ c ≤ 0x39 then some (c.toNat - 0x30)
  else if 0x41 ≤ c ∧ c ≤ 0x46 then some (c.toNat - 0x41 + 10)
  else if 0x61 ≤ c ∧ c ≤ 0x66 then some (c.toNat - 0x61 + 10)
  else none

def hexNumber? (acc : Nat) : Octets → Option Nat
  | [] => some acc
  | c :: rest =>
      match hexDigit? c with
      | some d => hexNumber? (16 * acc + d) rest
      | none => none

def letter? (c : UInt8) : Option UInt8 :=
  if c = 0x22 then some 0x22
  else if c = backslash then some backslash
  else if c = 'r'.toUInt8 then some carriageReturn
  else if c = 'n'.toUInt8 then some newline
  else if c = 't'.toUInt8 then some 0x09
  else if c = '0'.toUInt8 then some 0x00
  else if c = 0x27 then some 0x27
  else none

/-- A piece of an escaped text: what it denotes and how many octets write it. -/
structure Piece where
  text : Octets
  size : Nat

/-- Two hexadecimal digits, behind the letter `x`. -/
def pairPiece? : Octets → Option Piece
  | a :: b :: _ => (hexNumber? 0 [a, b]).map fun n => ⟨Utf8.encode n, 4⟩
  | _ => none

def openBrace : UInt8 := 0x7B

def closeBrace : UInt8 := 0x7D

/-- Two to six hexadecimal digits in braces, behind the letter `u`. They number a scalar value. -/
def bracedPiece? : Octets → Option Piece
  | [] => none
  | c :: rest =>
      let digits := rest.takeWhile (· ≠ closeBrace)
      if c = openBrace ∧ digits.length < rest.length ∧ 2 ≤ digits.length ∧ digits.length ≤ 6 then
        match hexNumber? 0 digits with
        | some n => (Utf8.encode? n).map fun t => ⟨t, digits.length + 4⟩
        | none => none
      else none

def piece? : Octets → Option Piece
  | [] => none
  | c :: rest =>
      if c ≠ backslash then some ⟨[c], 1⟩
      else match rest with
        | [] => none
        | e :: rest =>
            match letter? e with
            | some d => some ⟨[d], 2⟩
            | none =>
                if e = 'x'.toUInt8 then pairPiece? rest
                else if e = 'u'.toUInt8 then bracedPiece? rest
                else none

def decodeAtMost : Nat → Octets → Option Octets
  | _, [] => some []
  | 0, _ :: _ => none
  | n + 1, c :: rest =>
      match piece? (c :: rest) with
      | some piece => (decodeAtMost n ((c :: rest).drop piece.size)).map (piece.text ++ ·)
      | none => none

/-- The text that an escaped text denotes, unless some escape is malformed. -/
def decode? (raw : Octets) : Option Octets := decodeAtMost raw.length raw

/-- The rune that an escaped text denotes, if it denotes exactly one. -/
def decodeRune? (raw : Octets) : Option Rune :=
  match decode? raw with
  | some (c :: rest) =>
      let d := Utf8.decode (c :: rest)
      if d.size = (c :: rest).length then some d.rune else none
  | _ => none

theorem size_piece_pos {s : Octets} {piece : Piece} (h : piece? s = some piece) : 0 < piece.size := by
  cases s with
  | nil => simp [piece?] at h
  | cons c rest =>
      simp only [piece?] at h
      split at h
      · simp only [Option.some.injEq] at h
        subst h
        exact Nat.one_pos
      · split at h
        · cases h
        · split at h
          · simp only [Option.some.injEq] at h
            subst h
            exact Nat.two_pos
          · split at h
            · rename_i rest _ _ _
              cases rest with
              | nil => simp [pairPiece?] at h
              | cons a rest =>
                  cases rest with
                  | nil => simp [pairPiece?] at h
                  | cons b rest =>
                      simp only [pairPiece?, Option.map_eq_some_iff] at h
                      obtain ⟨n, _, rfl⟩ := h
                      exact Nat.succ_pos 3
            · split at h
              · rename_i rest _ _ _ _
                cases rest with
                | nil => simp [bracedPiece?] at h
                | cons a rest =>
                    simp only [bracedPiece?] at h
                    split at h
                    · split at h
                      · simp only [Option.map_eq_some_iff] at h
                        obtain ⟨t, _, rfl⟩ := h
                        exact Nat.succ_pos _
                      · cases h
                    · cases h
              · cases h

/-- Every piece takes an octet, so the length of the text bounds the pieces. -/
theorem decodeAtMost_of_length_le {n : Nat} {s : Octets} (h : s.length ≤ n) :
    decodeAtMost n s = decode? s := by
  have key : ∀ m n (s : Octets), s.length ≤ m → s.length ≤ n → decodeAtMost m s = decodeAtMost n s := by
    intro m
    induction m with
    | zero =>
        intro n s hm _
        have hs : s = [] := List.eq_nil_of_length_eq_zero (Nat.le_zero.mp hm)
        subst hs
        cases n <;> rfl
    | succ m ih =>
        intro n s hm hn
        cases s with
        | nil => cases n <;> rfl
        | cons c rest =>
            cases n with
            | zero => simp at hn
            | succ n =>
                simp only [decodeAtMost]
                split
                · rename_i piece hp
                  have hpos := size_piece_pos hp
                  rw [ih n]
                  · simp only [List.length_drop, List.length_cons] at *; omega
                  · simp only [List.length_drop, List.length_cons] at *; omega
                · rfl
  exact key n s.length s h (Nat.le_refl _)

theorem decode?_nil : decode? [] = some [] := rfl

theorem decode?_of_piece? {s : Octets} {piece : Piece} (h : piece? s = some piece) :
    decode? s = (decode? (s.drop piece.size)).map (piece.text ++ ·) := by
  cases s with
  | nil => simp [piece?] at h
  | cons c rest =>
      have hpos := size_piece_pos h
      simp only [decode?, List.length_cons, decodeAtMost, h]
      rw [decodeAtMost_of_length_le]
      · rfl
      · simp only [List.length_drop, List.length_cons]; omega

theorem decode?_of_piece?_none {s : Octets} (hs : s ≠ []) (h : piece? s = none) : decode? s = none := by
  cases s with
  | nil => exact absurd rfl hs
  | cons c rest => simp only [decode?, List.length_cons, decodeAtMost, h]

end Peg.Escape
