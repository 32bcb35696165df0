namespace Peg

abbrev Octets := List UInt8

/-- The octets of a text whose characters are all below U+0100. -/
def ascii (s : String) : Octets := s.toList.map fun c => c.toNat.toUInt8

def decimal (n : Nat) : Octets := (Nat.toDigits 10 n).map fun c => c.toNat.toUInt8

/-- The part of a text before its first zero octet. Messages of errors end there. -/
def untilZero (s : Octets) : Octets := s.takeWhile (· ≠ 0)

def newline : UInt8 := 0x0A

def carriageReturn : UInt8 := 0x0D

/-- Where the text `t` first occurs. The empty text occurs at the start. -/
def firstOccurrence? (t : Octets) : Octets → Option Nat
  | [] => if t.isEmpty then some 0 else none
  | c :: rest => if t.isPrefixOf (c :: rest) then some 0 else (firstOccurrence? t rest).map (· + 1)

def suffixes : Octets → List Octets
  | [] => [[]]
  | c :: rest => (c :: rest) :: suffixes rest

theorem suffixes_length (s : Octets) : (suffixes s).length = s.length + 1 := by
  induction s with
  | nil => rfl
  | cons c rest ih => simp only [suffixes, List.length_cons, ih]

theorem getElem?_suffixes (s : Octets) (p : Nat) (h : p ≤ s.length) :
    (suffixes s)[p]? = some (s.drop p) := by
  induction s generalizing p with
  | nil =>
      have hp : p = 0 := by simpa using h
      subst hp
      rfl
  | cons c rest ih =>
      cases p with
      | zero => rfl
      | succ p => simpa only [suffixes, List.getElem?_cons_succ, List.drop_succ_cons] using ih p (by simpa using h)

end Peg
