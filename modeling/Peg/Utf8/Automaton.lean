import Peg.Utf8.Decode

namespace Peg.Utf8.Automaton

/-- The classes of the octets, in rows of sixteen. Octets of one class lead from a state to one state. -/
def classes : List (List Nat) :=
  [[0, 0, 0, 0, 0, 0, 0, 0, 0, 0, 0, 0, 0, 0, 0, 0],
    [0, 0, 0, 0, 0, 0, 0, 0, 0, 0, 0, 0, 0, 0, 0, 0],
    [0, 0, 0, 0, 0, 0, 0, 0, 0, 0, 0, 0, 0, 0, 0, 0],
    [0, 0, 0, 0, 0, 0, 0, 0, 0, 0, 0, 0, 0, 0, 0, 0],
    [0, 0, 0, 0, 0, 0, 0, 0, 0, 0, 0, 0, 0, 0, 0, 0],
    [0, 0, 0, 0, 0, 0, 0, 0, 0, 0, 0, 0, 0, 0, 0, 0],
    [0, 0, 0, 0, 0, 0, 0, 0, 0, 0, 0, 0, 0, 0, 0, 0],
    [0, 0, 0, 0, 0, 0, 0, 0, 0, 0, 0, 0, 0, 0, 0, 0],
    [1, 1, 1, 1, 1, 1, 1, 1, 1, 1, 1, 1, 1, 1, 1, 1],
    [9, 9, 9, 9, 9, 9, 9, 9, 9, 9, 9, 9, 9, 9, 9, 9],
    [7, 7, 7, 7, 7, 7, 7, 7, 7, 7, 7, 7, 7, 7, 7, 7],
    [7, 7, 7, 7, 7, 7, 7, 7, 7, 7, 7, 7, 7, 7, 7, 7],
    [8, 8, 2, 2, 2, 2, 2, 2, 2, 2, 2, 2, 2, 2, 2, 2],
    [2, 2, 2, 2, 2, 2, 2, 2, 2, 2, 2, 2, 2, 2, 2, 2],
    [10, 3, 3, 3, 3, 3, 3, 3, 3, 3, 3, 3, 3, 4, 3, 3],
    [11, 6, 6, 6, 5, 8, 8, 8, 8, 8, 8, 8, 8, 8, 8, 8]]

/-- The next states, by state and class. A state is the place where its row begins. -/
def transitions : List Nat :=
  [0, 12, 24, 36, 60, 96, 84, 12, 12, 12, 48, 72,
    12, 12, 12, 12, 12, 12, 12, 12, 12, 12, 12, 12,
    12, 0, 12, 12, 12, 12, 12, 0, 12, 0, 12, 12,
    12, 24, 12, 12, 12, 12, 12, 24, 12, 24, 12, 12,
    12, 12, 12, 12, 12, 12, 12, 24, 12, 12, 12, 12,
    12, 24, 12, 12, 12, 12, 12, 12, 12, 24, 12, 12,
    12, 12, 12, 12, 12, 12, 12, 36, 12, 36, 12, 12,
    12, 36, 12, 12, 12, 12, 12, 36, 12, 36, 12, 12,
    12, 36, 12, 12, 12, 12, 12, 12, 12, 12, 12, 12]

def accept : Nat := 0

def reject : Nat := 12

def classOf (c : UInt8) : Nat := (classes.getD (c.toNat / 16) []).getD (c.toNat % 16) 8

def next (state : Nat) (c : UInt8) : Nat := transitions.getD (state + classOf c) reject

/-- The bits read so far, and behind them those of an octet. The class of a first octet says how many of
its bits are none of the rune. -/
def gather (rune : UInt32) (state : Nat) (c : UInt8) : UInt32 :=
  if state = accept then c.toUInt32 &&& (0xFF >>> classOf c).toUInt32
  else (c.toUInt32 &&& 0x3F) ||| (rune <<< (6 : UInt32))

def run (rune : UInt32) (state size : Nat) : Octets → Decoded
  | [] => ⟨replacement, size⟩
  | c :: rest =>
      if next state c = accept then ⟨(gather rune state c).toNat, size + 1⟩
      else if next state c = reject then resynchronise (size + 1) rest
      else run (gather rune state c) (next state c) (size + 1) rest

/-- The first rune of a text, read with the tables. -/
def decode (s : Octets) : Decoded := run 0 accept 0 s

end Peg.Utf8.Automaton
