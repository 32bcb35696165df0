import Peg.Text.Location

namespace Peg

/-- A text that is matched, with all its suffixes at hand, so that any place in it is reached at
once. -/
structure Subject where
  octets : Octets
  table : Array Octets := (suffixes octets).toArray
  table_eq : table = (suffixes octets).toArray := by rfl

/-- The offsets between which something was found. Nothing forbids that `stop` comes first. -/
structure Span where
  start : Nat
  stop : Nat
deriving DecidableEq, Repr

namespace Subject

def ofOctets (s : Octets) : Subject := { octets := s }

def size (x : Subject) : Nat := x.table.size - 1

def after (x : Subject) (p : Nat) : Octets := x.table[p]?.getD []

/-- The text of a span. A reversed span reaches to the end of the subject. -/
def slice (x : Subject) (span : Span) : Octets :=
  if span.start ≤ span.stop then (x.after span.start).take (span.stop - span.start)
  else x.after span.start

def location (x : Subject) (tabs : TabStops) (p : Nat) : Location :=
  tabs.locationAfter (x.octets.take p)

theorem size_eq (x : Subject) : x.size = x.octets.length := by
  rw [size, x.table_eq, List.size_toArray, suffixes_length, Nat.add_sub_cancel]

theorem after_eq (x : Subject) (p : Nat) : x.after p = x.octets.drop p := by
  rw [after, x.table_eq, List.getElem?_toArray]
  by_cases h : p ≤ x.octets.length
  · rw [getElem?_suffixes _ _ h, Option.getD_some]
  · rw [List.getElem?_eq_none (by rw [suffixes_length]; omega), Option.getD_none,
      List.drop_eq_nil_of_le (by omega)]

end Subject

def Span.size (span : Span) : Nat := span.stop - span.start

def Span.IsEmpty (span : Span) : Prop := span.start = span.stop

instance (span : Span) : Decidable span.IsEmpty := inferInstanceAs (Decidable (_ = _))

end Peg
