import Peg.Subject

namespace Peg

/-- Matched rules side by side. The first one comes with the rules inside it and with those next to
it. -/
inductive Forest where
  | nil
  | cons (rule : Octets) (span : Span) (inner next : Forest)
deriving DecidableEq, Repr

namespace Forest

def enclosed (items : List Octets) : Octets := ascii "[" ++ (ascii ", ").intercalate items ++ ascii "]"

def treeText (rule : Octets) (span : Span) (inner : List Octets) : Octets :=
  rule ++ ascii "@" ++ decimal span.start ++ ascii ".." ++ decimal span.stop ++
    if inner.isEmpty then [] else ascii " " ++ enclosed inner

def treeTexts : Forest → List Octets
  | nil => []
  | cons rule span inner next => treeText rule span inner.treeTexts :: next.treeTexts

def text (f : Forest) : Octets := enclosed f.treeTexts

end Forest

end Peg
