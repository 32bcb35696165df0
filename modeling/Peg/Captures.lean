import Peg.Subject

namespace Peg

inductive CaptureChange where
  | pushed (span : Span)
  | popped (span : Span)
deriving DecidableEq, Repr

/-- A stack of spans with the changes that made it, the latest first, so that they can be undone. -/
structure CaptureStack where
  items : List Span := []
  journal : List CaptureChange := []
deriving DecidableEq, Repr

namespace CaptureStack

def push (span : Span) (stack : CaptureStack) : CaptureStack :=
  ⟨span :: stack.items, .pushed span :: stack.journal⟩

/-- Takes the top span off. The empty stack has none and stays as it is. -/
def pop (stack : CaptureStack) : CaptureStack :=
  match stack.items with
  | [] => stack
  | span :: rest => ⟨rest, .popped span :: stack.journal⟩

def top? (stack : CaptureStack) : Option Span := stack.items.head?

/-- A moment of the stack's history, as the number of changes before it. -/
def snapshot (stack : CaptureStack) : Nat := stack.journal.length

def undo (stack : CaptureStack) : CaptureStack :=
  match stack.journal with
  | [] => stack
  | .pushed _ :: journal => ⟨stack.items.tail, journal⟩
  | .popped span :: journal => ⟨span :: stack.items, journal⟩

/-- Undoes every change made since a snapshot. -/
def restore (moment : Nat) (stack : CaptureStack) : CaptureStack :=
  Nat.repeat undo (stack.journal.length - moment) stack

end CaptureStack

end Peg
