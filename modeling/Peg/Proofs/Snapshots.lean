import Mathlib.Logic.Relation
import Peg.Proofs.Captures

namespace Peg

/-- The items after a change, from those before it. A pop takes the span that it names off the top. -/
def CaptureChange.redo? : CaptureChange → List Span → Option (List Span)
  | .pushed span, items => some (span :: items)
  | .popped _, [] => none
  | .popped span, top :: rest => if top = span then some rest else none

namespace CaptureStack

/-- The items that a journal makes out of none, its earliest change first. -/
def replay? : List CaptureChange → Option (List Span)
  | [] => some []
  | change :: journal => (replay? journal).bind change.redo?

def Replays (stack : CaptureStack) : Prop := replay? stack.journal = some stack.items

/-- One change to a stack whose moments before a given one stay: no restore goes back further. -/
inductive Changes (moment : Nat) : CaptureStack → CaptureStack → Prop
  | push (span : Span) (stack : CaptureStack) : Changes moment stack (stack.push span)
  | pop {stack : CaptureStack} (h : stack.items ≠ []) : Changes moment stack stack.pop
  | restore {later : Nat} (h : moment ≤ later) (stack : CaptureStack) :
      Changes moment stack (stack.restore later)

theorem Changes.of_le {early late : Nat} {stack next : CaptureStack} (h : early ≤ late)
    (hc : Changes late stack next) : Changes early stack next := by
  cases hc with
  | push span => exact .push span stack
  | pop hi => exact .pop hi
  | restore hm => exact .restore (Nat.le_trans h hm) stack

namespace Replays

variable {stack : CaptureStack}

theorem empty : Replays {} := rfl

theorem push (h : stack.Replays) (span : Span) : (stack.push span).Replays := by
  have hr : replay? (stack.push span).journal = (replay? stack.journal).bind (CaptureChange.pushed span).redo? := rfl
  rw [Replays, hr, h]
  rfl

theorem pop (h : stack.Replays) : stack.pop.Replays := by
  rcases stack with ⟨items, journal⟩
  cases items with
  | nil => exact h
  | cons span rest =>
      have hr : replay? (CaptureChange.popped span :: journal) = (CaptureChange.popped span).redo? (span :: rest) :=
        congrArg (Option.bind · (CaptureChange.popped span).redo?) h
      exact hr.trans (if_pos rfl)

/-- The undone change is the last one that the replay makes, so what it leaves is what was there before it. -/
theorem undo (h : stack.Replays) : stack.undo.Replays := by
  rcases stack with ⟨items, journal⟩
  cases journal with
  | nil => exact h
  | cons change journal =>
      obtain ⟨before, hb, hc⟩ := Option.bind_eq_some_iff.mp h
      cases change with
      | pushed span =>
          have hi : span :: before = items := Option.some.inj hc
          subst hi
          exact hb
      | popped span =>
          cases before with
          | nil => exact nomatch hc
          | cons top rest =>
              rw [CaptureChange.redo?] at hc
              split at hc
              · next ht =>
                subst ht
                obtain rfl := Option.some.inj hc
                exact hb
              · exact nomatch hc

theorem restore (h : stack.Replays) (moment : Nat) : (stack.restore moment).Replays := by
  induction hn : stack.snapshot generalizing stack with
  | zero =>
      rw [restore_of_snapshot_le (by omega)]
      exact h
  | succ n ih =>
      by_cases hm : moment ≤ n
      · rw [restore_of_lt_snapshot (by omega)]
        exact ih h.undo (by rw [snapshot_undo]; omega)
      · rw [restore_of_snapshot_le (by omega)]
        exact h

theorem changes {moment : Nat} {next : CaptureStack} (h : stack.Replays) (hc : Changes moment stack next) :
    next.Replays := by
  cases hc with
  | push span => exact h.push span
  | pop => exact h.pop
  | restore => exact h.restore _

end Replays

theorem Precedes.changes {early late next : CaptureStack} (h : early.Precedes late)
    (hc : Changes early.snapshot late next) : early.Precedes next := by
  cases hc with
  | push span => exact h.push span
  | pop => exact h.pop
  | restore hm => exact h.restore hm

theorem reachable_of_le {early late : Nat} {stack next : CaptureStack} (h : early ≤ late)
    (hc : Relation.ReflTransGen (Changes late) stack next) : Relation.ReflTransGen (Changes early) stack next := by
  induction hc with
  | refl => exact .refl
  | tail _ hc ih => exact ih.tail (hc.of_le h)

theorem replays_of_reachable {moment : Nat} {stack : CaptureStack}
    (h : Relation.ReflTransGen (Changes moment) {} stack) : stack.Replays := by
  induction h with
  | refl => exact .empty
  | tail _ hc ih => exact ih.changes hc

theorem precedes_of_reachable {early late : CaptureStack}
    (h : Relation.ReflTransGen (Changes early.snapshot) early late) : early.Precedes late := by
  induction h with
  | refl => exact .refl early
  | tail _ hc ih => exact ih.changes hc

/-- The journal of a stack is the whole account of its items, and a snapshot is enough to come back to both,
whatever has been taken off, put on or undone since. -/
theorem restore_snapshot {stack : CaptureStack} (h : Relation.ReflTransGen (Changes 0) {} stack) :
    replay? stack.journal = some stack.items ∧
      (∀ later, Relation.ReflTransGen (Changes stack.snapshot) stack later →
        later.restore stack.snapshot = stack) ∧
      ∀ moment, stack.snapshot ≤ moment → stack.restore moment = stack := by
  refine ⟨replays_of_reachable h, ?_, ?_⟩
  · intro later hl
    exact (precedes_of_reachable hl).restore_eq
  · intro moment hm
    exact restore_of_snapshot_le hm

/-- The item of the snapshot itself is taken off, and another one stands in its place. -/
theorem restore_snapshot_of_popped :
    let stack := ({} : CaptureStack).push ⟨0, 2⟩
    let later := (((stack.push ⟨2, 4⟩).pop.pop.push ⟨4, 6⟩).restore 4).push ⟨1, 3⟩
    replay? stack.journal = some [⟨0, 2⟩] ∧ later.items = [⟨1, 3⟩] ∧ later.restore stack.snapshot = stack ∧
      later.restore 5 = later := by
  intro stack later
  have hs : Relation.ReflTransGen (Changes 0) {} stack := .single (.push _ _)
  have hl : Relation.ReflTransGen (Changes stack.snapshot) stack later := by
    refine .head (.push ⟨2, 4⟩ _) (.head (.pop ?_) (.head (.pop ?_) (.head (.push ⟨4, 6⟩ _) ?_)))
    · decide
    · decide
    · exact .head (.restore (by decide) _) (.single (.push _ _))
  have h0 : Relation.ReflTransGen (Changes 0) {} later := hs.trans (reachable_of_le (Nat.zero_le _) hl)
  exact ⟨(restore_snapshot hs).1, rfl, (restore_snapshot hs).2.1 later hl, (restore_snapshot h0).2.2 5 (by decide)⟩

end CaptureStack

end Peg
