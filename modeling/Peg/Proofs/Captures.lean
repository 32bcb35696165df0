import Peg.Captures

namespace Peg.CaptureStack

theorem undo_push (span : Span) (stack : CaptureStack) : (stack.push span).undo = stack := rfl

theorem undo_pop {stack : CaptureStack} (h : stack.items ≠ []) : stack.pop.undo = stack := by
  rcases stack with ⟨items, journal⟩
  cases items with
  | nil => exact absurd rfl h
  | cons span rest => rfl

theorem items_pop (stack : CaptureStack) : stack.pop.items = stack.items.tail := by
  rcases stack with ⟨items, journal⟩
  cases items <;> rfl

theorem snapshot_push (span : Span) (stack : CaptureStack) :
    (stack.push span).snapshot = stack.snapshot + 1 := rfl

theorem snapshot_pop {stack : CaptureStack} (h : stack.items ≠ []) :
    stack.pop.snapshot = stack.snapshot + 1 := by
  rcases stack with ⟨items, journal⟩
  cases items with
  | nil => exact absurd rfl h
  | cons span rest => rfl

theorem snapshot_undo (stack : CaptureStack) : stack.undo.snapshot = stack.snapshot - 1 := by
  rcases stack with ⟨items, journal⟩
  cases journal with
  | nil => rfl
  | cons change journal => cases change <;> rfl

theorem restore_of_snapshot_le {stack : CaptureStack} {moment : Nat} (h : stack.snapshot ≤ moment) :
    stack.restore moment = stack := by
  have hn : stack.journal.length - moment = 0 := Nat.sub_eq_zero_of_le h
  rw [restore, hn]
  rfl

theorem repeat_undo (n : Nat) (stack : CaptureStack) :
    Nat.repeat undo (n + 1) stack = Nat.repeat undo n stack.undo := by
  induction n with
  | zero => rfl
  | succ n ih => exact congrArg undo ih

theorem restore_of_lt_snapshot {stack : CaptureStack} {moment : Nat} (h : moment < stack.snapshot) :
    stack.restore moment = stack.undo.restore moment := by
  have hs : stack.undo.journal.length = stack.journal.length - 1 := snapshot_undo stack
  have hn : stack.journal.length - moment = (stack.undo.journal.length - moment) + 1 := by
    have : moment < stack.journal.length := h
    omega
  rw [restore, restore, hn, repeat_undo]

theorem snapshot_restore (stack : CaptureStack) (moment : Nat) :
    (stack.restore moment).snapshot = min moment stack.snapshot := by
  induction hn : stack.snapshot generalizing stack with
  | zero => rw [restore_of_snapshot_le (by omega), hn, Nat.min_zero]
  | succ n ih =>
      by_cases h : moment ≤ n
      · rw [restore_of_lt_snapshot (by omega), ih _ (by rw [snapshot_undo]; omega)]
        omega
      · rw [restore_of_snapshot_le (by omega)]
        omega

theorem restore_restore (stack : CaptureStack) {early late : Nat} (h : early ≤ late) :
    (stack.restore late).restore early = stack.restore early := by
  induction hn : stack.snapshot generalizing stack with
  | zero =>
      have hs : stack.snapshot ≤ late := by omega
      rw [restore_of_snapshot_le hs]
  | succ n ih =>
      by_cases hl : late ≤ n
      · have hs : late < stack.snapshot := by omega
        rw [restore_of_lt_snapshot hs, ih _ (by rw [snapshot_undo]; omega)]
        exact (restore_of_lt_snapshot (Nat.lt_of_le_of_lt h hs)).symm
      · have hs : stack.snapshot ≤ late := by omega
        rw [restore_of_snapshot_le hs]

/-- The later stack came out of the earlier one by changes that can all be undone. -/
structure Precedes (early late : CaptureStack) : Prop where
  snapshot_le : early.snapshot ≤ late.snapshot
  restore_eq : late.restore early.snapshot = early

namespace Precedes

variable {early late : CaptureStack}

theorem refl (stack : CaptureStack) : stack.Precedes stack :=
  ⟨Nat.le_refl _, restore_of_snapshot_le (Nat.le_refl _)⟩

theorem trans {middle : CaptureStack} (h : early.Precedes middle) (h' : middle.Precedes late) :
    early.Precedes late := by
  refine ⟨Nat.le_trans h.snapshot_le h'.snapshot_le, ?_⟩
  rw [← restore_restore late h.snapshot_le, h'.restore_eq, h.restore_eq]

/-- A change that one step undoes keeps what went before. -/
theorem of_undo {next : CaptureStack} (h : early.Precedes late) (hs : next.snapshot = late.snapshot + 1)
    (hu : next.undo = late) : early.Precedes next := by
  have hle := h.snapshot_le
  refine ⟨by omega, ?_⟩
  rw [restore_of_lt_snapshot (by omega), hu, h.restore_eq]

theorem push (h : early.Precedes late) (span : Span) : early.Precedes (late.push span) :=
  h.of_undo (snapshot_push span late) (undo_push span late)

theorem pop (h : early.Precedes late) : early.Precedes late.pop := by
  by_cases hi : late.items = []
  · have hp : late.pop = late := by rw [CaptureStack.pop, hi]
    rw [hp]
    exact h
  · exact h.of_undo (snapshot_pop hi) (undo_pop hi)

theorem restore (h : early.Precedes late) {moment : Nat} (hm : early.snapshot ≤ moment) :
    early.Precedes (late.restore moment) := by
  refine ⟨?_, ?_⟩
  · rw [snapshot_restore]
    exact Nat.le_min.mpr ⟨hm, h.snapshot_le⟩
  · rw [restore_restore late hm, h.restore_eq]

end Precedes

end Peg.CaptureStack
