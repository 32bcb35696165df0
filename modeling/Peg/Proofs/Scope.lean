import Peg.State
import Peg.Proofs.Captures
import Peg.Proofs.Forest

namespace Peg

theorem shrink_of_prefix {α : Type} {a b : Array α} (h : a.toList <+: b.toList) : b.shrink a.size = a := by
  obtain ⟨r, hr⟩ := h
  apply Array.toList_inj.mp
  rw [Array.shrink_eq_take, Array.take_eq_extract, Array.toList_extract, List.extract_eq_take_drop,
    Nat.sub_zero, List.drop_zero, ← hr, ← Array.length_toList, List.take_left]

theorem mem_of_mem_shrink {α : Type} {a : Array α} {n : Nat} {b : α} (h : b ∈ a.shrink n) : b ∈ a := by
  rw [Array.shrink_eq_take, Array.take_eq_extract, ← Array.mem_toList_iff, Array.toList_extract,
    List.extract_eq_take_drop] at h
  exact Array.mem_toList_iff.mp (List.mem_of_mem_drop (List.mem_of_mem_take h))

theorem modify_append_cons {α : Type} (l : List α) (a : α) (r : List α) (f : α → α) :
    (l ++ a :: r).modify l.length f = l ++ f a :: r := by
  induction l with
  | nil => rfl
  | cons b l ih => rw [List.cons_append, List.length_cons, List.modify_succ_cons, ih, List.cons_append]

namespace State

/-- The later state has the edges of a forest behind the tokens of the earlier one. -/
def Adds (f : Forest) (s t : State) : Prop := t.tokens.toList = s.tokens.toList ++ f.tokensFrom s.tokens.size

/-- What holds between the state in which a part begins and that in which it ends, be it in a match or
in a failure that nobody has cleaned up. -/
structure Grows (s t : State) : Prop where
  tokens : ∃ f, Adds f s t
  quiet : s.lookahead ≠ none → t.tokens = s.tokens
  captures : s.captures.Precedes t.captures
  calls : t.calls = s.calls
  callLimit : t.callLimit = s.callLimit
  atomicity : t.atomicity = s.atomicity
  lookahead : t.lookahead = s.lookahead

/-- All but the record of failures is as before. -/
def Restores (s t : State) : Prop := t = { s with attempts := t.attempts, furthest := t.furthest }

theorem Restores.eq {s t : State} (h : s.Restores t) :
    t = { s with attempts := t.attempts, furthest := t.furthest } := h

theorem Adds.refl (s : State) : Adds .nil s s := (List.append_nil _).symm

theorem Adds.size {f : Forest} {s t : State} (h : Adds f s t) : t.tokens.size = s.tokens.size + 2 * f.size := by
  have hl := congrArg List.length h
  rw [List.length_append, f.length_tokensFrom] at hl
  exact hl

theorem Adds.trans {f g : Forest} {s t u : State} (h : Adds f s t) (h' : Adds g t u) : Adds (f ++ g) s u := by
  rw [Adds] at h'
  rw [Adds, h', h.size, h, Forest.tokensFrom_append, List.append_assoc]

theorem Adds.isPrefix {f : Forest} {s t : State} (h : Adds f s t) : s.tokens.toList <+: t.tokens.toList :=
  ⟨_, h.symm⟩

theorem Adds.of_tokens_eq {f : Forest} {s t u : State} (h : Adds f s t) (hu : u.tokens = t.tokens) :
    Adds f s u := by
  rw [Adds]
  rw [hu, h]

namespace Restores

variable {s t u : State}

theorem refl (s : State) : s.Restores s := rfl

theorem trans (h : s.Restores t) (h' : t.Restores u) : s.Restores u := by
  rw [Restores, h'.eq, h.eq]

theorem grows (h : s.Restores t) : s.Grows t := by
  rw [h.eq]
  exact ⟨⟨.nil, Adds.refl s⟩, fun _ => rfl, .refl _, rfl, rfl, rfl, rfl⟩

theorem note (h : s.Restores t) (m : Match) : s.Restores (t.note m) := by
  cases m <;> (rw [h.eq]; rfl)

theorem leaveCall {c : Call} (h : (s.enterCall c).Restores t) : s.Restores t.leaveCall := by
  rw [h.eq]
  rfl

theorem setAtomicity {mode : Atomicity} (h : (s.setAtomicity mode).Restores t) :
    s.Restores (t.setAtomicity s.atomicity) := by
  rw [h.eq]
  rfl

theorem rollBack_eq (h : s.Restores t) (p : Nat) : t.rollBack s.mark (.failed p) = t := by
  have ht : s.tokens.shrink s.tokens.size = s.tokens := shrink_of_prefix (List.prefix_refl _)
  have hc : s.captures.restore s.captures.snapshot = s.captures :=
    CaptureStack.restore_of_snapshot_le (Nat.le_refl _)
  rw [h.eq]
  simp only [State.rollBack, State.mark, ht, hc]

end Restores

namespace Grows

variable {s t u : State}

theorem refl (s : State) : s.Grows s := (Restores.refl s).grows

theorem trans (h : s.Grows t) (h' : t.Grows u) : s.Grows u := by
  obtain ⟨f, hf⟩ := h.tokens
  obtain ⟨g, hg⟩ := h'.tokens
  refine ⟨⟨f ++ g, hf.trans hg⟩, ?_, h.captures.trans h'.captures, h'.calls.trans h.calls,
    h'.callLimit.trans h.callLimit, h'.atomicity.trans h.atomicity, h'.lookahead.trans h.lookahead⟩
  intro hl
  rw [h'.quiet (h.lookahead ▸ hl), h.quiet hl]

theorem note (h : s.Grows t) (m : Match) : s.Grows (t.note m) := h.trans ((Restores.refl t).note m).grows

theorem leaveCall {c : Call} (h : (s.enterCall c).Grows t) : s.Grows t.leaveCall :=
  ⟨h.tokens, h.quiet, h.captures, congrArg List.tail h.calls, h.callLimit, h.atomicity, h.lookahead⟩

theorem setAtomicity {mode : Atomicity} (h : (s.setAtomicity mode).Grows t) :
    s.Grows (t.setAtomicity s.atomicity) :=
  ⟨h.tokens, h.quiet, h.captures, h.calls, h.callLimit, rfl, h.lookahead⟩

theorem push (h : s.Grows t) (span : Span) : s.Grows (t.modifyCaptures (CaptureStack.push span)) :=
  { h with captures := h.captures.push span }

theorem pop (h : s.Grows t) : s.Grows (t.modifyCaptures CaptureStack.pop) :=
  { h with captures := h.captures.pop }

theorem rollBack (h : s.Grows t) (p : Nat) : s.Restores (t.rollBack s.mark (.failed p)) := by
  obtain ⟨f, hf⟩ := h.tokens
  have ht : t.tokens.shrink s.mark.tokens = s.tokens := shrink_of_prefix hf.isPrefix
  have hc : t.captures.restore s.mark.captures = s.captures := h.captures.restore_eq
  simp only [Restores, State.rollBack, ht, hc, ← h.calls, ← h.callLimit, ← h.atomicity, ← h.lookahead]

theorem lookBack {polarity : Polarity} (h : (s.lookInto polarity).Grows t) :
    s.Restores (t.lookBack s.lookahead s.captures.snapshot) := by
  -- No token is removed here, for nothing under a look ahead leaves one.
  have ht : t.tokens = s.tokens := h.quiet (Option.some_ne_none _)
  have hc : t.captures.restore s.captures.snapshot = s.captures := h.captures.restore_eq
  have hk : t.calls = s.calls := h.calls
  have hl : t.callLimit = s.callLimit := h.callLimit
  have ha : t.atomicity = s.atomicity := h.atomicity
  simp only [Restores, State.lookBack, ht, hc, ← hk, ← hl, ← ha]

end Grows

section Rule

variable {s t : State} {rule : Octets} {p : Nat}

theorem openRule_of_not_emits (h : ¬s.Emits) : s.openRule (s.ruleFrame rule p) = s :=
  if_neg (by simp only [ruleFrame, decide_eq_true_eq, h, not_false_eq_true])

theorem openRule_of_emits (h : s.Emits) :
    s.openRule (s.ruleFrame rule p) = { s with tokens := s.tokens.push ⟨.start, rule, 0, p⟩ } :=
  if_pos (by simp only [ruleFrame, decide_eq_true_eq, h])

theorem openRule_eq (f : RuleFrame) (s : State) : s.openRule f = { s with tokens := (s.openRule f).tokens } := by
  rw [openRule]
  split <;> rfl

theorem disappoints_eq (f : RuleFrame) (m : Match) (t : State) :
    (if t.Disappoints m then t.recordAttempt f else t) =
      { t with attempts := (if t.Disappoints m then t.recordAttempt f else t).attempts } := by
  split
  · rw [recordAttempt]
    split <;> rfl
  · rfl

theorem restores_of_disappoints (f : RuleFrame) (m : Match) (t : State) :
    t.Restores (if t.Disappoints m then t.recordAttempt f else t) := by
  rw [disappoints_eq]
  rfl

theorem restores_closeRule_of_not_emits (h : ¬s.Emits) (m : Match) :
    t.Restores (t.closeRule (s.ruleFrame rule p) m) := by
  have he : (s.ruleFrame rule p).emits = false := by simp only [ruleFrame, h, decide_false]
  rw [closeRule, he]
  exact restores_of_disappoints _ m t

theorem closeRule_of_emits (h : s.Emits) (rule : Octets) (p : Nat) (m : Match) (t : State) : ∃ u, t.Restores u ∧
    t.closeRule (s.ruleFrame rule p) m = u.closeTokens (s.ruleFrame rule p) m := by
  have he : (s.ruleFrame rule p).emits = true := by simp only [ruleFrame, h, decide_true]
  refine ⟨_, restores_of_disappoints (s.ruleFrame rule p) m t, ?_⟩
  rw [closeRule, he]
  rfl

theorem Restores.tokens_eq (h : s.Restores t) : t.tokens = s.tokens := by
  rw [h.eq]

/-- The start token of a rule learns its partner when the rule has matched. -/
theorem Adds.closeTokens {f : Forest} (h : Adds f (s.openRule (s.ruleFrame rule p)) t) (he : s.Emits) (q : Nat) :
    Adds (.node rule ⟨p, q⟩ f) s (t.closeTokens (s.ruleFrame rule p) (.matched q)) := by
  have hn : t.tokens.size = s.tokens.size + 1 + 2 * f.size := by
    rw [h.size, openRule_of_emits he, Array.size_push]
  have ht : t.tokens.toList =
      s.tokens.toList ++ ⟨.start, rule, 0, p⟩ :: f.tokensFrom (s.tokens.size + 1) := by
    rw [h, openRule_of_emits he, Array.toList_push, Array.size_push, List.append_assoc]
    rfl
  have hi : (s.ruleFrame rule p).tokenIndex = s.tokens.toList.length := rfl
  rw [Adds, Forest.tokensFrom_node]
  simp only [State.closeTokens, Array.toList_push, Array.toList_modify]
  rw [ht, hn, hi, modify_append_cons, List.append_assoc]
  rfl

theorem Adds.closeRule {f : Forest} (h : Adds f (s.openRule (s.ruleFrame rule p)) t) (q : Nat) :
    Adds (if s.Emits then .node rule ⟨p, q⟩ f else f) s (t.closeRule (s.ruleFrame rule p) (.matched q)) := by
  by_cases he : s.Emits
  · rw [if_pos he]
    obtain ⟨u, hu, hc⟩ := closeRule_of_emits he rule p (.matched q) t
    rw [hc]
    exact (h.of_tokens_eq hu.tokens_eq).closeTokens he q
  · rw [if_neg he]
    rw [openRule_of_not_emits he] at h
    exact h.of_tokens_eq (restores_closeRule_of_not_emits he _).tokens_eq

theorem closeRule_eq (f : RuleFrame) (m : Match) (t : State) : t.closeRule f m =
    { t with tokens := (t.closeRule f m).tokens, attempts := (t.closeRule f m).attempts } := by
  rw [closeRule, disappoints_eq]
  split
  · cases m <;> rfl
  · rfl

theorem tokens_closeRule_failed (h : (s.openRule (s.ruleFrame rule p)).tokens.toList <+: t.tokens.toList)
    (he : s.Emits) (q : Nat) : (t.closeRule (s.ruleFrame rule p) (.failed q)).tokens = s.tokens := by
  obtain ⟨u, hu, hc⟩ := closeRule_of_emits he rule p (.failed q) t
  rw [openRule_of_emits he, Array.toList_push] at h
  rw [hc, State.closeTokens, hu.tokens_eq]
  exact shrink_of_prefix ((List.prefix_append _ _).trans h)

theorem Grows.closeRule (h : (s.openRule (s.ruleFrame rule p)).Grows t) (m : Match) :
    s.Grows (t.closeRule (s.ruleFrame rule p) m) := by
  by_cases he : s.Emits
  · obtain ⟨f, hf⟩ := h.tokens
    have hq : ¬s.lookahead ≠ none := fun hl => hl he.1
    have ho := openRule_eq (s.ruleFrame rule p) s
    rw [ho] at h
    rw [closeRule_eq]
    refine ⟨?_, fun hl => absurd hl hq, h.captures, h.calls, h.callLimit, h.atomicity, h.lookahead⟩
    cases m with
    | matched q => exact ⟨_, hf.closeRule q⟩
    | failed q => exact ⟨.nil, (Adds.refl s).of_tokens_eq (tokens_closeRule_failed hf.isPrefix he q)⟩
  · rw [openRule_of_not_emits he] at h
    exact h.trans (restores_closeRule_of_not_emits he m).grows

theorem Restores.closeRule (h : (s.openRule (s.ruleFrame rule p)).Restores t) (q : Nat) :
    s.Restores (t.closeRule (s.ruleFrame rule p) (.failed q)) := by
  by_cases he : s.Emits
  · obtain ⟨f, hf⟩ := h.grows.tokens
    have ht := tokens_closeRule_failed hf.isPrefix he q
    have ho := openRule_eq (s.ruleFrame rule p) s
    rw [Restores, ho] at h
    rw [Restores, closeRule_eq, ht, h]
  · rw [openRule_of_not_emits he] at h
    exact h.trans (restores_closeRule_of_not_emits he _)

end Rule

end State

end Peg
