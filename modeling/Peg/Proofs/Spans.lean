import Peg.Proofs.Semantics

namespace Peg

/-- A match ends inside the subject, and its rules lie between its ends. -/
def Answer.Spans (x : Subject) (p : Nat) : Answer → Prop
  | fail => True
  | error _ => True
  | ok q _ f => x.Reaches p q ∧ f.Within p q

namespace Answer.Spans

variable {x : Subject} {p : Nat} {a : Answer}

theorem stays (x : Subject) (p : Nat) (c : List Span) : (ok p c .nil).Spans x p := ⟨.refl p, Nat.le_refl p⟩

theorem ofMatch {w : Matcher} (hw : x.Forward w) (p : Nat) (c : List Span) : (ofMatch c (w p)).Spans x p := by
  cases h : w p with
  | matched q =>
      have hq := hw.reaches h
      exact ⟨hq, hq.1⟩
  | failed q => trivial

theorem orNothing (h : a.Spans x p) (c : List Span) : (a.orNothing p c).Spans x p := by
  cases a with
  | fail => exact stays x p c
  | error e => trivial
  | ok q d f => exact h

theorem lookedAhead (x : Subject) (p : Nat) (c : List Span) (polarity : Polarity) (a : Answer) :
    (a.lookedAhead p c polarity).Spans x p := by
  cases polarity <;> cases a <;> first | trivial | exact stays x p c

theorem captured (h : a.Spans x p) : (a.captured p).Spans x p := by
  cases a with
  | fail | error => trivial
  | ok q c f => exact h

theorem inNode (h : a.Spans x p) (rule : Octets) (visible : Bool) : (a.inNode rule p visible).Spans x p := by
  cases a with
  | fail | error => trivial
  | ok q c f =>
      cases visible with
      | false => exact h
      | true => exact ⟨h.1, h.2.node rule⟩

theorem behind {q : Nat} {c : List Span} {f : Forest} (h : (ok q c f).Spans x p) (ha : a.Spans x q) :
    (a.behind f).Spans x p := by
  cases a with
  | fail | error => trivial
  | ok r d g => exact ⟨h.1.trans ha.1, h.2.append ha.2⟩

end Answer.Spans

theorem Eval.spans {g : Grammar} {x : Subject} {m : Atomicity} {t : Task} {p : Nat} {c : List Span} {a : Answer}
    (h : Eval g x m t p c a) : a.Spans x p := by
  induction h with
  | @literal m l p c => exact .ofMatch (x.forward_text l.text) p c
  | @folded m l p c => exact .ofMatch (x.forward_foldedText l.text) p c
  | @range m r p c => exact .ofMatch (x.forward_runeIn r.low r.high) p c
  | @scan_found m k l ls p c q _ hq _ =>
      have hr := (x.forward_skipUntil k.text).reaches hq
      exact ⟨hr, hr.1⟩
  | scan_missed | peek_empty | pop_empty | undefinedRule | many_error => trivial
  | ref _ ih | seq _ ih | skip _ ih => exact ih
  | look polarity _ _ => exact .lookedAhead x _ _ polarity _
  | choice_first _ _ ih | both_first _ _ ih => exact ih
  | choice_second _ _ _ ih => exact ih
  | optional _ ih => exact ih.orNothing _
  | repeated_never | skip_nothing | nothing | many_full | many_failed => exact .stays x _ _
  | repeated _ _ ih =>
      split
      · exact ih.orNothing _
      · exact ih
  | capture _ ih => exact ih.captured
  | @any m p c => exact .ofMatch (x.forward_skip 1) p c
  | @startOfInput m p c => exact .ofMatch x.forward_atStart p c
  | @endOfInput m p c => exact (Answer.Spans.ofMatch x.forward_atEnd p c).inNode _ _
  | @peek m p span c => exact .ofMatch (x.forward_text _) p _
  | @pop m p span c => exact .ofMatch (x.forward_text _) p _
  | rule _ _ _ ih => exact ih.inNode _ _
  | both _ _ iht ihu => exact iht.behind ihu
  | many_last _ _ _ ih => exact ih
  | many_more _ _ _ _ ih ihm => exact ih.behind ihm

end Peg
