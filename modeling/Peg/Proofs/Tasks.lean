import Peg.Proofs.Backtracking
import Peg.Proofs.Semantics

namespace Peg

def Task.run (g : Grammar) (x : Subject) (call : Caller) : Task → Recogniser
  | .expr e => e.run g x call
  | .call name => call name
  | .skip => g.separators x call
  | .nothing => .nothing
  | .both t u => (t.run g x call).andThen (u.run g x call)
  | .many room t => x.loop room (t.run g x call).attempt

theorem Congruence.task {x : Subject} {loose tidy : Recogniser → Recogniser → Prop} (h : Congruence x loose tidy)
    {g : Grammar} {call call' : Caller} (hc : ∀ name, tidy (call name) (call' name)) (t : Task) :
    loose (t.run g x call) (t.run g x call') := by
  induction t with
  | expr e => exact h.loosen (h.expr hc e)
  | call name => exact h.loosen (hc name)
  | skip => exact h.loosen (h.separators hc)
  | nothing => exact h.loosen h.nothing
  | both t u iht ihu => exact h.andThen iht ihu
  | many room t ih => exact h.loosen (h.loop room (h.attempt ih))

namespace Task

variable (g : Grammar) (x : Subject) (call : Caller)

theorem run_further (e : Expr) (n : Nat) :
    (further e n).run g x call = .further (g.separators x call) (e.run g x call) n := by
  induction n with
  | zero => rfl
  | succ n ih =>
      rw [further, run, ih]
      rfl

/-- A repetition does its occurrences as a whole. It may do without them if none has to come. -/
theorem counted_eq (count : Count) (e : Expr) (h : count.max? ≠ some 0) :
    x.counted (g.separators x call) (e.run g x call) count.min count.max? =
      if count.min = 0 then ((occurrences count e).run g x call).optional.attempt
      else ((occurrences count e).run g x call).attempt := by
  unfold Subject.counted occurrences
  simp only [if_neg h, x.greedilyAfter_eq_loop]
  cases hm : count.min with
  | zero =>
      rw [if_pos rfl, run, run, run_further]
      simp only [Nat.zero_sub, Recogniser.further, Recogniser.andThen_nothing]
      rfl
  | succ n =>
      rw [if_neg (Nat.succ_ne_zero n), run, run, run_further, Nat.max_eq_left (Nat.succ_le_succ (Nat.zero_le n))]
      rfl

variable {g x call}

theorem tidy_expr (h : ∀ name, (call name).Tidy x) (e : Expr) : (e.run g x call).Tidy x :=
  @Congruence.expr _ _ _ (Recogniser.congruence_tidy x).toCongruence g call call h e

theorem framed_run (h : ∀ name, (call name).Tidy x) (t : Task) : (t.run g x call).Framed x :=
  @Congruence.task _ _ _ (Recogniser.congruence_tidy x).toCongruence g call call h t

theorem tidy_occurrences (h : ∀ name, (call name).Tidy x) {count : Count} (hc : count.min = 0) (e : Expr) :
    ((occurrences count e).run g x call).Tidy x := by
  have hn : (e.run g x call).andThen .nothing = e.run g x call := Recogniser.andThen_nothing _
  rw [occurrences, hc, run, run, run, Nat.zero_sub, further, run, hn]
  exact (tidy_expr h e).andThen ((framed_run h _).attempt.subjectLoop _)

theorem gap_eq (h : ∀ name, (call name).Tidy x) : g.gap x call = g.gapTask.run g x call := by
  have hw := (h whitespaceName).repeatedly
  have hn := ((h commentName).framed.andThen hw.tidy.framed).attempt
  have hr : ∀ name, x.repeatedly (call name) = (many none (.call name)).run g x call := by
    intro name
    rw [run, run, Recogniser.attempt_eq (h name), Recogniser.repeatedly_eq_loop (h name)]
  rw [Grammar.gap, Grammar.gapTask]
  cases g.hasWhitespace <;> cases g.hasComment
  · rfl
  · exact hr commentName
  · exact hr whitespaceName
  · dsimp only
    rw [Recogniser.attempt_eq (hw.tidy.andThen hn.repeatedly), Recogniser.repeatedly_eq_loop hn, hr whitespaceName]
    rfl

end Task

end Peg
