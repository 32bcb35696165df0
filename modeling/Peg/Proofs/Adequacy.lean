import Peg.Calc.Grammar
import Peg.Parser
import Peg.Proofs.Completeness
import Peg.Proofs.Soundness

namespace Peg

/-- An outcome has one answer, for the tokens tell the forest. -/
theorem Outcome.Answers.det {s : State} (hs : s.lookahead = none) {o : Outcome State} {a b : Answer}
    (ha : o.Answers s a) (hb : o.Answers s b) : a = b := by
  cases ha with
  | @matched q t f hf =>
      cases hb with
      | @matched q' t' f' hf' =>
          have he := List.append_cancel_left (hf.symm.trans hf')
          rw [State.visible, State.visible, if_pos hs, if_pos hs] at he
          rw [Forest.tokensFrom_inj he]
  | failed =>
      cases hb with
      | failed => rfl
  | raised =>
      cases hb with
      | raised => rfl

theorem Eval.det {g : Grammar} {x : Subject} {m : Atomicity} {t : Task} {p : Nat} {c : List Span} {a b : Answer}
    (ha : Eval g x m t p c a) (hb : Eval g x m t p c b) (hp : p ≤ x.size) : a = b := by
  obtain ⟨n, hn⟩ := ha.complete hp
  obtain ⟨k, hk⟩ := hb.complete hp
  let s : State := { atomicity := m, captures := { items := c } }
  exact Outcome.Answers.det (s := s) rfl (hn _ (Nat.le_max_left n k) rfl rfl rfl)
    (hk _ (Nat.le_max_right n k) rfl rfl rfl)

/-- What an answer is told as. Of captures and of the end of the match nothing is told. -/
inductive Answer.Told : Answer → Except RunError Verdict → Prop
  | ok {q c f tokens} (h : tokens.toList = f.tokens) : Told (.ok q c f) (.ok (.accepted tokens))
  | fail {failure} : Told .fail (.ok (.refused failure))
  | error {e} : Told (.error e) (.error e)

namespace Parser

variable (p : Parser) (n : Nat) (start text : Octets)

/-- What the grammar means by a rule at the beginning of a text. -/
def Means (a : Answer) : Prop := Eval p.grammar (Subject.ofOctets text) .nonAtomic (.call start) 0 [] a

def fresh : State := { callLimit := p.callLimit }

variable {p n start text} {a b : Answer} {v : Except RunError Verdict}

theorem Means.det (ha : p.Means start text a) (hb : p.Means start text b) : a = b :=
  Eval.det ha hb (Nat.zero_le _)

theorem parse?_of_answers (h : (p.run n start (Subject.ofOctets text)).Answers p.fresh a) :
    ∃ v, p.parse? n start text = some v ∧ a.Told v := by
  unfold parse?
  dsimp only
  generalize p.run n start (Subject.ofOctets text) = o at h
  cases h with
  | matched hf => exact ⟨_, rfl, .ok hf⟩
  | failed => exact ⟨_, rfl, .fail⟩
  | raised => exact ⟨_, rfl, .error⟩

theorem parse?_of_cutOff (h : (p.run n start (Subject.ofOctets text)).CutOff p.callLimit)
    (hv : p.parse? n start text = some v) : p.callLimit ≠ 0 ∧ v = .error .callDepth := by
  unfold parse? at hv
  dsimp only at hv
  generalize p.run n start (Subject.ofOctets text) = o at h hv
  cases o with
  | done => exact absurd h id
  | raised e t =>
      obtain ⟨rfl, hl⟩ := h
      cases hv
      exact ⟨hl, rfl⟩
  | exhausted => cases hv

/-- A verdict is what the grammar means, or else a call limit has been reached. -/
theorem parse?_sound (h : p.parse? n start text = some v) :
    (p.callLimit ≠ 0 ∧ v = .error .callDepth) ∨ ∃ a, p.Means start text a ∧ a.Told v := by
  rcases p.grammar.follows_caller (Subject.ofOctets text) (p.depth n) start 0 p.fresh with hc | ⟨a, he, ha⟩
  · exact .inl (parse?_of_cutOff hc h)
  · obtain ⟨w, hw, ht⟩ := parse?_of_answers (n := n) ha
    rw [h] at hw
    cases hw
    exact .inr ⟨a, he, ht⟩

theorem parse?_complete (hl : p.callLimit = 0) (h : p.Means start text a) :
    ∃ n v, p.parse? n start text = some v ∧ a.Told v := by
  obtain ⟨n, hn⟩ := Eval.complete h (Nat.zero_le _)
  have hd : p.depth n = n := if_pos hl
  have hr : (p.run n start (Subject.ofOctets text)).Answers p.fresh a := hn _ (Nat.le_of_eq hd.symm) rfl rfl hl
  exact ⟨n, parse?_of_answers hr⟩

/-- Without a call limit a parser that comes to an end says what its grammar means, and it comes to an end
wherever the grammar means anything. -/
theorem parse?_adequate (hl : p.callLimit = 0) (start text : Octets) :
    (∀ n v, p.parse? n start text = some v →
      (∀ tokens, v = .ok (.accepted tokens) ↔
        ∃ q c f, p.Means start text (.ok q c f) ∧ tokens.toList = f.tokens) ∧
      ((∃ failure, v = .ok (.refused failure)) ↔ p.Means start text .fail) ∧
      ∀ e, v = .error e ↔ p.Means start text (.error e)) ∧
    ((∃ n v, p.parse? n start text = some v) ↔ ∃ a, p.Means start text a) := by
  have hsound : ∀ {n v}, p.parse? n start text = some v → ∃ a, p.Means start text a ∧ a.Told v := by
    intro n v hv
    rcases parse?_sound hv with ⟨hn, -⟩ | h
    · exact absurd hl hn
    · exact h
  refine ⟨fun n v hv => ?_, ?_⟩
  · obtain ⟨a, ha, ht⟩ := hsound hv
    refine ⟨fun tokens => ⟨?_, ?_⟩, ⟨?_, ?_⟩, fun e => ⟨?_, ?_⟩⟩
    · rintro rfl
      cases ht with
      | ok h => exact ⟨_, _, _, ha, h⟩
    · rintro ⟨q, c, f, hm, hf⟩
      cases ha.det hm
      cases ht with
      | ok h => rw [Array.toList_inj.mp (h.trans hf.symm)]
    · rintro ⟨failure, rfl⟩
      cases ht
      exact ha
    · intro hm
      cases ha.det hm
      cases ht
      exact ⟨_, rfl⟩
    · rintro rfl
      cases ht
      exact ha
    · intro hm
      cases ha.det hm
      cases ht
      rfl
  · constructor
    · rintro ⟨n, v, hv⟩
      obtain ⟨a, ha, -⟩ := hsound hv
      exact ⟨a, ha⟩
    · rintro ⟨a, ha⟩
      obtain ⟨n, v, hv, -⟩ := parse?_complete hl ha
      exact ⟨n, v, hv⟩

theorem parse?_adequate_calc :
    let p : Parser := { grammar := Calc.grammar }
    p.callLimit = 0 ∧
      (∃ q c f, p.Means (ascii "term") (ascii "7") (.ok q c f) ∧
        [⟨.start, ascii "term", 3, 0⟩, ⟨.start, ascii "number", 2, 0⟩, ⟨.stop, ascii "number", 1, 1⟩,
          ⟨.stop, ascii "term", 0, 1⟩] = f.tokens) ∧
      p.Means (ascii "term") (ascii ")") .fail ∧
      p.Means (ascii "pop") (ascii "7") (.error (.emptyStack (ascii "pop"))) :=
  ⟨rfl, (((parse?_adequate rfl _ _).1 4 _ rfl).1 #[_, _, _, _]).mp rfl,
    ((parse?_adequate rfl _ _).1 4 _ rfl).2.1.mp ⟨_, rfl⟩, (((parse?_adequate rfl _ _).1 1 _ rfl).2.2 _).mp rfl⟩

end Parser

end Peg
