import Peg.Proofs.Backtracking
import Peg.Proofs.Semantics

namespace Peg

/-- The part of a forest that a state takes tokens for. -/
def State.visible (s : State) (f : Forest) : Forest := if s.lookahead = none then f else .nil

/-- A run that began in the state `s` ended as an answer says. -/
inductive Outcome.Answers (s : State) : Outcome State → Answer → Prop
  | matched {q t f} (ha : State.Adds (s.visible f) s t) :
      Answers s (.done (.matched q) t) (.ok q t.captures.items f)
  | failed {q t} : Answers s (.done (.failed q) t) .fail
  | raised {e t} : Answers s (.raised e t) (.error e)

theorem State.visible_append (s : State) (f g : Forest) : s.visible f ++ s.visible g = s.visible (f ++ g) := by
  unfold visible
  split <;> rfl

theorem State.visible_nil (s : State) : s.visible .nil = .nil := ite_self _

theorem State.Adds.visible_nil (s : State) : Adds (s.visible .nil) s s := by
  rw [State.visible_nil]
  exact .refl s

theorem State.Restores.adds_nil {s t : State} (h : s.Restores t) : Adds (s.visible .nil) s t :=
  (Adds.visible_nil s).of_tokens_eq h.tokens_eq

theorem State.Restores.items {s t : State} (h : s.Restores t) : t.captures.items = s.captures.items := by
  rw [h.eq]

theorem State.Restores.visible {s t : State} (h : s.Restores t) (f : Forest) : t.visible f = s.visible f := by
  rw [h.eq]
  rfl

namespace Outcome.Answers

variable {s t : State} {o : Outcome State} {a : Answer}

theorem of_restores (h : s.Restores t) (q : Nat) :
    Answers s (.done (.matched q) t) (.ok q s.captures.items .nil) := by
  rw [← h.items]
  exact .matched h.adds_nil

theorem ofMatch (s : State) (m : Match) : Answers s (.done m s) (.ofMatch s.captures.items m) := by
  cases m with
  | matched q => exact of_restores (.refl s) q
  | failed q => exact .failed

theorem noted (h : o.Answers s a) : (o.leave State.note).Answers s a := by
  cases h with
  | matched ha => exact .matched ha
  | failed => exact .failed
  | raised => exact .raised

theorem first (h : o.Answers s a) (ha : a.Stops) (k : Nat → State → Outcome State) :
    (o.andThen k).Answers s a := by
  cases h with
  | matched => exact absurd ha id
  | failed => exact .failed
  | raised => exact .raised

theorem behind {f : Forest} (hf : State.Adds (s.visible f) s t) (hl : t.lookahead = s.lookahead)
    (h : o.Answers t a) : o.Answers s (a.behind f) := by
  cases h with
  | @matched q u g hg =>
      have hv : t.visible g = s.visible g := by rw [State.visible, State.visible, hl]
      have ha := hf.trans hg
      rw [hv, State.visible_append] at ha
      exact .matched ha
  | failed => exact .failed
  | raised => exact .raised

theorem restores (hr : s.Restores t) (h : o.Answers t a) : o.Answers s a := by
  cases h with
  | @matched q u g hg =>
      rw [State.Adds] at hg
      rw [hr.visible, hr.tokens_eq] at hg
      exact .matched hg
  | failed => exact .failed
  | raised => exact .raised

theorem attempt (h : o.Answers s a) (k : State.Mark) (p : Nat) :
    ((o.leave (State.rollBack k)).mapMatch (Match.whole p)).Answers s a := by
  cases h with
  | matched ha => exact .matched ha
  | failed => exact .failed
  | raised => exact .raised

theorem optional (h : o.Answers s a) (hr : ∀ {q t}, o = .done (.failed q) t → s.Restores t) (p : Nat) :
    (o.mapMatch (Match.orNothing p)).Answers s (a.orNothing p s.captures.items) := by
  cases h with
  | matched ha => exact .matched ha
  | failed => exact of_restores (hr rfl) p
  | raised => exact .raised

theorem look {polarity : Polarity} (h : o.Answers (s.lookInto polarity) a)
    (hg : ∀ {m t}, o = .done m t → (s.lookInto polarity).Grows t) (p : Nat) :
    ((o.leave fun _ => State.lookBack s.lookahead s.captures.snapshot).mapMatch
      (Match.lookedAhead p polarity)).Answers s (a.lookedAhead p s.captures.items polarity) := by
  cases h with
  | matched =>
      cases polarity with
      | positive => exact of_restores (hg rfl).lookBack p
      | negative => exact .failed
  | failed =>
      cases polarity with
      | positive => exact .failed
      | negative => exact of_restores (hg rfl).lookBack p
  | raised => cases polarity <;> exact .raised

theorem capture (h : o.Answers s a) (p : Nat) : (o.andThen fun q t => .done (.matched q)
    (t.modifyCaptures (CaptureStack.push ⟨p, q⟩))).Answers s (a.captured p) := by
  cases h with
  | @matched q t f ha =>
      exact matched (t := t.modifyCaptures (CaptureStack.push ⟨p, q⟩)) ha
  | failed => exact .failed
  | raised => exact .raised

theorem leaveCall {c : Call} (h : o.Answers (s.enterCall c) a) :
    (o.leave fun _ => State.leaveCall).Answers s a := by
  cases h with
  | @matched q t f ha => exact matched (t := t.leaveCall) ha
  | failed => exact .failed
  | raised => exact .raised

theorem setAtomicity {mode : Atomicity} (h : o.Answers (s.setAtomicity mode) a) (outer : Atomicity) :
    (o.leave fun _ => State.setAtomicity outer).Answers s a := by
  cases h with
  | @matched q t f ha => exact matched (t := t.setAtomicity outer) ha
  | failed => exact .failed
  | raised => exact .raised

theorem visible_node (s : State) (rule : Octets) (span : Span) (f : Forest) :
    (if s.Emits then .node rule span (s.visible f) else s.visible f) =
      s.visible (if s.atomicity ≠ .atomic then .node rule span f else f) := by
  by_cases hl : s.lookahead = none
  · have he : s.Emits ↔ s.atomicity ≠ .atomic := and_iff_right hl
    simp only [State.visible, if_pos hl, he]
  · have he : ¬s.Emits := fun he => hl he.1
    simp only [State.visible, if_neg hl, if_neg he]

theorem closeRule {rule : Octets} {p : Nat} (h : o.Answers (s.openRule (s.ruleFrame rule p)) a) :
    (o.leave (State.closeRule (s.ruleFrame rule p))).Answers s
      (a.inNode rule p (s.atomicity ≠ .atomic)) := by
  cases h with
  | @matched q t f ha =>
      have hv : (s.openRule (s.ruleFrame rule p)).visible f = s.visible f := by
        rw [State.openRule_eq]
        rfl
      have hc : (t.closeRule (s.ruleFrame rule p) (.matched q)).captures = t.captures := by
        rw [State.closeRule_eq]
      rw [hv] at ha
      have hn := ha.closeRule q
      rw [visible_node] at hn
      have hm := matched (q := q) hn
      rw [hc] at hm
      simpa only [leave, Answer.inNode, decide_eq_true_eq] using hm
  | failed => exact .failed
  | raised => exact .raised

end Outcome.Answers

/-- A scope around a part: the part is run in a state of the scope, in a mode that depends on the mode
outside, and its answer is the scope's, but for a node. -/
def Recogniser.Encloses (w : Recogniser → Recogniser) (inside : Atomicity → Atomicity)
    (outside : Atomicity → Nat → Answer → Answer) : Prop :=
  ∀ r p s, ∃ t k, w r p s = (r p t).leave k ∧ t.atomicity = inside s.atomicity ∧ t.captures = s.captures ∧
    t.callLimit = s.callLimit ∧
      ∀ ⦃o : Outcome State⦄ ⦃a⦄, o.Answers t a → (o.leave k).Answers s (outside s.atomicity p a)

namespace Recogniser

theorem encloses_inRule (name : Octets) :
    Encloses (inRule name) id fun m p a => a.inNode name p (m ≠ .atomic) := by
  intro r p s
  refine ⟨_, _, rfl, ?_, ?_, ?_, fun _ _ ha => ha.closeRule⟩
  · rw [State.openRule_eq, id]
  · rw [State.openRule_eq]
  · rw [State.openRule_eq]

theorem encloses_inAtomicity (mode : Atomicity) :
    Encloses (inAtomicity mode) (fun _ => mode) fun _ _ a => a :=
  fun _ _ s => ⟨_, _, rfl, rfl, rfl, rfl, fun _ _ ha => ha.setAtomicity s.atomicity⟩

variable {w w' : Recogniser → Recogniser} {inside inside' : Atomicity → Atomicity}
  {outside outside' : Atomicity → Nat → Answer → Answer}

theorem Encloses.comp (h : Encloses w inside outside) (h' : Encloses w' inside' outside') :
    Encloses (fun r => w (w' r)) (fun m => inside' (inside m))
      fun m p a => outside m p (outside' (inside m) p a) := by
  intro r p s
  obtain ⟨t, k, hw, ht, htc, htl, hk⟩ := h (w' r) p s
  obtain ⟨u, j, hw', hu, huc, hul, hj⟩ := h' r p t
  refine ⟨u, fun m v => k m (j m v), ?_, ?_, huc.trans htc, hul.trans htl, ?_⟩
  · exact hw.trans ((congrArg (Outcome.leave · k) hw').trans (Outcome.leave_leave _ j k))
  · rw [hu, ht]
  · intro o a ha
    have hb := hk (hj ha)
    rw [ht, Outcome.leave_leave] at hb
    exact hb

theorem encloses_id : Encloses id id fun _ _ a => a :=
  fun _ _ s => ⟨s, fun _ t => t, (Outcome.leave_id _).symm, rfl, rfl, rfl, fun o _ ha => by rwa [o.leave_id]⟩

theorem Encloses.hidden (h : Encloses w inside fun _ _ a => a) (rule : Octets) :
    Encloses w inside fun _ p a => a.inNode rule p false := by
  have hn : ∀ (p : Nat) (a : Answer), a.inNode rule p false = a := fun _ a => by cases a <;> rfl
  simpa only [hn] using h

end Recogniser

/-- A rule is its body in a scope, which depends on its kind and its name. -/
theorem Rule.encloses (r : Rule) : ∃ w, (∀ g x call, r.run g x call = w (r.body.run g x call)) ∧
    Recogniser.Encloses w r.modeInside fun m p a => a.inNode r.name p (r.hasNode m) := by
  have hr := Recogniser.encloses_inRule r.name
  have ha := Recogniser.encloses_inAtomicity .atomic
  unfold Rule.run Rule.hasNode
  by_cases hs : r.IsSeparator
  · have hm : r.modeInside = fun _ => .atomic := funext fun _ => if_pos hs
    simp only [hm, hs, not_true, decide_false]
    cases r.kind with
    | normal => exact ⟨_, fun _ _ _ => rfl, hr.comp ha⟩
    | atomic => exact ⟨_, fun _ _ _ => rfl, hr.comp ha⟩
    | silent => exact ⟨_, fun _ _ _ => rfl, ha.hidden r.name⟩
    | compoundAtomic => exact ⟨_, fun _ _ _ => rfl, ha.hidden r.name⟩
    | nonAtomic => exact ⟨_, fun _ _ _ => rfl, ha.hidden r.name⟩
  · have hm : r.modeInside = fun m => _ := funext fun _ => if_neg hs
    simp only [hm, hs, not_false_eq_true, decide_true]
    cases r.kind with
    | normal => exact ⟨_, fun _ _ _ => rfl, hr⟩
    | atomic => exact ⟨_, fun _ _ _ => rfl, hr.comp ha⟩
    | silent => exact ⟨_, fun _ _ _ => rfl, Recogniser.encloses_id.hidden r.name⟩
    | compoundAtomic => exact ⟨_, fun _ _ _ => rfl, (Recogniser.encloses_inAtomicity _).comp hr⟩
    | nonAtomic => exact ⟨_, fun _ _ _ => rfl, (Recogniser.encloses_inAtomicity _).comp hr⟩

end Peg
