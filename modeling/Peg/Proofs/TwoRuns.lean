import Peg.Proofs.Backtracking

namespace Peg

variable {S : State → State → Prop}

/-- Both runs match and end in the same place, or both fail there, or both raise the same error, or
neither ends. What they leave behind is related. -/
inductive Outcome.Related (S : State → State → Prop) : Outcome State → Outcome State → Prop
  | done (m : Match) {s t : State} (h : S s t) : Related S (.done m s) (.done m t)
  | raised (e : RunError) {s t : State} (h : S s t) : Related S (.raised e s) (.raised e t)
  | exhausted : Related S .exhausted .exhausted

/-- From related states the recognisers come to related ends. -/
def Recogniser.Related (S : State → State → Prop) (a b : Recogniser) : Prop :=
  ∀ p ⦃s t : State⦄, S s t → Outcome.Related S (a p s) (b p t)

/-- A relation that two runs keep when they take the same steps, but perhaps not when they read or take from the
stack of captures. Runs that `rejoin` are back where they began, but for the record of failures. -/
structure State.Abreast (S : State → State → Prop) : Prop where
  atCallLimit : ∀ {s t : State}, S s t → (s.AtCallLimit ↔ t.AtCallLimit)
  note : ∀ {s t : State} m, S s t → S (s.note m) (t.note m)
  enterCall : ∀ {s t : State} c, S s t → S (s.enterCall c) (t.enterCall c)
  leaveCall : ∀ {s t : State}, S s t → S s.leaveCall t.leaveCall
  lookInto : ∀ {s t : State} polarity, S s t → S (s.lookInto polarity) (t.lookInto polarity)
  push : ∀ {s t : State} span, S s t →
    S (s.modifyCaptures (CaptureStack.push span)) (t.modifyCaptures (CaptureStack.push span))
  rejoin : ∀ {s t s' t' : State}, S s t → S s' t' →
    S { s with attempts := s'.attempts, furthest := s'.furthest }
      { t with attempts := t'.attempts, furthest := t'.furthest }

/-- A relation of this kind that hides nothing on which matching depends. -/
structure State.Lockstep (S : State → State → Prop) : Prop extends Abreast S where
  items : ∀ {s t : State}, S s t → s.captures.items = t.captures.items
  pop : ∀ {s t : State}, S s t → S (s.modifyCaptures CaptureStack.pop) (t.modifyCaptures CaptureStack.pop)

namespace Outcome.Related

variable {o o' : Outcome State}

theorem andThen {f f' : Nat → State → Outcome State} (h : o.Related S o')
    (hf : ∀ q ⦃s t : State⦄, S s t → (f q s).Related S (f' q t)) : (o.andThen f).Related S (o'.andThen f') := by
  cases h with
  | done m h =>
      cases m with
      | matched q => exact hf q h
      | failed q => exact .done _ h
  | raised e h => exact .raised e h
  | exhausted => exact .exhausted

theorem orElse {f f' : Nat → State → Outcome State} (h : o.Related S o')
    (hf : ∀ q ⦃s t : State⦄, S s t → (f q s).Related S (f' q t)) : (o.orElse f).Related S (o'.orElse f') := by
  cases h with
  | done m h =>
      cases m with
      | matched q => exact .done _ h
      | failed q => exact hf q h
  | raised e h => exact .raised e h
  | exhausted => exact .exhausted

theorem mapMatch (h : o.Related S o') (f : Match → Match) : (o.mapMatch f).Related S (o'.mapMatch f) := by
  cases h with
  | done m h => exact .done _ h
  | raised e h => exact .raised e h
  | exhausted => exact .exhausted

theorem leave {f f' : Match → State → State} (h : o.Related S o')
    (hf : ∀ m ⦃s t : State⦄, o = .done m s → o' = .done m t → S s t → S (f m s) (f' m t)) :
    (o.leave f).Related S (o'.leave f') := by
  cases h with
  | done m h => exact .done m (hf m rfl rfl h)
  | raised e h => exact .raised e h
  | exhausted => exact .exhausted

theorem leave_left {f : Match → State → State} (h : o.Related S o') (hf : ∀ m ⦃s t : State⦄, S s t → S (f m s) t) :
    (o.leave f).Related S o' := by
  cases h with
  | done m h => exact .done m (hf m h)
  | raised e h => exact .raised e h
  | exhausted => exact .exhausted

theorem symm (hS : ∀ {s t : State}, S s t → S t s) (h : o.Related S o') : o'.Related S o := by
  cases h with
  | done m h => exact .done m (hS h)
  | raised e h => exact .raised e (hS h)
  | exhausted => exact .exhausted

end Outcome.Related

/-- A relation that also says nothing of the tokens and of the names on record. -/
structure State.Unlabelled (S : State → State → Prop) : Prop extends Lockstep S where
  symm : ∀ {s t : State}, S s t → S t s
  relabel : ∀ {s t : State} tokens attempts, S s t → S { s with tokens := tokens, attempts := attempts } t

/-- A relation of this kind between states in the same mode. -/
structure State.SameMode (S : State → State → Prop) : Prop extends Unlabelled S where
  atomicity : ∀ {s t : State}, S s t → s.atomicity = t.atomicity
  setAtomicity : ∀ {s t : State} mode, S s t → S (s.setAtomicity mode) (t.setAtomicity mode)

namespace Recogniser.Related

variable {a b : Recogniser}

theorem symm (hS : ∀ {s t : State}, S s t → S t s) (h : a.Related S b) : b.Related S a :=
  fun p _ _ hs => (h p (hS hs)).symm hS

theorem inAtomicity (hmode : ∀ {s t : State}, S s t → s.atomicity = t.atomicity)
    (hset : ∀ {s t : State} mode, S s t → S (s.setAtomicity mode) (t.setAtomicity mode)) (mode : Atomicity)
    (h : a.Related S b) : (a.inAtomicity mode).Related S (b.inAtomicity mode) := by
  intro p s t hs
  refine (h p (hset mode hs)).leave ?_
  intro m u v _ _ hm
  rw [hmode hs]
  exact hset _ hm

theorem inGaps (hmode : ∀ {s t : State}, S s t → s.atomicity = t.atomicity) (h : a.Related S b) :
    a.inGaps.Related S b.inGaps := by
  intro p s t hs
  unfold Recogniser.inGaps
  rw [← hmode hs]
  split
  · exact .done _ hs
  · exact h p hs

/-- A rule does nothing but label what its body does. -/
theorem inRule_left (hrelabel : ∀ {s t : State} tokens attempts, S s t →
      S { s with tokens := tokens, attempts := attempts } t)
    (name : Octets) (h : a.Related S b) : (a.inRule name).Related S b := by
  intro p s t hs
  refine (h p ?_).leave_left fun m u v hm => ?_
  · rw [State.openRule_eq]
    exact hrelabel _ s.attempts hs
  · rw [State.closeRule_eq]
    exact hrelabel _ _ hm

theorem inRule (hsymm : ∀ {s t : State}, S s t → S t s)
    (hrelabel : ∀ {s t : State} tokens attempts, S s t →
      S { s with tokens := tokens, attempts := attempts } t)
    (name : Octets) (h : a.Related S b) : (a.inRule name).Related S (b.inRule name) :=
  (((h.inRule_left hrelabel name).symm hsymm).inRule_left hrelabel name).symm hsymm

/-- Only the two builtins that recall a capture ask what lies on the stack. -/
theorem builtin (hrule : ∀ {a b : Recogniser} name, a.Related S b → (a.inRule name).Related S (b.inRule name))
    (x : Subject) {b : Builtin} (hpeek : b ≠ .peek) (hpop : b ≠ .pop) : (b.run x).Related S (b.run x) := by
  have hm : ∀ w, (Recogniser.ofMatcher w).Related S (.ofMatcher w) := fun _ _ _ _ hs => .done _ hs
  cases b with
  | any => exact hm _
  | endOfInput => exact hrule _ (hm _)
  | startOfInput => exact hm _
  | peek => exact absurd rfl hpeek
  | pop => exact absurd rfl hpop

end Recogniser.Related

namespace State.Abreast

variable {x : Subject} {a b c d : Recogniser} (hS : Abreast S)

include hS

theorem attempt (ha : a.Framed x) (hb : b.Framed x) (h : a.Related S b) : a.attempt.Related S b.attempt := by
  intro p s t hs
  refine ((h p hs).leave ?_).mapMatch _
  intro m u v hu hv hm
  cases m with
  | matched q => exact hm
  | failed q =>
      have hr := hS.rejoin hs hm
      rw [((ha hu).1.rollBack q).eq, ((hb hv).1.rollBack q).eq]
      exact hr

theorem look (polarity : Polarity) (ha : a.Framed x) (hb : b.Framed x) (h : a.Related S b) :
    (a.look polarity).Related S (b.look polarity) := by
  intro p s t hs
  refine ((h p (hS.lookInto polarity hs)).leave ?_).mapMatch _
  intro m u v hu hv hm
  have hr := hS.rejoin hs hm
  rw [(ha hu).1.lookBack.eq, (hb hv).1.lookBack.eq]
  exact hr

omit hS in
theorem loop (h : a.Related S b) (n : Nat) (room : Option Nat) : (a.loop n room).Related S (b.loop n room) := by
  induction n generalizing room with
  | zero => exact fun _ _ _ _ => .exhausted
  | succ n ih =>
      intro p s t hs
      have hr := h p hs
      simp only [Recogniser.loop]
      generalize a p s = o at hr ⊢
      generalize b p t = o' at hr ⊢
      split
      · exact .done _ hs
      · cases hr with
        | done m hm =>
            cases m with
            | matched q =>
                by_cases hq : q ≤ p
                · simp only [if_pos hq]
                  exact .done _ hm
                · simp only [if_neg hq]
                  exact ih _ q hm
            | failed q => exact .done _ hm
        | raised e h => exact .raised e h
        | exhausted => exact .exhausted

theorem noted (h : a.Related S b) : a.noted.Related S b.noted :=
  fun p _ _ hs => (h p hs).leave fun m _ _ _ _ hm => hS.note m hm

theorem tidyOperators (x : Subject) : TidyOperators x (Recogniser.Related S) where
  nothing := fun _ _ _ hs => .done _ hs
  noted := hS.noted
  andThen _ h h' := fun p _ _ hs => (h p hs).andThen h'
  orElse _ h h' := fun p _ _ hs => (h p hs).orElse fun _ _ _ hs => h' p hs
  optional h := fun p _ _ hs => (h p hs).mapMatch _
  attempt := hS.attempt
  look := hS.look
  capture h := fun p _ _ hs => (h p hs).andThen fun q _ _ hs => .done _ (hS.push ⟨p, q⟩ hs)
  loop _ _ h := fun p _ _ hs => loop h _ _ p hs

theorem inCall (name : Octets) (h : a.Related S b) : (a.inCall name).Related S (b.inCall name) := by
  intro p s t hs
  unfold Recogniser.inCall
  by_cases hl : s.AtCallLimit
  · rw [if_pos hl, if_pos ((hS.atCallLimit hs).mp hl)]
    exact .raised _ hs
  · rw [if_neg hl, if_neg (fun ht => hl ((hS.atCallLimit hs).mpr ht))]
    exact (h p (hS.enterCall _ hs)).leave fun _ _ _ _ _ hm => hS.leaveCall hm

/-- An expression is related under two grammars if the separators are and all calls that it makes. -/
theorem expr {g g' : Grammar} {call call' : Caller} (ht : ∀ name, (call name).Tidy x) (ht' : ∀ name, (call' name).Tidy x)
    (hs : (g.separators x call).Related S (g'.separators x call')) {e : Expr}
    (hcall : ∀ name, Expr.ref name ∈ e.leaves → (call name).Related S (call' name)) :
    (e.run g x call).Related S (e.run g' x call') := by
  have hm : ∀ w, (Recogniser.ofMatcher w).noted.Related S (Recogniser.ofMatcher w).noted :=
    fun _ => hS.noted fun _ _ _ hs => .done _ hs
  refine (hS.tidyOperators x).expr ht ht' hs fun d hd hl => ?_
  cases d with
  | literal | folded | range | scan => exact hm _
  | ref name => exact hS.noted (hcall name hd)
  | look | seq | choice | optional | repeated | capture => exact hl.elim

end State.Abreast

namespace State.Lockstep

variable (hS : Lockstep S)

include hS

theorem recallTop (x : Subject) (b : Builtin) {f : State → State} (hf : ∀ ⦃s t : State⦄, S s t → S (f s) (f t)) :
    (b.recallTop x f).Related S (b.recallTop x f) := by
  intro p s t hs
  unfold Builtin.recallTop CaptureStack.top?
  rw [← hS.items hs]
  split
  · exact .raised _ hs
  · split
    · exact .done _ (hf hs)
    · exact .done _ hs

theorem builtin (hrule : ∀ {a b : Recogniser} name, a.Related S b → (a.inRule name).Related S (b.inRule name))
    (x : Subject) (b : Builtin) : (b.run x).Related S (b.run x) := by
  cases b with
  | any | endOfInput | startOfInput => exact Recogniser.Related.builtin hrule x nofun nofun
  | peek => exact hS.recallTop x .peek fun _ _ hs => hs
  | pop => exact hS.recallTop x .pop fun _ _ hs => hS.pop hs

end State.Lockstep

namespace State.Unlabelled

variable {a b : Recogniser} (hS : Unlabelled S)

include hS

theorem related_symm (h : a.Related S b) : b.Related S a := h.symm hS.symm

theorem inRule_left (name : Octets) (h : a.Related S b) : (a.inRule name).Related S b :=
  Recogniser.Related.inRule_left hS.relabel name h

theorem inRule (name : Octets) (h : a.Related S b) : (a.inRule name).Related S (b.inRule name) :=
  h.inRule hS.symm hS.relabel name

end State.Unlabelled

namespace State.SameMode

variable {a b : Recogniser} (hS : SameMode S)

include hS

theorem inAtomicity (mode : Atomicity) (h : a.Related S b) : (a.inAtomicity mode).Related S (b.inAtomicity mode) :=
  h.inAtomicity hS.atomicity hS.setAtomicity mode

theorem inGaps (h : a.Related S b) : a.inGaps.Related S b.inGaps := Recogniser.Related.inGaps hS.atomicity h

theorem tidyCongruence (x : Subject) : TidyCongruence x (Recogniser.Related S) :=
  { hS.tidyOperators x with
    ofMatcher := fun _ _ _ _ hs => .done _ hs
    undefinedRule := fun _ _ _ _ hs => .raised _ hs
    inGaps := hS.inGaps
    inRule := hS.inRule
    inAtomicity := hS.inAtomicity
    peek := hS.builtin hS.inRule x .peek
    pop := hS.builtin hS.inRule x .pop }

end State.SameMode

end Peg
