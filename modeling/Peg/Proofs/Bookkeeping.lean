import Peg.Proofs.TwoRuns

namespace Peg

/-- The states may differ in the tokens, the look ahead, the record of failures, the journal of captures
and the names of the active calls. -/
structure State.Agrees (s t : State) : Prop where
  items : s.captures.items = t.captures.items
  atomicity : s.atomicity = t.atomicity
  depth : s.calls.length = t.calls.length
  callLimit : s.callLimit = t.callLimit

/-- Both runs match and end in the same place, or both fail there, or both raise the same error, or
neither ends. What they leave behind agrees. -/
inductive Outcome.Agrees : Outcome State → Outcome State → Prop
  | done (m : Match) {s t : State} (h : s.Agrees t) : Agrees (.done m s) (.done m t)
  | raised (e : RunError) (s t : State) : Agrees (.raised e s) (.raised e t)
  | exhausted : Agrees .exhausted .exhausted

namespace State

variable {s t : State}

theorem lockstep_agrees : Lockstep Agrees where
  items h := h.items
  atCallLimit h := by rw [AtCallLimit, AtCallLimit, h.callLimit, h.depth]
  note m h := by cases m <;> exact ⟨h.items, h.atomicity, h.depth, h.callLimit⟩
  enterCall _ h := ⟨h.items, h.atomicity, congrArg (· + 1) h.depth, h.callLimit⟩
  leaveCall h := by
    refine ⟨h.items, h.atomicity, ?_, h.callLimit⟩
    simp only [leaveCall, List.length_tail, h.depth]
  lookInto _ h := ⟨h.items, h.atomicity, h.depth, h.callLimit⟩
  push span h := ⟨congrArg (span :: ·) h.items, h.atomicity, h.depth, h.callLimit⟩
  pop h := by
    refine ⟨?_, h.atomicity, h.depth, h.callLimit⟩
    simp only [modifyCaptures, CaptureStack.items_pop, h.items]
  rejoin h _ := ⟨h.items, h.atomicity, h.depth, h.callLimit⟩

theorem sameMode_agrees : SameMode Agrees :=
  { lockstep_agrees with
    symm := fun h => ⟨h.items.symm, h.atomicity.symm, h.depth.symm, h.callLimit.symm⟩
    relabel := fun _ _ h => ⟨h.items, h.atomicity, h.depth, h.callLimit⟩
    atomicity := Agrees.atomicity
    setAtomicity := fun _ h => ⟨h.items, rfl, h.depth, h.callLimit⟩ }

end State

theorem Outcome.Related.agrees {o o' : Outcome State} (h : o.Related State.Agrees o') : o.Agrees o' := by
  cases h with
  | done m h => exact .done m h
  | raised e _ => exact .raised e _ _
  | exhausted => exact .exhausted

namespace Recogniser

/-- What such a recogniser does depends on nothing in which states may disagree. -/
def Blind (r : Recogniser) : Prop := ∀ p ⦃s t : State⦄, s.Agrees t → (r p s).Agrees (r p t)

variable {r : Recogniser}

theorem Related.blind (h : r.Related State.Agrees r) : r.Blind := fun p _ _ ha => (h p ha).agrees

end Recogniser

theorem Expr.blind_run (e : Expr) (g : Grammar) (x : Subject) (depth : Nat) :
    (e.run g x (g.caller x depth)).Blind :=
  (((State.sameMode_agrees.tidyCongruence x).callCongruence (fun _ _ _ _ => .exhausted)
    State.sameMode_agrees.inCall).run e g depth).2.2.blind

/-- Bookkeeping never influences matching. In particular an expression matches under a look ahead as it
does outside one. -/
theorem bookkeeping_invisible (g : Grammar) (x : Subject) (depth : Nat) (e : Expr) (p : Nat) {s t : State}
    (h : s.Agrees t) : (e.run g x (g.caller x depth) p s).Agrees (e.run g x (g.caller x depth) p t) ∧
      ∀ polarity, (e.run g x (g.caller x depth) p (s.lookInto polarity)).Agrees
        (e.run g x (g.caller x depth) p t) :=
  ⟨e.blind_run g x depth p h, fun _ => e.blind_run g x depth p
    ⟨h.items, h.atomicity, h.depth, h.callLimit⟩⟩

/-- A rule that leaves tokens in one state and none in the other, with a capture whose push the journal has
forgotten. -/
theorem bookkeeping_invisible_peek :
    let g : Grammar := ⟨[.written "r" .normal (.seq (.ref Builtin.peek.name) (.written "b"))], by decide, by decide,
      by decide⟩
    let x := Subject.ofOctets (ascii "aab")
    let s : State := { captures := .push ⟨0, 1⟩ {} }
    let t : State := { captures := { items := [⟨0, 1⟩] }, tokens := #[⟨.start, ascii "q", 0, 0⟩], furthest := 2,
                       lookahead := some .negative }
    s.Agrees t ∧
      ((Expr.rule "r").run g x (g.caller x 2) 1 s).Agrees ((Expr.rule "r").run g x (g.caller x 2) 1 t) := by
  intro g x s t
  have h : s.Agrees t := ⟨rfl, rfl, rfl, rfl⟩
  exact ⟨h, (bookkeeping_invisible g x 2 (.rule "r") 1 h).1⟩

end Peg
