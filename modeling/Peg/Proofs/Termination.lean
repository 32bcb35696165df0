import Peg.Grammar.Written
import Peg.Parser
import Peg.Proofs.Backtracking

namespace Peg

/-- A property of runs that stop short. Matches and failures have it anyway. -/
def Outcome.Lenient (P : Outcome State → Prop) : Prop := ∀ m s, P (.done m s)

namespace Outcome.Lenient

variable {P : Outcome State → Prop} {o : Outcome State}

theorem andThen (hP : Lenient P) (h : P o) {f : Nat → State → Outcome State}
    (hf : ∀ q s, o = .done (.matched q) s → P (f q s)) : P (o.andThen f) := by
  rcases o with ⟨q | q, s⟩ | ⟨e, s⟩ | _
  · exact hf q s rfl
  · exact hP _ s
  · exact h
  · exact h

theorem orElse (hP : Lenient P) (h : P o) {f : Nat → State → Outcome State}
    (hf : ∀ q s, o = .done (.failed q) s → P (f q s)) : P (o.orElse f) := by
  rcases o with ⟨q | q, s⟩ | ⟨e, s⟩ | _
  · exact hP _ s
  · exact hf q s rfl
  · exact h
  · exact h

theorem mapMatch (hP : Lenient P) (h : P o) (f : Match → Match) : P (o.mapMatch f) := by
  cases o with
  | done m s => exact hP _ s
  | raised | exhausted => exact h

theorem leave (hP : Lenient P) (h : P o) (f : Match → State → State) : P (o.leave f) := by
  cases o with
  | done m s => exact hP m _
  | raised | exhausted => exact h

end Outcome.Lenient

namespace Recogniser

/-- From an offset on, inside the subject and with these calls active, such a recogniser stops short only as
`P` allows. -/
def Stops (x : Subject) (P : Outcome State → Prop) (calls : List Call) (limit start : Nat) (r : Recogniser) : Prop :=
  ∀ ⦃p s⦄, start ≤ p → p ≤ x.size → s.calls = calls → s.callLimit = limit → P (r p s)

variable {x : Subject} {P : Outcome State → Prop} {calls : List Call} {limit start next : Nat} {r r' : Recogniser}

theorem stops_ofMatcher (hP : Outcome.Lenient P) (w : Matcher) : (ofMatcher w).Stops x P calls limit start :=
  fun p s _ _ _ _ => hP (w p) s

theorem Stops.noted (hP : Outcome.Lenient P) (h : r.Stops x P calls limit start) :
    r.noted.Stops x P calls limit start := fun _ _ hs hp hc hl => hP.leave (h hs hp hc hl) _

/-- The second part is asked only about the offsets at which the first part ends. -/
theorem Stops.andThen (hP : Outcome.Lenient P) (h : r.Stops x P calls limit start) (hf : r.Framed x)
    (hnext : ∀ ⦃p s q t⦄, start ≤ p → r p s = .done (.matched q) t → next ≤ q)
    (h' : r'.Stops x P calls limit next) : (r.andThen r').Stops x P calls limit start := by
  intro p s hs hp hc hl
  refine hP.andThen (h hs hp hc hl) fun q t hd => ?_
  obtain ⟨hg, hq⟩ := hf hd
  exact h' (hnext hs hd) ((hq q rfl).2 hp) (hg.calls.trans hc) (hg.callLimit.trans hl)

theorem Framed.le (hf : r.Framed x) ⦃p : Nat⦄ ⦃s : State⦄ ⦃q : Nat⦄ ⦃t : State⦄ (hs : start ≤ p)
    (hd : r p s = .done (.matched q) t) : start ≤ q := Nat.le_trans hs ((hf hd).2 q rfl).1

theorem Stops.orElse (hP : Outcome.Lenient P) (h : r.Stops x P calls limit start) (hf : r.Framed x)
    (h' : r'.Stops x P calls limit start) : (r.orElse r').Stops x P calls limit start := by
  intro p s hs hp hc hl
  refine hP.orElse (h hs hp hc hl) fun q t hd => ?_
  obtain ⟨hg, -⟩ := hf hd
  exact h' hs hp (hg.calls.trans hc) (hg.callLimit.trans hl)

theorem Stops.optional (hP : Outcome.Lenient P) (h : r.Stops x P calls limit start) :
    r.optional.Stops x P calls limit start := fun _ _ hs hp hc hl => hP.mapMatch (h hs hp hc hl) _

theorem Stops.attempt (hP : Outcome.Lenient P) (h : r.Stops x P calls limit start) :
    r.attempt.Stops x P calls limit start := fun _ _ hs hp hc hl => hP.mapMatch (hP.leave (h hs hp hc hl) _) _

theorem Stops.look (hP : Outcome.Lenient P) (h : r.Stops x P calls limit start) (polarity : Polarity) :
    (r.look polarity).Stops x P calls limit start :=
  fun _ s hs hp hc hl => hP.mapMatch (hP.leave (h (s := s.lookInto polarity) hs hp hc hl) _) _

theorem Stops.capture (hP : Outcome.Lenient P) (h : r.Stops x P calls limit start) :
    r.capture.Stops x P calls limit start := fun _ _ hs hp hc hl => hP.andThen (h hs hp hc hl) fun _ _ _ => hP _ _

theorem Stops.inRule (hP : Outcome.Lenient P) (h : r.Stops x P calls limit start) (name : Octets) :
    (r.inRule name).Stops x P calls limit start := by
  intro p s hs hp hc hl
  have ho := State.openRule_eq (s.ruleFrame name p) s
  refine hP.leave (h hs hp ?_ ?_) _
  · rw [ho, ← hc]
  · rw [ho, ← hl]

theorem Stops.inAtomicity (hP : Outcome.Lenient P) (h : r.Stops x P calls limit start) (mode : Atomicity) :
    (r.inAtomicity mode).Stops x P calls limit start :=
  fun _ s hs hp hc hl => hP.leave (h (s := s.setAtomicity mode) hs hp hc hl) _

theorem Stops.inGaps (hP : Outcome.Lenient P) (h : r.Stops x P calls limit start) :
    r.inGaps.Stops x P calls limit start := by
  intro p s hs hp hc hl
  rw [Recogniser.inGaps]
  split
  · exact hP _ s
  · exact h hs hp hc hl

/-- A loop never runs out of steps, for every round but the last takes an octet. -/
theorem Stops.loop (hP : Outcome.Lenient P) (h : r.Stops x P calls limit start) (hf : r.Framed x) {n : Nat}
    (room : Option Nat) {p : Nat} {s : State} (hs : start ≤ p) (hp : p ≤ x.size) (hc : s.calls = calls)
    (hl : s.callLimit = limit) (hn : x.size + 1 - p ≤ n) : P (r.loop n room p s) := by
  induction n generalizing room p s with
  | zero => omega
  | succ n ih =>
      rw [Recogniser.loop]
      split
      · exact hP _ s
      · have hr := h hs hp hc hl
        rcases hd : r p s with ⟨q | q, t⟩ | ⟨e, t⟩ | _
        · obtain ⟨hg, hq⟩ := hf hd
          dsimp only
          split
          · exact hP _ t
          · exact ih _ (hf.le hs hd) ((hq q rfl).2 hp) (hg.calls.trans hc) (hg.callLimit.trans hl) (by omega)
        · exact hP _ t
        · rwa [hd] at hr
        · rwa [hd] at hr

theorem Stops.subjectLoop (hP : Outcome.Lenient P) (h : r.Stops x P calls limit start) (hf : r.Framed x)
    (room : Option Nat) : (x.loop room r).Stops x P calls limit start :=
  fun _ _ hs hp hc hl => h.loop hP hf room hs hp hc hl (Nat.le_refl _)

theorem stops_recallTop (hP : Outcome.Lenient P) (b : Builtin) (hempty : ∀ s, P (.raised (.emptyStack b.name) s))
    (f : State → State) : Recogniser.Stops x P calls limit start (b.recallTop x f) := by
  intro p s _ _ _ _
  rw [Builtin.recallTop]
  split
  · exact hempty s
  · split
    · exact hP _ _
    · exact hP _ s

theorem tidyOperators_stops (hP : Outcome.Lenient P) (x : Subject) (calls : List Call) (limit start : Nat) :
    TidyOperators x fun a _ => a.Stops x P calls limit start where
  nothing := stops_ofMatcher hP .matched
  noted h := h.noted hP
  andThen ha h h' := h.andThen hP ha ha.le h'
  orElse ha h h' := h.orElse hP ha.framed h'
  optional h := h.optional hP
  attempt _ _ h := h.attempt hP
  look polarity _ _ h := h.look hP polarity
  capture h := h.capture hP
  loop room ha h := h.subjectLoop hP ha room

/-- Between two calls nothing but an empty stack and an undefined rule stops a run short. -/
theorem congruence_stops (hP : Outcome.Lenient P) (hempty : ∀ name s, P (.raised (.emptyStack name) s))
    (hundefined : ∀ name s, P (.raised (.undefinedRule name) s)) (x : Subject) (calls : List Call)
    (limit start : Nat) : TidyCongruence x fun a _ => a.Stops x P calls limit start :=
  { tidyOperators_stops hP x calls limit start with
    ofMatcher := stops_ofMatcher hP
    undefinedRule := fun name _ s _ _ _ _ => hundefined name s
    inGaps := fun h => h.inGaps hP
    inRule := fun name h => h.inRule hP name
    inAtomicity := fun mode h => h.inAtomicity hP mode
    peek := stops_recallTop hP .peek (hempty _) id
    pop := stops_recallTop hP .pop (hempty _) _ }

end Recogniser

/-- A call stops short at the call limit, or as what it calls does with one more call active. -/
theorem Outcome.Lenient.call {P : Outcome State → Prop} (hP : Lenient P) {x : Subject} {r : Recogniser} {p : Nat}
    {s : State} {name : Octets} (hp : p ≤ x.size) (hlimit : s.AtCallLimit → P (.raised .callDepth s))
    (h : ¬s.AtCallLimit → r.Stops x P (⟨name, p⟩ :: s.calls) s.callLimit p) : P ((r.inCall name).noted p s) := by
  refine hP.leave ?_ _
  rw [Recogniser.inCall]
  by_cases hl : s.AtCallLimit
  · rw [if_pos hl]
    exact hlimit hl
  · rw [if_neg hl]
    exact hP.leave (h hl (s := s.enterCall ⟨name, p⟩) (Nat.le_refl p) hp rfl rfl) _

/-- Calls need one level more than the call limit leaves, for the call that breaks the limit is not
followed. -/
theorem Grammar.caller_ne_exhausted (g : Grammar) (x : Subject) {depth p : Nat} (name : Octets) {s : State}
    (hp : p ≤ x.size) (hlimit : s.callLimit ≠ 0) (hcalls : s.calls.length ≤ s.callLimit)
    (hdepth : s.callLimit < s.calls.length + depth) : g.caller x depth name p s ≠ .exhausted := by
  have hP : Outcome.Lenient (· ≠ .exhausted) := fun _ _ => nofun
  induction depth generalizing name p s with
  | zero => omega
  | succ depth ih =>
      refine hP.call hp (fun _ => nofun) fun hl => ?_
      have hfree : s.calls.length < s.callLimit := Nat.lt_of_not_le fun h => hl ⟨hlimit, h⟩
      have hc := Recogniser.congruence_stops hP (fun _ _ => nofun) (fun _ _ => nofun) x
        (⟨name, p⟩ :: s.calls) s.callLimit p
      have hdeeper : ∀ callee, (g.caller x depth callee).Stops x (· ≠ .exhausted) (⟨name, p⟩ :: s.calls)
          s.callLimit p := by
        intro callee q t _ hq hcs hls
        have hlen : t.calls.length = s.calls.length + 1 := congrArg List.length hcs
        exact ih callee hq (hls ▸ hlimit) (by omega) (by omega)
      exact hc.resolve (k := depth) hdeeper name

/-- What a run comes to for whoever asked for it. -/
def Outcome.verdict? (x : Subject) (tabs : TabStops) : Outcome State → Option (Except RunError Verdict)
  | .done (.matched _) s => some (.ok (.accepted s.tokens))
  | .done (.failed _) s => some (.ok (.refused (s.failure x tabs)))
  | .raised e _ => some (.error e)
  | .exhausted => none

theorem Outcome.verdict?_eq_error {x : Subject} {tabs : TabStops} {o : Outcome State} {e : RunError} :
    o.verdict? x tabs = some (.error e) ↔ ∃ s, o = .raised e s := by
  rcases o with ⟨q | q, s⟩ | ⟨e', s⟩ | _ <;> simp [verdict?]

theorem Outcome.verdict?_eq_none {x : Subject} {tabs : TabStops} {o : Outcome State} :
    o.verdict? x tabs = none ↔ o = .exhausted := by
  rcases o with ⟨q | q, s⟩ | ⟨e, s⟩ | _ <;> simp only [verdict?, reduceCtorEq]

namespace Parser

variable (p : Parser) (n : Nat) (start text : Octets)

theorem parse?_eq_verdict? :
    p.parse? n start text = (p.run n start (Subject.ofOctets text)).verdict? (Subject.ofOctets text) p.tabs := by
  unfold parse?
  dsimp only
  rcases p.run n start (Subject.ofOctets text) with ⟨q | q, s⟩ | ⟨e, s⟩ | _ <;> rfl

/-- With a call limit every parse comes to an end: it accepts the text, refuses it or raises an error,
whatever the grammar. -/
theorem parse?_terminates (hl : p.callLimit ≠ 0) :
    ∃ v, (∀ n, p.parse? n start text = some v) ∧ p.parse start text = v := by
  have hd : ∀ n, p.depth n = p.callLimit + 1 := fun n => if_neg hl
  have hp : ∀ n, p.parse? n start text = p.parse? 0 start text := by
    intro n
    rw [parse?_eq_verdict?, parse?_eq_verdict?, run, run, hd, hd]
  have hr : p.run 0 start (Subject.ofOctets text) ≠ .exhausted := by
    rw [run, hd]
    exact p.grammar.caller_ne_exhausted _ start (Nat.zero_le _) hl (Nat.zero_le _) (by simp)
  cases hv : p.parse? 0 start text with
  | none =>
      rw [parse?_eq_verdict?, Outcome.verdict?_eq_none] at hv
      exact absurd hv hr
  | some v =>
      refine ⟨v, fun n => (hp n).trans hv, ?_⟩
      rw [parse, hp, hv, Option.getD_some]

/-- A rule that begins with itself, behind parts that match nothing. -/
theorem parse?_terminates_leftRecursion :
    let g : Grammar := ⟨[.written "whitespace" .silent (.optional (.written " ")),
      .written "r" .normal (.choice (.seq (.zeroOrMore (.optional (.written "a"))) (.seq (.rule "r") (.written "b")))
        (.written "a"))], by decide, by decide, by decide⟩
    let p : Parser := { grammar := g, callLimit := 5 }
    p.callLimit ≠ 0 ∧
      ∃ v, (∀ n, p.parse? n (ascii "r") (ascii "a b") = some v) ∧ p.parse (ascii "r") (ascii "a b") = v :=
  ⟨by decide, parse?_terminates _ _ _ (by decide)⟩

end Parser

end Peg
