import Peg.Proofs.Extension
import Peg.Proofs.LeftRecursion

namespace Peg

namespace Grammar

variable {g : Grammar} {start name rule : Octets}

/-- Reference after reference leads to the name, from the start or from a separator. -/
def Reaches (g : Grammar) (start name : Octets) : Prop :=
  ∃ root ∈ start :: g.gapNames, Relation.ReflTransGen g.Refers root name

/-- The name is the start, or a body that is reached refers to it. -/
def Mentions (g : Grammar) (start name : Octets) : Prop :=
  name = start ∨ ∃ rule, g.Reaches start rule ∧ g.Refers rule name

theorem reaches_start (g : Grammar) (start : Octets) : g.Reaches start start := ⟨start, .head _, .refl⟩

theorem reaches_of_mem_gapNames (start : Octets) (h : name ∈ g.gapNames) : g.Reaches start name :=
  ⟨name, .tail _ h, .refl⟩

theorem Reaches.tail (h : g.Reaches start rule) (hn : g.Refers rule name) : g.Reaches start name := by
  obtain ⟨root, hroot, hpath⟩ := h
  exact ⟨root, hroot, hpath.tail hn⟩

theorem exists_of_mem_gapNames (h : name ∈ g.gapNames) : ∃ r ∈ g.rules, r.name = name := by
  obtain ⟨r, hr⟩ : ∃ r, g.find? name = some r := by
    rcases List.mem_append.mp h with hw | hc
    · split at hw
      next hsome =>
        cases List.mem_singleton.mp hw
        exact Option.isSome_iff_exists.mp hsome
      next => cases hw
    · split at hc
      next hsome =>
        cases List.mem_singleton.mp hc
        exact Option.isSome_iff_exists.mp hsome
      next => cases hc
  exact ⟨r, Grammar.find?_eq_some hr⟩

/-- Only rules are reached without being mentioned, for separators are rules. -/
theorem Reaches.mentions (h : g.Reaches start name) (hn : ∀ r ∈ g.rules, r.name ≠ name) : g.Mentions start name := by
  obtain ⟨root, hroot, hpath⟩ := h
  rcases hpath.cases_tail with rfl | ⟨rule, hbefore, hrefers⟩
  · rcases List.mem_cons.mp hroot with rfl | hgap
    · exact .inl rfl
    · obtain ⟨r, hr, hname⟩ := exists_of_mem_gapNames hgap
      exact absurd hname (hn r hr)
  · exact .inr ⟨rule, ⟨root, hroot, hbefore⟩, hrefers⟩

end Grammar

/-- What an error gives away about the grammar, the call limit and the name that the run began with. -/
def RunError.Justified (g : Grammar) (limit : Nat) (start : Octets) : RunError → Prop
  | .callDepth => limit ≠ 0
  | .undefinedRule name =>
      Builtin.ofName? name = none ∧ (∀ r ∈ g.rules, r.name ≠ name) ∧ g.Mentions start name
  | .emptyStack name => (name = Builtin.peek.name ∨ name = Builtin.pop.name) ∧ g.Mentions start name

/-- If the run raises an error at all, it is a justified one. -/
def Outcome.Justified (g : Grammar) (limit : Nat) (start : Octets) (o : Outcome State) : Prop :=
  ∀ e s, o = .raised e s → e.Justified g limit start

theorem Outcome.lenient_justified (g : Grammar) (limit : Nat) (start : Octets) :
    Outcome.Lenient (Outcome.Justified g limit start) := fun _ _ _ _ => nofun

namespace Recogniser

variable {g : Grammar} {x : Subject} {calls : List Call} {limit offset : Nat} {start : Octets}

theorem justified_recallTop {b : Builtin} (hb : b.name = Builtin.peek.name ∨ b.name = Builtin.pop.name)
    (h : g.Mentions start b.name) (f : State → State) :
    Stops x (Outcome.Justified g limit start) calls limit offset (b.recallTop x f) := by
  refine stops_recallTop (Outcome.lenient_justified g limit start) b (fun s e t he => ?_) f
  cases he
  exact ⟨hb, h⟩

theorem justified_builtin {b : Builtin} (h : g.Reaches start b.name) :
    (b.run x).Stops x (Outcome.Justified g limit start) calls limit offset := by
  have hP := Outcome.lenient_justified g limit start
  have hm : g.Mentions start b.name := by
    refine h.mentions fun r hr hname => ?_
    have hfree := g.names_free r hr
    rw [hname] at hfree
    cases b <;> cases hfree
  cases b with
  | any | startOfInput => exact stops_ofMatcher hP _
  | endOfInput => exact (stops_ofMatcher hP _).inRule hP _
  | peek => exact justified_recallTop (.inl rfl) hm _
  | pop => exact justified_recallTop (.inr rfl) hm _

theorem justified_rule {call : Caller} (ht : ∀ name, (call name).Tidy x)
    (hcall : ∀ name, g.Reaches start name → (call name).Stops x (Outcome.Justified g limit start) calls limit offset)
    {r : Rule} (hr : r ∈ g.rules) (h : g.Reaches start r.name) :
    (r.run g x call).Stops x (Outcome.Justified g limit start) calls limit offset := by
  have hP := Outcome.lenient_justified g limit start
  have hs := Grammar.stops_separators hP ht fun name hname => hcall name (Grammar.reaches_of_mem_gapNames start hname)
  have hbody : (r.body.run g x call).Stops x (Outcome.Justified g limit start) calls limit offset := by
    refine @TidyOperators.expr x _ (tidyOperators_stops hP x calls limit offset) g g call call ht ht hs _
      fun d hd hl => ?_
    cases d with
    | literal | folded | range | scan => exact (stops_ofMatcher hP _).noted hP
    | ref name => exact (hcall name (h.tail ⟨r, hr, rfl, hd⟩)).noted hP
    | look | seq | choice | optional | repeated | capture => exact hl.elim
  rw [r.run_eq_foldr]
  exact RuleScope.foldr_around (R := fun a _ => a.Stops x (Outcome.Justified g limit start) calls limit offset)
    (fun rule _ _ ha => ha.inRule hP rule) (fun mode _ _ _ ha => ha.inAtomicity hP mode) (b := .nothing) hbody

end Recogniser

/-- By induction on the depth, for what a reached rule calls is reached. -/
theorem Grammar.justified_caller (g : Grammar) (x : Subject) {start : Octets} {depth p : Nat} {name : Octets}
    {s : State} (hp : p ≤ x.size) (h : g.Reaches start name) :
    (g.caller x depth name p s).Justified g s.callLimit start := by
  induction depth generalizing name p s with
  | zero => exact fun _ _ => nofun
  | succ depth ih =>
      refine (Outcome.lenient_justified g s.callLimit start).call hp ?_ fun _ => ?_
      · rintro hl e t he
        cases he
        exact hl.1
      · unfold Grammar.resolve
        split
        next b hb =>
          cases Builtin.name_of_ofName? hb
          exact Recogniser.justified_builtin h
        next hb =>
          split
          next r hf =>
            obtain ⟨hr, rfl⟩ := Grammar.find?_eq_some hf
            refine Recogniser.justified_rule (g.tidy_caller x depth) (fun callee hcallee => ?_) hr h
            intro q t _ hq _ hl
            rw [← hl]
            exact ih hq hcallee
          next hf =>
            intro q t _ _ _ _ e u he
            cases he
            have hn : ∀ r ∈ g.rules, r.name ≠ name := fun r hr hname => by
              rw [← hname, Grammar.find?_of_mem hr] at hf
              cases hf
            exact ⟨hb, hn, h.mentions hn⟩

/-- A name that can be called whatever has been captured. -/
def Grammar.Offers (g : Grammar) (name : Octets) : Prop :=
  (∃ r ∈ g.rules, r.name = name) ∨ ∃ b ∈ [Builtin.any, .endOfInput, .startOfInput], b.name = name

instance (g : Grammar) (name : Octets) : Decidable (g.Offers name) := inferInstanceAs (Decidable (_ ∨ _))

theorem Grammar.Offers.ne_recall {g : Grammar} {name : Octets} (h : g.Offers name) :
    ¬(name = Builtin.peek.name ∨ name = Builtin.pop.name) := by
  rintro hname
  obtain ⟨r, hr, rfl⟩ | ⟨b, hb, rfl⟩ := h
  · have hfree := g.names_free r hr
    rcases hname with hname | hname <;> (rw [hname, Builtin.ofName?_name] at hfree; cases hfree)
  · revert b
    decide

/-- All errors are justified. In particular there are none without a call limit, if what the start and the bodies
refer to is on offer. -/
theorem Parser.errors_justified (p : Parser) (n : Nat) (start text : Octets) :
    (∀ e, p.parse? n start text = some (.error e) → e.Justified p.grammar p.callLimit start) ∧
      (p.callLimit = 0 → (∃ r ∈ p.grammar.rules, r.name = start) →
        (∀ r ∈ p.grammar.rules, ∀ name, Expr.ref name ∈ r.body.leaves → p.grammar.Offers name) →
        ∀ v, p.parse? n start text = some v → ∃ w, v = .ok w) := by
  have herrors : ∀ e, p.parse? n start text = some (.error e) → e.Justified p.grammar p.callLimit start := by
    intro e he
    rw [parse?_eq_verdict?, Outcome.verdict?_eq_error] at he
    obtain ⟨s, hs⟩ := he
    exact p.grammar.justified_caller (Subject.ofOctets text) (Nat.zero_le _) (p.grammar.reaches_start start) e s hs
  refine ⟨herrors, fun hlimit hstart hclosed v hv => ?_⟩
  have hoffers : ∀ name, p.grammar.Mentions start name → p.grammar.Offers name := by
    rintro name (rfl | ⟨rule, -, r, hr, -, hleaf⟩)
    · exact .inl hstart
    · exact hclosed r hr name hleaf
  cases v with
  | ok w => exact ⟨w, rfl⟩
  | error e =>
      have he := herrors e hv
      cases e with
      | callDepth => exact absurd hlimit he
      | undefinedRule name =>
          obtain ⟨hfree, hnone, hm⟩ := he
          rcases hoffers name hm with ⟨r, hr, hname⟩ | ⟨b, -, rfl⟩
          · exact absurd hname (hnone r hr)
          · rw [b.ofName?_name] at hfree
            cases hfree
      | emptyStack name =>
          obtain ⟨hname, hm⟩ := he
          exact absurd hname (hoffers name hm).ne_recall

/-- Two rules that share a separator. One separator calls a rule that is missing, the other one calls a builtin. -/
theorem Parser.errors_justified_separators :
    let pair : Rule := .written "r" .normal (.seq (.written "a") (.written "b"))
    let missing : Grammar := ⟨[.written "whitespace" .silent (.rule "blank"), pair], by decide, by decide, by decide⟩
    let closed : Grammar := ⟨[.written "whitespace" .silent (.ref Builtin.any.name), pair], by decide, by decide,
      by decide⟩
    let e : RunError := .undefinedRule (ascii "blank")
    (({ grammar := missing } : Parser).parse? 3 (ascii "r") (ascii "ab") = some (.error e) ∧
        e.Justified missing 0 (ascii "r")) ∧
      ∃ v, ({ grammar := closed } : Parser).parse? 3 (ascii "r") (ascii "a b") = some v ∧ ∃ w, v = .ok w := by
  intro pair missing closed e
  have hmissing : ({ grammar := missing } : Parser).parse? 3 (ascii "r") (ascii "ab") = some (.error e) := rfl
  have hclosed : ∀ r ∈ closed.rules, ∀ name, Expr.ref name ∈ r.body.leaves → closed.Offers name := by
    intro r hr name hname
    rcases List.mem_cons.mp hr with rfl | hr
    · cases List.mem_singleton.mp hname
      decide
    · cases List.mem_singleton.mp hr
      rcases List.mem_cons.mp hname with hname | hname
      · cases hname
      · cases List.mem_singleton.mp hname
  exact ⟨⟨hmissing, (errors_justified _ 3 _ _).1 e hmissing⟩, _, rfl,
    (errors_justified { grammar := closed } 3 (ascii "r") (ascii "a b")).2 rfl ⟨pair, .tail _ (.head _), rfl⟩
      hclosed _ rfl⟩

end Peg
