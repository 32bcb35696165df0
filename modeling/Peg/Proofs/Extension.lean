import Mathlib.Data.List.Nodup
import Mathlib.Data.List.Perm.Subperm
import Mathlib.Logic.Relation
import Peg.Grammar.Written
import Peg.Proofs.CallLimit
import Peg.Proofs.Rulewise
import Peg.Proofs.TwoRuns

namespace Peg

/-- The other rules of the larger grammar are additions to which no body of the smaller one refers. -/
structure Grammar.Extends (g' g : Grammar) : Prop where
  rules_subset : g.rules ⊆ g'.rules
  closed : ∀ r ∈ g.rules, ∀ r' ∈ g'.rules, Expr.ref r'.name ∈ r.body.leaves → r' ∈ g.rules

/-- The body of the rule refers to the name. -/
def Grammar.Refers (g : Grammar) (rule name : Octets) : Prop :=
  ∃ r ∈ g.rules, r.name = rule ∧ Expr.ref name ∈ r.body.leaves

/-- No reference after reference leads from the name to a non-atomic rule. -/
def Grammar.Confines (g : Grammar) (name : Octets) : Prop :=
  ∀ r ∈ g.rules, Relation.ReflTransGen g.Refers name r.name → r.kind ≠ .nonAtomic

/-- Names to which no rule among them adds another one hold all rules that are reached. -/
theorem Grammar.mem_of_reached {g : Grammar} {start : Octets} {names : List Octets} (hstart : start ∈ names)
    (hclosed : ∀ r ∈ g.rules, r.name ∈ names → ∀ r' ∈ g.rules, Expr.ref r'.name ∈ r.body.leaves → r'.name ∈ names)
    {r : Rule} (hr : r ∈ g.rules) (hreach : Relation.ReflTransGen g.Refers start r.name) : r.name ∈ names := by
  generalize hname : r.name = name at hreach
  induction hreach generalizing r with
  | refl => exact hstart
  | tail _ hrefers ih =>
      obtain ⟨s, hs, hsname, hleaf⟩ := hrefers
      rw [← hname] at hleaf ⊢
      exact hclosed s hs (hsname ▸ ih hs hsname) r hr hleaf

/-- It is enough to list the rules that are reached. -/
theorem Grammar.Confines.of_closed {g : Grammar} {start : Octets} (names : List Octets) (hstart : start ∈ names)
    (hclosed : ∀ r ∈ g.rules, r.name ∈ names → r.kind ≠ .nonAtomic ∧
      ∀ r' ∈ g.rules, Expr.ref r'.name ∈ r.body.leaves → r'.name ∈ names) : g.Confines start := fun r hr hreach =>
  (hclosed r hr (mem_of_reached hstart (fun r hr hn => (hclosed r hr hn).2) hr hreach)).1

/-- The runs are in the same state, and no separators stand where they are. -/
def State.Confined (s t : State) : Prop := s = t ∧ s.atomicity ≠ .nonAtomic

theorem State.lockstep_confined : Lockstep Confined where
  items h := congrArg (fun s => s.captures.items) h.1
  atCallLimit h := by rw [h.1]
  note m h := ⟨congrArg (note m) h.1, by cases m <;> exact h.2⟩
  enterCall c h := ⟨congrArg (enterCall c) h.1, h.2⟩
  leaveCall h := ⟨congrArg leaveCall h.1, h.2⟩
  lookInto polarity h := ⟨congrArg (lookInto polarity) h.1, h.2⟩
  push span h := ⟨congrArg _ h.1, h.2⟩
  pop h := ⟨congrArg _ h.1, h.2⟩
  rejoin h h' := by
    obtain ⟨rfl, hm⟩ := h
    obtain ⟨rfl, -⟩ := h'
    exact ⟨rfl, hm⟩

namespace Recogniser

variable {a b : Recogniser}

theorem confined_inRule (name : Octets) (h : a.Related State.Confined b) :
    (a.inRule name).Related State.Confined (b.inRule name) := by
  rintro p s _ ⟨rfl, hs⟩
  refine (h p ⟨rfl, ?_⟩).leave ?_
  · rw [State.openRule_eq]
    exact hs
  · rintro m u _ - - ⟨rfl, hu⟩
    refine ⟨rfl, ?_⟩
    rw [State.closeRule_eq]
    exact hu

theorem confined_inAtomicity {mode : Atomicity} (hm : mode ≠ .nonAtomic) (h : a.Related State.Confined b) :
    (a.inAtomicity mode).Related State.Confined (b.inAtomicity mode) := by
  rintro p s _ ⟨rfl, hs⟩
  refine (h p (s := s.setAtomicity mode) ⟨rfl, hm⟩).leave ?_
  rintro m u _ - - ⟨rfl, -⟩
  exact ⟨rfl, hs⟩

/-- The mode makes the runs the same from every state. -/
theorem inAtomicity_eq_of_confined {mode : Atomicity} (hm : mode ≠ .nonAtomic) (h : a.Related State.Confined b) :
    a.inAtomicity mode = b.inAtomicity mode := by
  funext p s
  unfold inAtomicity
  have hr := h p (s := s.setAtomicity mode) ⟨rfl, hm⟩
  generalize a p (s.setAtomicity mode) = o at hr ⊢
  generalize b p (s.setAtomicity mode) = o' at hr ⊢
  cases hr with
  | done m hu => rw [hu.1]
  | raised e hu => rw [hu.1]
  | exhausted => rfl

theorem confined_separators (g g' : Grammar) (x : Subject) (call call' : Caller) :
    (g.separators x call).Related State.Confined (g'.separators x call') := by
  intro p s t hs
  have ht : t.atomicity ≠ .nonAtomic := hs.1 ▸ hs.2
  unfold Grammar.separators
  rw [if_pos hs.2, if_pos ht]
  exact .done _ hs

end Recogniser

theorem Rule.mode_ne_nonAtomic {r : Rule} (hk : r.kind ≠ .nonAtomic) {m : Atomicity} (hm : .mode m ∈ r.scopes) :
    m ≠ .nonAtomic := by
  unfold scopes at hm
  split at hm <;> split at hm <;> simp_all

namespace Grammar.Extends

variable {g g' : Grammar} {start : Octets} {x : Subject} {n : Nat}

theorem find?_eq_some (h : g'.Extends g) {r : Rule} (hr : r ∈ g.rules) : g'.find? r.name = some r :=
  find?_of_mem (h.rules_subset hr)

theorem find?_eq (h : g'.Extends g) {rule name : Octets} (hn : g.Refers rule name) : g'.find? name = g.find? name := by
  cases hf : g.find? name with
  | some r =>
      obtain ⟨hr, rfl⟩ := Grammar.find?_eq_some hf
      exact h.find?_eq_some hr
  | none =>
      cases hf' : g'.find? name with
      | none => rfl
      | some r' =>
          -- An addition is not referred to, so this rule is one of the smaller grammar.
          obtain ⟨hr', rfl⟩ := Grammar.find?_eq_some hf'
          obtain ⟨r, hr, -, hleaf⟩ := hn
          have hm := find?_of_mem (h.closed r hr r' hr' hleaf)
          rw [hf] at hm
          cases hm

/-- A body is the same for both grammars where no separators stand, if what it refers to is. -/
theorem confined_body {r : Rule} (hr : r ∈ g.rules) (hcall : ∀ name, g.Refers r.name name →
      (g.caller x n name).Related State.Confined (g'.caller x n name)) :
    (r.body.run g x (g.caller x n)).Related State.Confined (r.body.run g' x (g'.caller x n)) := by
  apply State.lockstep_confined.expr (g.tidy_caller x n) (g'.tidy_caller x n) (Recogniser.confined_separators g g' x _ _)
  intro name hleaf
  exact hcall name ⟨r, hr, rfl, hleaf⟩

/-- By induction on the depth, where each callee is one reference further from the start. -/
theorem confined_caller (h : g'.Extends g) (hc : g.Confines start) (n : Nat) {rule name : Octets}
    (hreach : Relation.ReflTransGen g.Refers start rule) (hn : g.Refers rule name) :
    (g.caller x n name).Related State.Confined (g'.caller x n name) := by
  have hS := State.lockstep_confined
  induction n generalizing rule name with
  | zero => exact fun _ _ _ _ => .exhausted
  | succ n ih =>
      refine hS.noted (hS.inCall name ?_)
      unfold Grammar.resolve
      rw [h.find?_eq hn]
      split
      · exact hS.builtin Recogniser.confined_inRule x _
      · split
        next r hf =>
          obtain ⟨hr, rfl⟩ := Grammar.find?_eq_some hf
          have hreach' := hreach.tail hn
          have hk := hc r hr hreach'
          rw [r.run_eq_foldr, r.run_eq_foldr]
          exact RuleScope.foldr_around (fun name _ _ => Recogniser.confined_inRule name)
            (fun _ hm _ _ => Recogniser.confined_inAtomicity (Rule.mode_ne_nonAtomic hk hm))
            (confined_body hr fun _ => ih hreach')
        next => exact fun _ _ _ hs => .raised _ hs

/-- An atomic rule sets the mode itself, so nothing depends on where it is called. -/
theorem rule_run_eq (h : g'.Extends g) {r : Rule} (hr : r ∈ g.rules) (hc : g.Confines r.name)
    (hk : r.kind = .atomic ∨ r.kind = .compoundAtomic) (n : Nat) :
    r.run g x (g.caller x n) = r.run g' x (g'.caller x n) := by
  have hb := confined_body (x := x) (n := n) hr fun _ => h.confined_caller hc n .refl
  have ha : (r.body.run g x (g.caller x n)).inAtomicity .atomic = (r.body.run g' x (g'.caller x n)).inAtomicity .atomic :=
    Recogniser.inAtomicity_eq_of_confined nofun hb
  have hca : ((r.body.run g x (g.caller x n)).inRule r.name).inAtomicity .compoundAtomic =
      ((r.body.run g' x (g'.caller x n)).inRule r.name).inAtomicity .compoundAtomic :=
    Recogniser.inAtomicity_eq_of_confined nofun (Recogniser.confined_inRule r.name hb)
  unfold Rule.run
  rcases hk with hk | hk
  · rw [hk]
    simp only [ha]
  · rw [hk]
    simp only [ha, hca]

theorem caller_eq (h : g'.Extends g) {r : Rule} (hr : r ∈ g.rules) (hc : g.Confines r.name)
    (hk : r.kind = .atomic ∨ r.kind = .compoundAtomic) (x : Subject) (n : Nat) :
    g.caller x n r.name = g'.caller x n r.name := by
  cases n with
  | zero => rfl
  | succ n =>
      unfold Grammar.caller Grammar.resolve
      rw [find?_of_mem hr, h.find?_eq_some hr]
      dsimp only
      rw [h.rule_run_eq hr hc hk]

theorem length_rules_le (h : g'.Extends g) : g.rules.length ≤ g'.rules.length :=
  (List.subperm_of_subset (List.Nodup.of_map _ g.names_nodup) h.rules_subset).length_le

end Grammar.Extends

namespace Parser

/-- Separators and other rules that are added to a grammar are nothing to an atomic rule of it. The verdict is the
same, with its tokens, its failure or its error, and so is the whole state of the run. -/
theorem parse_extended {p : Parser} {g : Grammar} (h : g.Extends p.grammar) {r : Rule} (hr : r ∈ p.grammar.rules)
    (hk : r.kind = .atomic ∨ r.kind = .compoundAtomic) (hc : p.grammar.Confines r.name) (text : Octets) :
    (∀ n, (p.withGrammar g).parse? n r.name text = p.parse? n r.name text ∧
      (p.withGrammar g).run n r.name (Subject.ofOctets text) = p.run n r.name (Subject.ofOctets text)) ∧
      (p.callLimit ≠ 0 ∨ p.parse r.name text ≠ .error .callDepth →
        (p.withGrammar g).parse r.name text = p.parse r.name text) := by
  have hrun : ∀ n, (p.withGrammar g).run n r.name (Subject.ofOctets text) = p.run n r.name (Subject.ofOctets text) := by
    intro n
    rw [run, run, withGrammar, h.caller_eq hr hc hk]
    rfl
  have hparse : ∀ n, (p.withGrammar g).parse? n r.name text = p.parse? n r.name text := by
    intro n
    rw [parse?_eq_verdict?, parse?_eq_verdict?, hrun]
    rfl
  refine ⟨fun n => ⟨hparse n, hrun n⟩, fun hd => ?_⟩
  -- The larger grammar only lets calls nest deeper.
  have hdepth : p.grammar.ampleDepth text ≤ g.ampleDepth text :=
    Nat.succ_le_succ (Nat.mul_le_mul_right _ h.length_rules_le)
  have hq : (p.withGrammar g).parse? (g.ampleDepth text) r.name text = some (p.parse r.name text) := by
    rw [hparse]
    exact p.parse?_eq_parse r.name text hd hdepth
  exact congrArg (fun v => v.getD (.error .callDepth)) hq

/-- White space and comments are added, and a non-atomic rule that the atomic one does not reach uses them. -/
theorem parse_extended_separators :
    let word : Rule := .written "word" .atomic (.oneOrMore (.rule "letter"))
    let old : List Rule := [word, .written "letter" .normal (.writtenRange "a" "z"),
      .written "line" .nonAtomic (.oneOrMore (.rule "word"))]
    let p : Parser := { grammar := ⟨old, by decide, by decide, by decide⟩, callLimit := 4 }
    let g : Grammar := ⟨.written "whitespace" .normal (.written " ") :: .written "comment" .nonAtomic (.written "#") :: old,
      by decide, by decide, by decide⟩
    g.Extends p.grammar ∧ word ∈ p.grammar.rules ∧ p.grammar.Confines word.name ∧
      (∀ n, (p.withGrammar g).parse? n word.name (ascii "ab c") = p.parse? n word.name (ascii "ab c")) ∧
      (p.withGrammar g).parse word.name (ascii "ab c") = p.parse word.name (ascii "ab c") := by
  intro word old p g
  have h : g.Extends p.grammar := ⟨by decide, by decide⟩
  have hr : word ∈ p.grammar.rules := .head _
  have hc : p.grammar.Confines word.name := .of_closed [ascii "word", ascii "letter"] (.head _) (by decide)
  obtain ⟨hn, hp⟩ := parse_extended h hr (.inl rfl) hc (ascii "ab c")
  exact ⟨h, hr, hc, fun n => (hn n).1, hp (.inl (by decide))⟩

end Parser

end Peg
