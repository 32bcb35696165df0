import Mathlib.Data.Finset.Insert
import Peg.Grammar.Written
import Peg.Proofs.RuleKinds
import Peg.Proofs.TokenQueue

namespace Peg

/-- The rule becomes silent if its name is among some names. -/
def Rule.silence (names : Finset Octets) (r : Rule) : Rule :=
  if r.name ∈ names then { r with kind := .silent } else r

theorem Rule.name_silence (names : Finset Octets) (r : Rule) : (r.silence names).name = r.name := by
  unfold silence
  split <;> rfl

theorem Rule.body_silence (names : Finset Octets) (r : Rule) : (r.silence names).body = r.body := by
  unfold silence
  split <;> rfl

namespace Grammar

variable {g : Grammar} {names : Finset Octets}

/-- The names are those of normal rules that are not separators. -/
def CanSilence (g : Grammar) (names : Finset Octets) : Prop :=
  ∀ name ∈ names, ∃ r ∈ g.rules, r.name = name ∧ r.kind = .normal ∧ ¬r.IsSeparator

instance (g : Grammar) (names : Finset Octets) : Decidable (g.CanSilence names) :=
  inferInstanceAs (Decidable (∀ name ∈ names, ∃ r ∈ g.rules, r.name = name ∧ r.kind = .normal ∧ ¬r.IsSeparator))

def silence (g : Grammar) (names : Finset Octets) : Grammar where
  rules := g.rules.map (Rule.silence names)
  names_ne_nil := by
    rw [List.forall_mem_map]
    intro r hr
    rw [r.name_silence]
    exact g.names_ne_nil r hr
  names_free := by
    rw [List.forall_mem_map]
    intro r hr
    rw [r.name_silence]
    exact g.names_free r hr
  names_nodup := by
    have hn : (g.rules.map (Rule.silence names)).map Rule.name = g.rules.map Rule.name := by
      rw [List.map_map]
      exact List.map_congr_left fun r _ => r.name_silence names
    rw [hn]
    exact g.names_nodup

theorem CanSilence.rule (h : g.CanSilence names) {r : Rule} (hr : r ∈ g.rules) (hn : r.name ∈ names) :
    r.kind = .normal ∧ ¬r.IsSeparator := by
  obtain ⟨r', hr', hname, hk⟩ := h r.name hn
  obtain rfl : r' = r := eq_of_name_eq hr' hr hname
  exact hk

theorem CanSilence.endOfInput_notMem (h : g.CanSilence names) : Builtin.endOfInput.name ∉ names := by
  intro hm
  obtain ⟨r, hr, hname, -⟩ := h _ hm
  have hfree := g.names_free r hr
  rw [hname] at hfree
  cases hfree

/-- Rule by rule the grammars differ in the kinds of normal rules only. -/
theorem CanSilence.rulewise (h : g.CanSilence names) : g.Rulewise
    (fun r r' => r' = r.silence names ∧ (r.name ∈ names → r.kind = .normal ∧ ¬r.IsSeparator)) (g.silence names) := by
  rw [Rulewise, silence, List.forall₂_map_right_iff, List.forall₂_same]
  intro r hr
  exact ⟨(r.name_silence names).symm, rfl, h.rule hr⟩

end Grammar

namespace Forest

/-- In place of each tree of a rule with such a name stands what is inside it. -/
def splice (names : Finset Octets) : Forest → Forest
  | nil => nil
  | cons rule span inner next =>
      if rule ∈ names then inner.splice names ++ next.splice names
      else cons rule span (inner.splice names) (next.splice names)

theorem splice_append (names : Finset Octets) (f g : Forest) :
    (f ++ g).splice names = f.splice names ++ g.splice names := by
  induction f with
  | nil => rfl
  | cons rule span inner next _ ih =>
      rw [cons_append, splice, splice, ih]
      split
      · rw [append_assoc]
      · rw [cons_append]

theorem splice_node (names : Finset Octets) (rule : Octets) (span : Span) (f : Forest) :
    (node rule span f).splice names =
      if rule ∈ names then f.splice names else node rule span (f.splice names) := by
  rw [node, splice, splice, append_nil]
  rfl

/-- The other rules keep their order and their spans. -/
theorem nodes_splice (names : Finset Octets) (f : Forest) :
    (f.splice names).nodes = f.nodes.filter fun n => n.1 ∉ names := by
  induction f with
  | nil => rfl
  | cons rule span inner next ihi ihn =>
      rw [splice, nodes]
      by_cases hn : rule ∈ names
      · rw [if_pos hn, nodes_append, ihi, ihn, List.filter_cons_of_neg (by simpa using hn), List.filter_append]
      · rw [if_neg hn, nodes, ihi, ihn, List.filter_cons_of_pos (by simpa using hn), List.filter_append]

end Forest

def Answer.splice (names : Finset Octets) : Answer → Answer
  | fail => fail
  | error e => error e
  | ok q c f => ok q c (f.splice names)

namespace Answer

variable (names : Finset Octets)

theorem splice_ofMatch (c : List Span) (w : Match) : (ofMatch c w).splice names = ofMatch c w := by
  cases w <;> rfl

theorem splice_lookedAhead (p : Nat) (c : List Span) (polarity : Polarity) (a : Answer) :
    (a.lookedAhead p c polarity).splice names = (a.splice names).lookedAhead p c polarity := by
  cases polarity <;> cases a <;> rfl

theorem splice_orNothing (p : Nat) (c : List Span) (a : Answer) :
    (a.orNothing p c).splice names = (a.splice names).orNothing p c := by
  cases a <;> rfl

theorem splice_captured (p : Nat) (a : Answer) : (a.captured p).splice names = (a.splice names).captured p := by
  cases a <;> rfl

theorem splice_behind (f : Forest) (a : Answer) :
    (a.behind f).splice names = (a.splice names).behind (f.splice names) := by
  cases a with
  | fail | error => rfl
  | ok q c f' => simp only [behind, splice, Forest.splice_append]

theorem splice_inNode (rule : Octets) (p : Nat) (visible : Bool) (a : Answer) :
    (a.inNode rule p visible).splice names = (a.splice names).inNode rule p (visible && rule ∉ names) := by
  cases a with
  | fail | error => rfl
  | ok q c f =>
      cases visible with
      | false => rfl
      | true =>
          have hf := Forest.splice_node names rule ⟨p, q⟩ f
          rw [Bool.true_and]
          by_cases hn : rule ∈ names
          · rw [if_pos hn] at hf
            rw [decide_eq_false (not_not_intro hn)]
            exact congrArg (ok q c) hf
          · rw [if_neg hn] at hf
            rw [decide_eq_true hn]
            exact congrArg (ok q c) hf

end Answer

theorem Rule.modeInside_silence {names : Finset Octets} {r : Rule}
    (h : r.name ∈ names → r.kind = .normal ∧ ¬r.IsSeparator) (m : Atomicity) :
    (r.silence names).modeInside m = r.modeInside m := by
  unfold silence
  split
  next hn =>
    obtain ⟨hk, hs⟩ := h hn
    have hs' : ¬Rule.IsSeparator { r with kind := .silent } := hs
    rw [modeInside, modeInside, if_neg hs, if_neg hs', hk]
  next => rfl

theorem Rule.hasNode_silence (names : Finset Octets) (r : Rule) (m : Atomicity) :
    (r.silence names).hasNode m = (r.hasNode m && r.name ∉ names) := by
  unfold silence
  by_cases hn : r.name ∈ names
  · rw [if_pos hn, decide_eq_false (not_not_intro hn), Bool.and_false]
    rfl
  · rw [if_neg hn, decide_eq_true hn, Bool.and_true]

section

variable {g : Grammar} {names : Finset Octets}

theorem Grammar.find?_silence (g : Grammar) (names : Finset Octets) (name : Octets) :
    (g.silence names).find? name = (g.find? name).map (Rule.silence names) := by
  unfold find? silence
  rw [List.find?_map]
  congr 2
  funext r
  exact congrArg (fun n => decide (n = name)) (r.name_silence names)

theorem Grammar.gapTask_silence (h : g.CanSilence names) : (g.silence names).gapTask = g.gapTask := by
  unfold gapTask
  rw [h.rulewise.hasWhitespace_eq, h.rulewise.hasComment_eq]

/-- What a grammar means, its silenced form means with all nodes of these rules spliced. -/
theorem Eval.silenced (hn : g.CanSilence names) {x : Subject} {m : Atomicity} {t : Task} {p : Nat} {c : List Span}
    {a : Answer} (h : Eval g x m t p c a) : Eval (g.silence names) x m t p c (a.splice names) := by
  induction h with
  | literal => rw [Answer.splice_ofMatch]; exact .literal
  | folded => rw [Answer.splice_ofMatch]; exact .folded
  | range => rw [Answer.splice_ofMatch]; exact .range
  | any => rw [Answer.splice_ofMatch]; exact .any
  | startOfInput => rw [Answer.splice_ofMatch]; exact .startOfInput
  | peek => rw [Answer.splice_ofMatch]; exact .peek
  | pop => rw [Answer.splice_ofMatch]; exact .pop
  | scan_found hk hq hleast => exact .scan_found hk hq hleast
  | scan_missed h => exact .scan_missed h
  | ref _ ih => exact .ref ih
  | look polarity _ ih =>
      rw [Answer.splice_lookedAhead]
      exact .look polarity ih
  | seq _ ih => exact .seq ih
  | @choice_first m d e p c a _ ha ih =>
      refine .choice_first ih ?_
      cases a with
      | fail => exact absurd rfl ha
      | error | ok => exact nofun
  | choice_second _ _ ihd ihe => exact .choice_second ihd ihe
  | optional _ ih =>
      rw [Answer.splice_orNothing]
      exact .optional ih
  | repeated_never hc => exact .repeated_never hc
  | repeated hc _ ih =>
      rw [apply_ite (Answer.splice names), Answer.splice_orNothing]
      exact .repeated hc ih
  | capture _ ih =>
      rw [Answer.splice_captured]
      exact .capture ih
  | endOfInput =>
      rw [Answer.splice_inNode, Answer.splice_ofMatch, decide_eq_true hn.endOfInput_notMem, Bool.and_true]
      exact .endOfInput
  | peek_empty => exact .peek_empty
  | pop_empty => exact .pop_empty
  | undefinedRule hb hf =>
      refine .undefinedRule hb ?_
      rw [g.find?_silence, hf, Option.map_none]
  | @rule m name r p c a hb hf _ ih =>
      have hr := (Grammar.find?_eq_some hf).1
      have hf' : (g.silence names).find? name = some (r.silence names) := by
        rw [g.find?_silence, hf, Option.map_some]
      rw [← Rule.modeInside_silence (hn.rule hr), ← r.body_silence names] at ih
      rw [Answer.splice_inNode, ← r.hasNode_silence, ← r.name_silence names]
      exact .rule hb hf' ih
  | skip_nothing hm => exact .skip_nothing hm
  | skip _ ih =>
      rw [← Grammar.gapTask_silence hn] at ih
      exact .skip ih
  | nothing => exact .nothing
  | @both_first m t u p c a _ ha ih =>
      refine .both_first ih ?_
      cases a with
      | fail | error => trivial
      | ok => exact ha
  | both _ _ iht ihu =>
      rw [Answer.splice_behind]
      exact .both iht ihu
  | many_full => exact .many_full
  | many_failed hr _ ih => exact .many_failed hr ih
  | many_error hr _ ih => exact .many_error hr ih
  | many_last hr _ hq ih => exact .many_last hr ih hq
  | many_more hr _ hq _ ih ihm =>
      rw [Answer.splice_behind]
      exact .many_more hr ih hq ihm

end

/-- The states may differ in the tokens, the look ahead, the names on record and the journal of captures. -/
structure State.Parallel (s t : State) : Prop extends State.Alike s t where
  atomicity : s.atomicity = t.atomicity

theorem State.sameMode_parallel : SameMode Parallel where
  items h := h.items
  atCallLimit h := lockstep_alike.atCallLimit h.toAlike
  note m h := ⟨lockstep_alike.note m h.toAlike, by cases m <;> exact h.atomicity⟩
  enterCall c h := ⟨lockstep_alike.enterCall c h.toAlike, h.atomicity⟩
  leaveCall h := ⟨lockstep_alike.leaveCall h.toAlike, h.atomicity⟩
  lookInto polarity h := ⟨lockstep_alike.lookInto polarity h.toAlike, h.atomicity⟩
  push span h := ⟨lockstep_alike.push span h.toAlike, h.atomicity⟩
  pop h := ⟨lockstep_alike.pop h.toAlike, h.atomicity⟩
  rejoin h h' := ⟨lockstep_alike.rejoin h.toAlike h'.toAlike, h.atomicity⟩
  symm h := ⟨h.toAlike.symm, h.atomicity.symm⟩
  relabel tokens attempts h := ⟨unlabelled_alike.relabel tokens attempts h.toAlike, h.atomicity⟩
  atomicity h := h.atomicity
  setAtomicity mode h := ⟨⟨h.items, h.furthest, h.calls, h.callLimit⟩, rfl⟩

/-- The grammars take the same steps in the same modes, and only the nodes are missing. -/
theorem Grammar.CanSilence.parallel_caller {g : Grammar} {names : Finset Octets} (h : g.CanSilence names) (x : Subject)
    (n : Nat) (name : Octets) :
    (g.caller x n name).Related State.Parallel ((g.silence names).caller x n name) := by
  have hS := State.sameMode_parallel
  refine h.rulewise.caller (fun _ _ _ _ => .exhausted) (hS.builtin hS.inRule x) (fun _ _ _ _ hs => .raised _ hs) ?_
    (fun name _ _ hr => hS.noted (hS.inCall name hr)) n name
  rintro n r _ - ⟨rfl, hnormal⟩ hcall
  have hb : (r.body.run g x (g.caller x n)).Related State.Parallel
      (r.body.run (g.silence names) x ((g.silence names).caller x n)) := by
    rw [← h.rulewise.run_eq]
    exact ((hS.tidyCongruence x).congruence.expr (fun name => ⟨g.tidy_caller x n name,
      (g.silence names).tidy_caller x n name, hcall name⟩) r.body).2.2
  rw [r.run_eq_foldr, (r.silence names).run_eq_foldr, r.body_silence]
  by_cases hn : r.name ∈ names
  · obtain ⟨hk, hs⟩ := hnormal hn
    have hrs : r.scopes = [.node r.name] := by rw [Rule.scopes, if_neg hs, hk]
    have hss : (r.silence names).scopes = [] := by
      rw [Rule.silence, if_pos hn]
      exact if_neg hs
    rw [hrs, hss]
    exact hS.inRule_left r.name hb
  · rw [Rule.silence, if_neg hn]
    exact RuleScope.foldr_around (fun rule _ _ => hS.inRule rule) (fun mode _ _ _ => hS.inAtomicity mode) hb

/-- Both verdicts accept the text, the second one with the nodes of some rules spliced, or both refuse it at the same
place, or both are the same error. -/
inductive Verdict.Splices (names : Finset Octets) : Except RunError Verdict → Except RunError Verdict → Prop
  | accepted {tokens tokens' : Array Token}
      (hforest : (Pairs.ofTokens tokens').forest = (Pairs.ofTokens tokens).forest.splice names)
      (hnodes : (Pairs.ofTokens tokens').flatten.map (fun q => (q.rule, q.span)) =
        ((Pairs.ofTokens tokens).flatten.map fun q => (q.rule, q.span)).filter fun n => n.1 ∉ names) :
      Splices names (.ok (.accepted tokens)) (.ok (.accepted tokens'))
  | refused {failure failure' : Failure} (hoffset : failure'.offset = failure.offset)
      (hlocation : failure'.location = failure.location) :
      Splices names (.ok (.refused failure)) (.ok (.refused failure'))
  | error (e : RunError) : Splices names (.error e) (.error e)

theorem Pairs.map_flatten_ofTokens {f : Forest} {tokens : Array Token} (h : tokens.toList = f.tokens) :
    (Pairs.ofTokens tokens).flatten.map (fun q => (q.rule, q.span)) = f.nodes := by
  rw [ofTokens, Forest.size_eq_of_tokens h, ← Nat.zero_add (2 * f.size)]
  exact (Forest.standsAt_zero h).map_flatten

namespace Parser

variable {p : Parser} {names : Finset Octets} {n k : Nat} {start text : Octets}

/-- The tokens are compared through what the two grammars mean, for they do not correspond while the runs go on. -/
theorem splices_of_accepted (h : p.grammar.CanSilence names) {tokens tokens' : Array Token}
    (ht : p.parse? n start text = some (.ok (.accepted tokens)))
    (ht' : (p.withGrammar (p.grammar.silence names)).parse? k start text = some (.ok (.accepted tokens'))) :
    Verdict.Splices names (.ok (.accepted tokens)) (.ok (.accepted tokens')) := by
  rcases parse?_sound ht with ⟨_, he⟩ | ⟨a, ha, hta⟩
  · cases he
  · rcases parse?_sound ht' with ⟨_, he⟩ | ⟨b, hb, htb⟩
    · cases he
    · obtain rfl : a.splice names = b := Means.det (p := p.withGrammar _) (Eval.silenced h ha) hb
      cases hta with
      | ok hf =>
          cases htb with
          | ok hf' =>
              refine .accepted ?_ ?_
              · rw [Pairs.forest_ofTokens hf, Pairs.forest_ofTokens hf']
              · rw [Pairs.map_flatten_ofTokens hf, Pairs.map_flatten_ofTokens hf', Forest.nodes_splice]

theorem parse?_silenced (h : p.grammar.CanSilence names) (n : Nat) (start text : Octets) :
    Option.Rel (Verdict.Splices names) (p.parse? n start text)
      ((p.withGrammar (p.grammar.silence names)).parse? n start text) := by
  have hr : (p.run n start (Subject.ofOctets text)).Related State.Parallel
      ((p.withGrammar (p.grammar.silence names)).run n start (Subject.ofOctets text)) :=
    h.parallel_caller _ _ start 0 ⟨⟨rfl, rfl, rfl, rfl⟩, rfl⟩
  have hv := p.parse?_eq_verdict? n start text
  have hv' := (p.withGrammar (p.grammar.silence names)).parse?_eq_verdict? n start text
  generalize p.run n start _ = o at hr hv
  generalize (p.withGrammar _).run n start _ = o' at hr hv'
  cases hr with
  | done m hs =>
      cases m with
      | matched q =>
          have ha := splices_of_accepted h hv hv'
          rw [hv, hv']
          exact .some ha
      | failed q =>
          rw [hv, hv']
          apply Option.Rel.some
          apply Verdict.Splices.refused
          · exact hs.furthest.symm
          · simp only [State.failure, hs.furthest]
            rfl
  | raised e hs =>
      rw [hv, hv']
      exact .some (.error e)
  | exhausted =>
      rw [hv, hv']
      exact .none

/-- To make normal rules silent splices them out. Everything else about a verdict is as before, but for the names of
what was expected. -/
theorem parse_silenced (h : p.grammar.CanSilence names) (start text : Octets) :
    Verdict.Splices names (p.parse start text) ((p.withGrammar (p.grammar.silence names)).parse start text) ∧
      ∀ n, Option.Rel (Verdict.Splices names) (p.parse? n start text)
        ((p.withGrammar (p.grammar.silence names)).parse? n start text) := by
  constructor
  · have ha := parse?_silenced h (p.grammar.ampleDepth text) start text
    rw [parse, parse, withGrammar, ← h.rulewise.ampleDepth_eq]
    rw [withGrammar] at ha
    generalize p.parse? _ start text = o at ha ⊢
    generalize Parser.parse? _ _ start text = o' at ha ⊢
    cases ha with
    | some hs => exact hs
    | none => exact .error .callDepth
  · intro n
    exact parse?_silenced h n start text

/-- Between white space, of two attempts at the rule the first one fails behind a letter. -/
theorem parse_silenced_item :
    let names : Finset Octets := {ascii "item"}
    let p : Parser := { grammar := ⟨[.written "whitespace" .normal (.written " "),
      .written "pair" .normal (.seq (.choice (.seq (.rule "item") (.written "!")) (.rule "item")) (.rule "item")),
      .written "item" .normal (.rule "letter"), .written "letter" .normal (.writtenRange "a" "z")],
      by decide, by decide, by decide⟩ }
    p.grammar.CanSilence names ∧
      Verdict.Splices names (p.parse (ascii "pair") (ascii "a b"))
        ((p.withGrammar (p.grammar.silence names)).parse (ascii "pair") (ascii "a b")) := by
  intro names p
  have h : p.grammar.CanSilence names := by decide
  exact ⟨h, (parse_silenced h _ _).1⟩

end Parser

end Peg
