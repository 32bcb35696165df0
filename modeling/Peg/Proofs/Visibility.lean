import Peg.Grammar.Written
import Peg.Proofs.TokenQueue

namespace Peg

/-- What matches in a mode leave behind. A rule has a node where the mode allows it, and inside it stands what its
body left in the mode that the rule sets. -/
inductive Forest.Shown (g : Grammar) : Atomicity → Forest → Prop
  | nil (m) : Shown g m .nil
  | endOfInput {m next} (span) (hm : m ≠ .atomic) (hn : Shown g m next) :
      Shown g m (.cons Builtin.endOfInput.name span .nil next)
  | rule {m r inner next} (span) (hr : r ∈ g.rules) (hnode : r.hasNode m = true)
      (hi : Shown g (r.modeInside m) inner) (hn : Shown g m next) : Shown g m (.cons r.name span inner next)

namespace Rule

variable {r : Rule} {m : Atomicity}

/-- A rule without a node hands its mode on, or it is a separator. -/
theorem modeInside_of_hasNode_eq_false (h : r.hasNode m = false) :
    r.modeInside m = m ∨ r.modeInside m = .atomic := by
  unfold modeInside
  by_cases hs : r.IsSeparator
  · exact .inr (if_pos hs)
  · rw [if_neg hs]
    unfold hasNode at h
    cases hk : r.kind with
    | normal | silent => exact .inl rfl
    | atomic => exact .inr rfl
    | compoundAtomic | nonAtomic => simp [hk, hs] at h

theorem hasNode_atomic : r.hasNode .atomic = true ↔
    ¬r.IsSeparator ∧ (r.kind = .compoundAtomic ∨ r.kind = .nonAtomic) := by
  unfold hasNode
  cases hk : r.kind <;> simp

/-- What has a node inside an atomic rule has one everywhere, and sets the same mode everywhere. -/
theorem hasNode_of_atomic (h : r.hasNode .atomic = true) (m : Atomicity) :
    r.hasNode m = true ∧ r.modeInside m = r.modeInside .atomic := by
  obtain ⟨hs, hk⟩ := hasNode_atomic.mp h
  unfold hasNode modeInside
  rw [if_neg hs, if_neg hs]
  rcases hk with hk | hk
  · rw [hk]
    exact ⟨decide_eq_true hs, rfl⟩
  · rw [hk]
    exact ⟨decide_eq_true hs, rfl⟩

theorem kind_of_hasNode (h : r.hasNode m = true) :
    r.kind ≠ .silent ∧ (r.IsSeparator → r.kind = .normal ∨ r.kind = .atomic) := by
  unfold hasNode at h
  cases hk : r.kind with
  | normal => exact ⟨nofun, fun _ => .inl rfl⟩
  | silent => simp [hk] at h
  | atomic => exact ⟨nofun, fun _ => .inr rfl⟩
  | compoundAtomic | nonAtomic =>
      rw [hk] at h
      exact ⟨nofun, fun hs => absurd hs (of_decide_eq_true h)⟩

theorem modeInside_eq_atomic (h : r.kind = .atomic ∨ r.IsSeparator) (m : Atomicity) : r.modeInside m = .atomic := by
  unfold modeInside
  by_cases hs : r.IsSeparator
  · exact if_pos hs
  · rw [if_neg hs, h.resolve_right hs]

end Rule

namespace Forest.Shown

variable {g : Grammar} {m : Atomicity} {f f' inner : Forest} {rule : Octets} {span : Span}

theorem append (h : f.Shown g m) (h' : f'.Shown g m) : (f ++ f').Shown g m := by
  induction h with
  | nil => exact h'
  | endOfInput span hm _ ih => exact .endOfInput span hm (ih h')
  | rule span hr hnode hi _ _ ih => exact .rule span hr hnode hi (ih h')

/-- What comes to light in the atomic mode does so in every mode. -/
theorem of_atomic (h : f.Shown g .atomic) (m : Atomicity) : f.Shown g m := by
  induction f with
  | nil => exact .nil m
  | cons rule span inner next _ ih =>
      cases h with
      | endOfInput _ hm _ => exact absurd rfl hm
      | rule _ hr hnode hi hn =>
          obtain ⟨hm, he⟩ := Rule.hasNode_of_atomic hnode m
          rw [← he] at hi
          exact .rule span hr hm hi (ih hn)

/-- Every tree in it is the end of the input or a rule called in a mode that gives it a node. -/
theorem hasTree (h : f.Shown g m) (ht : f.HasTree rule span inner) :
    rule = Builtin.endOfInput.name ∨
      ∃ r ∈ g.rules, r.name = rule ∧ ∃ m', r.hasNode m' = true ∧ inner.Shown g (r.modeInside m') := by
  induction ht generalizing m with
  | root =>
      cases h with
      | endOfInput => exact .inl rfl
      | rule _ hr hnode hi => exact .inr ⟨_, hr, rfl, m, hnode, hi⟩
  | inner ht ih =>
      cases h with
      | endOfInput => cases ht
      | rule _ _ _ hi => exact ih hi
  | next _ ih =>
      cases h with
      | endOfInput _ _ hn | rule _ _ _ _ hn => exact ih hn

theorem roots (h : f.Shown g .atomic) : ∀ s ∈ f.roots, ∃ r ∈ g.rules, r.name = s.1 ∧ r.hasNode .atomic = true := by
  induction f with
  | nil => exact nofun
  | cons rule span inner next _ ih =>
      rw [Forest.roots, List.forall_mem_cons]
      cases h with
      | endOfInput _ hm _ => exact absurd rfl hm
      | rule _ hr hnode _ hn => exact ⟨⟨_, hr, rfl, hnode⟩, ih hn⟩

end Forest.Shown

def Answer.Shows (g : Grammar) (m : Atomicity) : Answer → Prop
  | fail => True
  | error _ => True
  | ok _ _ f => f.Shown g m

namespace Answer.Shows

variable {g : Grammar} {m : Atomicity} {a : Answer}

theorem ofMatch (c : List Span) (w : Match) : (Answer.ofMatch c w).Shows g m := by
  cases w with
  | matched q => exact .nil m
  | failed q => trivial

theorem orNothing (h : a.Shows g m) (p : Nat) (c : List Span) : (a.orNothing p c).Shows g m := by
  cases a with
  | fail => exact .nil m
  | error => trivial
  | ok q d f => exact h

theorem lookedAhead (p : Nat) (c : List Span) (polarity : Polarity) (a : Answer) :
    (a.lookedAhead p c polarity).Shows g m := by
  cases polarity <;> cases a <;> first | trivial | exact .nil m

theorem captured (h : a.Shows g m) (p : Nat) : (a.captured p).Shows g m := by
  cases a with
  | fail | error => trivial
  | ok q c f => exact h

theorem behind {f : Forest} (hf : f.Shown g m) (h : a.Shows g m) : (a.behind f).Shows g m := by
  cases a with
  | fail | error => trivial
  | ok q c f' => exact hf.append h

theorem endOfInput (c : List Span) (w : Match) (p : Nat) :
    ((Answer.ofMatch c w).inNode Builtin.endOfInput.name p (m ≠ .atomic)).Shows g m := by
  cases w with
  | failed q => trivial
  | matched q =>
      by_cases hm : m = .atomic
      · subst hm
        exact .nil .atomic
      · rw [decide_eq_true hm]
        exact Forest.Shown.endOfInput ⟨p, q⟩ hm (.nil m)

theorem inNode {r : Rule} (hr : r ∈ g.rules) (h : a.Shows g (r.modeInside m)) (p : Nat) :
    (a.inNode r.name p (r.hasNode m)).Shows g m := by
  cases a with
  | fail | error => trivial
  | ok q c f =>
      cases hn : r.hasNode m with
      | true => exact .rule ⟨p, q⟩ hr hn h (.nil m)
      | false =>
          -- Without a node what the body left stands among what the caller leaves.
          rcases Rule.modeInside_of_hasNode_eq_false hn with he | he
          · rwa [Answer.Shows, he] at h
          · rw [Answer.Shows, he] at h
            exact h.of_atomic m

end Answer.Shows

theorem Eval.shown {g : Grammar} {x : Subject} {m : Atomicity} {t : Task} {p : Nat} {c : List Span} {a : Answer}
    (h : Eval g x m t p c a) : a.Shows g m := by
  induction h with
  | literal | folded | range | any | startOfInput | peek | pop => exact .ofMatch _ _
  | scan_found | repeated_never | skip_nothing | nothing | many_full | many_failed => exact .nil _
  | scan_missed | peek_empty | pop_empty | undefinedRule | many_error => trivial
  | ref _ ih | seq _ ih | skip _ ih => exact ih
  | look polarity _ _ => exact .lookedAhead _ _ polarity _
  | choice_first _ _ ih | both_first _ _ ih => exact ih
  | choice_second _ _ _ ih => exact ih
  | optional _ ih => exact ih.orNothing _ _
  | repeated _ _ ih =>
      split
      · exact ih.orNothing _ _
      · exact ih
  | capture _ ih => exact ih.captured _
  | endOfInput => exact .endOfInput _ _ _
  | rule _ hf _ ih => exact .inNode (Grammar.find?_eq_some hf).1 ih _
  | both _ _ iht ihu => exact ihu.behind iht
  | many_last _ _ _ ih => exact ih
  | many_more _ _ _ _ ih ihm => exact ihm.behind ih

/-- Each pair is the end of the input or a rule that is not silent, and separators among them are normal or atomic.
Directly inside an atomic rule or a separator stand only rules that end the atomic mode. -/
theorem Parser.pairs_visible {p : Parser} {n : Nat} {start text : Octets} {tokens : Array Token}
    (h : p.parse? n start text = some (.ok (.accepted tokens))) :
    ∀ q ∈ (Pairs.ofTokens tokens).flatten,
      (q.rule = Builtin.endOfInput.name ∨ ∃ r ∈ p.grammar.rules, r.name = q.rule ∧ r.kind ≠ .silent) ∧
        ∀ r ∈ p.grammar.rules, r.name = q.rule →
          (r.IsSeparator → r.kind = .normal ∨ r.kind = .atomic) ∧
            (r.kind = .atomic ∨ r.IsSeparator → ∀ c ∈ q.inner.toList, ∃ r' ∈ p.grammar.rules, r'.name = c.rule ∧
              ¬r'.IsSeparator ∧ (r'.kind = .compoundAtomic ∨ r'.kind = .nonAtomic)) := by
  obtain ⟨f, hf, hshown⟩ : ∃ f : Forest, tokens.toList = f.tokens ∧ f.Shown p.grammar .nonAtomic := by
    rcases parse?_sound h with ⟨_, he⟩ | ⟨a, ha, ht⟩
    · cases he
    · cases ht with
      | @ok _ _ f _ hf => exact ⟨f, hf, ha.shown⟩
  intro q hq
  obtain ⟨k, t, rfl, ht, hte⟩ := Pairs.mem_flatten_ofTokens.mp hq
  have hk := (Array.getElem?_eq_some_iff.mp ht).1
  rw [Forest.size_eq_of_tokens hf] at hk
  obtain ⟨inner, stop, htree, hin, hp, -, -⟩ := (Forest.standsAt_zero hf).hasTree (Nat.zero_le k) (by omega) ht hte
  have hrule : (Pair.mk tokens k).rule = t.rule := Pair.rule_eq ht
  rw [hrule]
  rcases hshown.hasTree htree with he | ⟨r, hr, hname, m, hnode, hinner⟩
  · refine ⟨.inl he, fun r hr hname => ?_⟩
    have hfree := p.grammar.names_free r hr
    rw [hname, he] at hfree
    cases hfree
  · obtain ⟨hsilent, hsep⟩ := Rule.kind_of_hasNode hnode
    refine ⟨.inr ⟨r, hr, hname, hsilent⟩, fun r' hr' hname' => ?_⟩
    obtain rfl : r = r' := Grammar.eq_of_name_eq hr hr' (hname.trans hname'.symm)
    refine ⟨hsep, fun ha c hc => ?_⟩
    rw [Rule.modeInside_eq_atomic ha] at hinner
    have hroots : (Pair.mk tokens k).inner.toList.map (fun p => (p.rule, p.span)) = inner.roots := by
      rw [Pair.inner, Pair.partner_eq ht, hp]
      exact hin.map_listFrom (by dsimp only; omega)
    have hmem : (c.rule, c.span) ∈ inner.roots := by
      rw [← hroots]
      exact List.mem_map_of_mem (f := fun p : Pair => (p.rule, p.span)) hc
    obtain ⟨s, hs, hsname, hsnode⟩ := hinner.roots _ hmem
    exact ⟨s, hs, hsname, Rule.hasNode_atomic.mp hsnode⟩

/-- The rule in between leaves no node, and the rule in it does. -/
theorem Parser.pairs_visible_nonAtomic :
    let outer := Rule.written "outer" .atomic (.seq (.rule "plain") (.rule "inner"))
    let g : Grammar := ⟨[.written "whitespace" .normal (.written " "), outer, .written "plain" .normal (.rule "inner"),
      .written "inner" .nonAtomic (.seq (.written "a") (.written "b"))], by decide, by decide, by decide⟩
    let tokens : Array Token := #[⟨.start, ascii "outer", 7, 0⟩, ⟨.start, ascii "inner", 4, 0⟩,
      ⟨.start, ascii "whitespace", 3, 1⟩, ⟨.stop, ascii "whitespace", 2, 2⟩, ⟨.stop, ascii "inner", 1, 3⟩,
      ⟨.start, ascii "inner", 6, 3⟩, ⟨.stop, ascii "inner", 5, 5⟩, ⟨.stop, ascii "outer", 0, 5⟩]
    ({ grammar := g } : Parser).parse? 4 (ascii "outer") (ascii "a bab") = some (.ok (.accepted tokens)) ∧
      (Pair.mk tokens 0).rule = outer.name ∧ (Pair.mk tokens 0).inner.size = 2 ∧
      ∀ c ∈ (Pair.mk tokens 0).inner.toList, ∃ r ∈ g.rules, r.name = c.rule ∧ ¬r.IsSeparator ∧
        (r.kind = .compoundAtomic ∨ r.kind = .nonAtomic) :=
  have h := rfl
  ⟨h, rfl, rfl, ((Parser.pairs_visible h ⟨_, 0⟩ (.head _)).2 _ (.tail _ (.head _)) rfl).2 (.inl rfl)⟩

end Peg
