import Peg.Grammar.Written

namespace Peg

theorem Builtin.name_ne_nil (b : Builtin) : b.name ≠ [] := by cases b <;> decide

/-- What is at fault with the name of a rule that stands behind others. -/
inductive Rule.Fault (earlier : List Rule) (r : Rule) : GrammarError → Prop
  | emptyName (h : r.name = []) : Fault earlier r .emptyName
  | reserved (b : Builtin) (h : b.name = r.name) : Fault earlier r (.reserved r.name)
  | duplicate {s} (hs : s ∈ earlier) (h : s.name = r.name) : Fault earlier r (.duplicate r.name)

namespace Grammar

def Faultless (rules : List Rule) : Prop :=
  ∀ before r after, rules = before ++ r :: after → ∀ e, ¬r.Fault before e

/-- The error is that of the first rule in the list that is at fault. -/
def FirstFault (rules : List Rule) (e : GrammarError) : Prop :=
  ∃ before r after, rules = before ++ r :: after ∧ Faultless before ∧ r.Fault before e

/-- The rule stands in the list and no other place has its name. -/
def OnlyAt (rules : List Rule) (name : Octets) (r : Rule) : Prop :=
  ∃ i, rules[i]? = some r ∧ ∀ (j : Nat) (s : Rule), rules[j]? = some s → (s.name = name ↔ j = i)

variable {rules earlier before rest : List Rule} {r s : Rule} {e : GrammarError} {g : Grammar} {name : Octets}

theorem faultless_nil : Faultless [] := by
  intro before r after h
  simp at h

theorem Faultless.of_append (h : Faultless (before ++ rest)) : Faultless before := by
  rintro front r back rfl
  exact h front r (back ++ rest) (by simp)

theorem faultless_concat : Faultless (earlier ++ [r]) ↔ Faultless earlier ∧ ∀ e, ¬r.Fault earlier e := by
  refine ⟨fun h => ⟨h.of_append, h earlier r [] rfl⟩, fun ⟨h, hr⟩ front s back he => ?_⟩
  rcases List.eq_nil_or_concat back with rfl | ⟨back, t, rfl⟩
  · obtain ⟨rfl, hs⟩ := List.append_inj' he rfl
    cases hs
    exact hr
  · have he : earlier ++ [r] = (front ++ s :: back) ++ [t] := by simpa using he
    exact h front s back (List.append_inj' he rfl).1

theorem Faultless.of_mem (h : Faultless rules) (hr : r ∈ rules) : r.name ≠ [] ∧ Builtin.ofName? r.name = none := by
  obtain ⟨before, after, rfl⟩ := List.append_of_mem hr
  have hfault := h before r after rfl
  refine ⟨fun hn => hfault _ (.emptyName hn), Option.eq_none_iff_forall_ne_some.mpr fun b hb => ?_⟩
  exact hfault _ (.reserved b (Builtin.name_of_ofName? hb))

end Grammar

namespace RuleTable

open Grammar

/-- A name is in the index with the positions of the rules that bear it. -/
def Indexes (index : NameIndex) (rules : List Rule) : Prop :=
  ∀ name i, index.lookup name = some i ↔ (rules.map Rule.name)[i]? = some name

variable {rules earlier : List Rule} {r : Rule} {e : GrammarError} {index index' : NameIndex} {t : RuleTable}
  {name : Octets}

theorem indexes_nil : Indexes [] [] := by
  intro name i
  simp

theorem Indexes.isSome_iff (h : Indexes index rules) : (index.lookup name).isSome ↔ ∃ s ∈ rules, s.name = name := by
  rw [Option.isSome_iff_exists, ← List.mem_map, List.mem_iff_getElem?]
  exact exists_congr fun i => h name i

theorem Indexes.concat (h : Indexes index earlier) (hr : ∀ s ∈ earlier, s.name ≠ r.name) :
    Indexes ((r.name, earlier.length) :: index) (earlier ++ [r]) := by
  intro name i
  rw [lookup_cons, List.map_append, List.map_singleton, List.getElem?_append, List.length_map]
  have hnew : (earlier.map Rule.name)[i]? ≠ some r.name := fun hi => by
    obtain ⟨s, hs, he⟩ := List.mem_map.mp (List.mem_of_getElem? hi)
    exact hr s hs he
  split
  next hn =>
    subst hn
    split
    next hlt =>
      refine ⟨fun he => ?_, fun hi => absurd hi hnew⟩
      cases he
      exact absurd hlt (Nat.lt_irrefl _)
    next hle => grind
  next hn =>
    rw [h name i]
    split
    next => rfl
    next hle =>
      rw [List.getElem?_eq_none (by simpa using hle)]
      grind

theorem indexFrom_of_fault (h : Faultless earlier) (hi : Indexes index earlier) (hr : r.Fault earlier e) (i : Nat)
    (rest : List Rule) : indexFrom index i (r :: rest) = .error e := by
  rw [indexFrom]
  cases hr with
  | emptyName hn => rw [if_pos hn]
  | reserved b hb =>
      rw [if_neg (hb ▸ b.name_ne_nil), if_pos (by rw [← hb, b.ofName?_name]; rfl)]
  | @duplicate s hs he =>
      obtain ⟨hne, hfree⟩ := h.of_mem hs
      rw [he] at hne hfree
      rw [if_neg hne, if_neg (by simp [hfree]), if_pos (hi.isSome_iff.mpr ⟨s, hs, he⟩)]

theorem indexFrom_of_not_fault (hi : Indexes index earlier) (hr : ∀ e, ¬r.Fault earlier e) (i : Nat)
    (rest : List Rule) : indexFrom index i (r :: rest) = indexFrom ((r.name, i) :: index) (i + 1) rest := by
  have hne : r.name ≠ [] := fun hn => hr _ (.emptyName hn)
  have hfree : ¬(Builtin.ofName? r.name).isSome = true := fun hb => by
    obtain ⟨b, hb⟩ := Option.isSome_iff_exists.mp hb
    exact hr _ (.reserved b (Builtin.name_of_ofName? hb))
  have hnew : ¬(index.lookup r.name).isSome = true := fun hm => by
    obtain ⟨s, hs, he⟩ := hi.isSome_iff.mp hm
    exact hr _ (.duplicate hs he)
  rw [indexFrom, if_neg hne, if_neg hfree, if_neg hnew]

/-- The rules before are in the index, and none of them is at fault. -/
theorem indexFrom_eq_error_iff (h : Faultless earlier) (hi : Indexes index earlier) (rules : List Rule)
    (e : GrammarError) : indexFrom index earlier.length rules = .error e ↔
      ∃ before r after, rules = before ++ r :: after ∧ Faultless (earlier ++ before) ∧ r.Fault (earlier ++ before) e := by
  induction rules generalizing earlier index with
  | nil => simp [indexFrom]
  | cons s rest ih =>
      simp only [List.cons_eq_append_iff]
      by_cases hs : ∃ e', s.Fault earlier e'
      · obtain ⟨e', hs⟩ := hs
        rw [indexFrom_of_fault h hi hs, Except.error.injEq]
        constructor
        · rintro rfl
          exact ⟨[], s, rest, .inl ⟨rfl, rfl⟩, by simpa using h, by simpa using hs⟩
        · rintro ⟨before, r, after, ⟨rfl, he⟩ | ⟨before, rfl, -⟩, hbefore, hr⟩
          · cases he
            rw [List.append_nil] at hr
            have hr := indexFrom_of_fault h hi hr 0 rest
            rw [indexFrom_of_fault h hi hs] at hr
            exact Except.error.inj hr
          · exact absurd hs (hbefore earlier s before rfl e')
      · have hs : ∀ e', ¬s.Fault earlier e' := fun e' he => hs ⟨e', he⟩
        have ih := ih (faultless_concat.mpr ⟨h, hs⟩) (hi.concat fun _ hmem he => hs _ (.duplicate hmem he))
        rw [List.length_append, List.length_singleton] at ih
        rw [indexFrom_of_not_fault hi hs, ih]
        simp only [List.append_assoc, List.singleton_append]
        constructor
        · rintro ⟨before, r, after, rfl, hbefore, hr⟩
          exact ⟨s :: before, r, after, .inr ⟨before, rfl, rfl⟩, hbefore, hr⟩
        · rintro ⟨before, r, after, ⟨rfl, he⟩ | ⟨before, rfl, rfl⟩, hbefore, hr⟩
          · cases he
            rw [List.append_nil] at hr
            exact absurd hr (hs e)
          · exact ⟨before, r, after, rfl, hbefore, hr⟩

theorem indexes_of_indexFrom (hi : Indexes index earlier) (h : indexFrom index earlier.length rules = .ok index') :
    Indexes index' (earlier ++ rules) := by
  induction rules generalizing earlier index with
  | nil =>
      cases h
      rw [List.append_nil]
      exact hi
  | cons r rest ih =>
      obtain ⟨-, -, hnew, h⟩ := of_indexFrom_cons h
      have hr : ∀ s ∈ earlier, s.name ≠ r.name := fun s hs he => by
        have hsome := hi.isSome_iff.mpr ⟨s, hs, he⟩
        rw [hnew] at hsome
        cases hsome
      rw [List.append_cons]
      exact ih (hi.concat hr) (by simpa using h)

theorem ofRules_eq_error_iff (rules : List Rule) (e : GrammarError) :
    ofRules rules = .error e ↔ FirstFault rules e := by
  have hiff := indexFrom_eq_error_iff faultless_nil indexes_nil rules e
  simp only [List.nil_append, List.length_nil] at hiff
  rw [FirstFault, ← hiff, ofRules]
  cases indexFrom [] 0 rules <;> simp [Except.map]

/-- What a finished table has on record. -/
theorem indexes_of_ofRules (h : ofRules rules = .ok t) : t.rules = rules ∧ Indexes t.index rules ∧
    t.hasWhitespace = (t.index.lookup whitespaceName).isSome ∧
      t.hasComment = (t.index.lookup commentName).isSome := by
  obtain ⟨index, hi, rfl⟩ := ofRules_eq_ok h
  exact ⟨rfl, indexes_of_indexFrom indexes_nil hi, rfl, rfl⟩

theorem find?_eq_some_iff_mem (hi : Indexes t.index t.rules) (name : Octets) (r : Rule) :
    t.find? name = some r ↔ r ∈ t.rules ∧ r.name = name := by
  rw [find?, Option.bind_eq_some_iff, List.mem_iff_getElem?, ← exists_and_right]
  refine exists_congr fun i => ?_
  rw [hi name i, List.getElem?_map, and_comm]
  refine and_congr_right fun hr => ?_
  rw [hr, Option.map_some, Option.some.injEq]

theorem isSome_find? (hi : Indexes t.index t.rules) (name : Octets) :
    (t.find? name).isSome = (t.index.lookup name).isSome := by
  rw [Bool.eq_iff_iff, hi.isSome_iff, Option.isSome_iff_exists]
  simp only [find?_eq_some_iff_mem hi]

end RuleTable

namespace Grammar

variable {rules earlier before rest : List Rule} {r s : Rule} {e : GrammarError} {g : Grammar} {name : Octets}

theorem table_eq_error_iff (rules : List Rule) (e : GrammarError) :
    RuleTable.ofRules rules = .error e ↔ ofRules rules = .error e := by
  unfold ofRules
  split
  next h => rw [h, Except.error.injEq, Except.error.injEq]
  next h => simp [h]

theorem ofRules_eq_error_iff (rules : List Rule) (e : GrammarError) :
    ofRules rules = .error e ↔ FirstFault rules e := by
  rw [← table_eq_error_iff, RuleTable.ofRules_eq_error_iff]

theorem exists_table (h : ofRules rules = .ok g) : ∃ t, RuleTable.ofRules rules = .ok t ∧ t.rules = g.rules := by
  unfold ofRules at h
  split at h
  · cases h
  next t ht =>
    cases h
    exact ⟨t, ht, rfl⟩

theorem ofRules_eq_ok (h : ofRules rules = .ok g) : g.rules = rules := by
  obtain ⟨t, ht, he⟩ := exists_table h
  rw [← he, (RuleTable.indexes_of_ofRules ht).1]

theorem faultless_rules (g : Grammar) : Faultless g.rules := by
  intro before r after hrules e hfault
  have hr : r ∈ g.rules := by simp [hrules]
  cases hfault with
  | emptyName hn => exact g.names_ne_nil r hr hn
  | reserved b hb =>
      have hfree := g.names_free r hr
      rw [← hb, b.ofName?_name] at hfree
      cases hfree
  | @duplicate s hs he =>
      have hnodup := g.names_nodup
      rw [hrules, List.map_append, List.nodup_append] at hnodup
      exact hnodup.2.2 s.name (List.mem_map_of_mem hs) r.name (by simp) he

/-- A grammar can be built from its rules again. -/
theorem ofRules_rules (g : Grammar) : ofRules g.rules = .ok g := by
  cases ho : ofRules g.rules with
  | ok g' =>
      have he := ofRules_eq_ok ho
      cases g
      cases g'
      cases he
      rfl
  | error e =>
      obtain ⟨before, r, after, hrules, -, hfault⟩ := (ofRules_eq_error_iff _ _).mp ho
      exact absurd hfault (g.faultless_rules before r after hrules e)

theorem exists_error_iff (rules : List Rule) : (∃ e, ofRules rules = .error e) ↔
    ∃ before r after, rules = before ++ r :: after ∧ ∃ e, r.Fault before e := by
  constructor
  · rintro ⟨e, he⟩
    obtain ⟨before, r, after, hrules, -, hfault⟩ := (ofRules_eq_error_iff _ _).mp he
    exact ⟨before, r, after, hrules, e, hfault⟩
  · rintro ⟨before, r, after, hrules, e, hfault⟩
    cases ho : ofRules rules with
    | error e' => exact ⟨e', rfl⟩
    | ok g =>
        rw [← ofRules_eq_ok ho] at hrules
        exact absurd hfault (g.faultless_rules before r after hrules e)

theorem exists_fault_iff : (∃ e, r.Fault earlier e) ↔
    r.name = [] ∨ (∃ b : Builtin, b.name = r.name) ∨ ∃ s ∈ earlier, s.name = r.name := by
  constructor
  · rintro ⟨e, h | ⟨b, h⟩ | ⟨hs, h⟩⟩
    · exact .inl h
    · exact .inr (.inl ⟨b, h⟩)
    · exact .inr (.inr ⟨_, hs, h⟩)
  · rintro (h | ⟨b, h⟩ | ⟨s, hs, h⟩)
    · exact ⟨_, .emptyName h⟩
    · exact ⟨_, .reserved b h⟩
    · exact ⟨_, .duplicate hs h⟩

theorem find?_eq_some_iff_mem (g : Grammar) (name : Octets) (r : Rule) :
    g.find? name = some r ↔ r ∈ g.rules ∧ r.name = name :=
  ⟨find?_eq_some, fun ⟨hr, hn⟩ => hn ▸ find?_of_mem hr⟩

/-- The table that a grammar comes from finds a rule at its position where the grammar searches for its name. -/
theorem table_agrees {t : RuleTable} (ht : RuleTable.ofRules rules = .ok t) (hg : ofRules rules = .ok g) :
    t.rules = rules ∧ (∀ name, t.find? name = g.find? name) ∧ t.hasWhitespace = g.hasWhitespace ∧
      t.hasComment = g.hasComment := by
  obtain ⟨hrules, hi, hw, hc⟩ := RuleTable.indexes_of_ofRules ht
  rw [← hrules] at hi
  have hfind : ∀ name, t.find? name = g.find? name := fun name => by
    apply Option.ext
    intro r
    rw [RuleTable.find?_eq_some_iff_mem hi, g.find?_eq_some_iff_mem, hrules, ofRules_eq_ok hg]
  refine ⟨hrules, hfind, ?_, ?_⟩
  · rw [hw, ← RuleTable.isSome_find? hi, hfind, hasWhitespace]
  · rw [hc, ← RuleTable.isSome_find? hi, hfind, hasComment]

theorem find?_eq_some_iff (g : Grammar) (name : Octets) (r : Rule) :
    g.find? name = some r ↔ OnlyAt g.rules name r := by
  rw [find?_eq_some_iff_mem]
  constructor
  · rintro ⟨hr, rfl⟩
    obtain ⟨i, hi⟩ := List.mem_iff_getElem?.mp hr
    refine ⟨i, hi, fun j s hs => ⟨fun he => ?_, fun he => ?_⟩⟩
    · have hj : j < (g.rules.map Rule.name).length := by
        rw [List.length_map]
        exact (List.getElem?_eq_some_iff.mp hs).1
      exact (List.getElem?_inj hj g.names_nodup).mp (by simp [hs, hi, he])
    · rw [he, hi] at hs
      cases hs
      rfl
  · rintro ⟨i, hi, h⟩
    exact ⟨List.mem_of_getElem? hi, (h i r hi).mpr rfl⟩

theorem find?_eq_none_iff (g : Grammar) (name : Octets) : g.find? name = none ↔ ∀ r ∈ g.rules, r.name ≠ name := by
  simp [find?]

theorem find?_eq_of_perm {g' : Grammar} (h : g'.rules.Perm g.rules) (name : Octets) :
    g'.find? name = g.find? name := by
  apply Option.ext
  intro r
  rw [find?_eq_some_iff_mem, find?_eq_some_iff_mem, h.mem_iff]

theorem exists_ofRules_of_perm {rules' : List Rule} (h : rules'.Perm g.rules) : ∃ g', ofRules rules' = .ok g' ∧
    ∀ name, g'.find? name = g.find? name := by
  have hmem : ∀ r ∈ rules', r ∈ g.rules := fun r hr => h.subset hr
  let g' : Grammar := ⟨rules', fun r hr => g.names_ne_nil r (hmem r hr), fun r hr => g.names_free r (hmem r hr),
    (h.map Rule.name).nodup_iff.mpr g.names_nodup⟩
  exact ⟨g', g'.ofRules_rules, find?_eq_of_perm h⟩

/-- A list of rules is refused if a rule in it has an empty or a reserved name or the name of a rule before it, and the
error is then that of the first such rule. Otherwise a name finds the only rule that bears it, in whatever order the
rules stand, and the table of the rules with its index answers like a search. -/
theorem ofRules_exact (rules : List Rule) :
    (∀ e, ofRules rules = .error e ↔ FirstFault rules e) ∧
      ((∃ e, ofRules rules = .error e) ↔ ∃ before r after, rules = before ++ r :: after ∧
        (r.name = [] ∨ (∃ b : Builtin, b.name = r.name) ∨ ∃ s ∈ before, s.name = r.name)) ∧
      (∀ e, RuleTable.ofRules rules = .error e ↔ ofRules rules = .error e) ∧
      ∀ g, ofRules rules = .ok g →
        (∀ name r, g.find? name = some r ↔ OnlyAt rules name r) ∧
        (∀ name, g.find? name = none ↔ ∀ r ∈ rules, r.name ≠ name) ∧
        (∀ rules', rules'.Perm rules → ∃ g', ofRules rules' = .ok g' ∧ ∀ name, g'.find? name = g.find? name) ∧
        (g.hasWhitespace = true ↔ ∃ r, g.find? whitespaceName = some r) ∧
        (g.hasComment = true ↔ ∃ r, g.find? commentName = some r) ∧
        ∃ t, RuleTable.ofRules rules = .ok t ∧ t.rules = rules ∧ (∀ name, t.find? name = g.find? name) ∧
          t.hasWhitespace = g.hasWhitespace ∧ t.hasComment = g.hasComment := by
  refine ⟨ofRules_eq_error_iff rules, ?_, table_eq_error_iff rules, fun g hg => ?_⟩
  · simp only [exists_error_iff, exists_fault_iff]
  · obtain ⟨t, ht, -⟩ := exists_table hg
    have hagrees := table_agrees ht hg
    cases ofRules_eq_ok hg
    exact ⟨g.find?_eq_some_iff, g.find?_eq_none_iff, fun rules' h => exists_ofRules_of_perm h,
      Option.isSome_iff_exists, Option.isSome_iff_exists, t, ht, hagrees⟩

/-- Of three rules at fault the first one counts: a name comes again before an empty one and a reserved one do. -/
theorem ofRules_exact_duplicate :
    let a : Rule := .written "a" .normal (.written "x")
    let blank : Rule := .written "whitespace" .silent (.written " ")
    let faulty : List Rule := [a, blank, .written "a" .silent (.written "y"), .written "" .normal (.written "x"),
      .written "pop" .normal (.written "x")]
    (ofRules faulty = .error (.duplicate (ascii "a")) ∧ FirstFault faulty (.duplicate (ascii "a")) ∧
      RuleTable.ofRules faulty = .error (.duplicate (ascii "a"))) ∧
      ∃ g g' t, ofRules [a, blank] = .ok g ∧ ofRules [blank, a] = .ok g' ∧ RuleTable.ofRules [a, blank] = .ok t ∧
        OnlyAt [a, blank] (ascii "a") a ∧ g'.find? (ascii "a") = some a ∧ g.find? commentName = none ∧
        g.hasWhitespace = true ∧ t.find? (ascii "a") = some a ∧ t.hasWhitespace = true := by
  intro a blank faulty
  have herror : ofRules faulty = .error (.duplicate (ascii "a")) := rfl
  refine ⟨⟨herror, ((ofRules_exact faulty).1 _).mp herror, ((ofRules_exact faulty).2.2.1 _).mpr herror⟩, ?_⟩
  let g : Grammar := ⟨[a, blank], by decide, by decide, by decide⟩
  have hok : ofRules [a, blank] = .ok g := g.ofRules_rules
  obtain ⟨hfind, hnone, hperm, hblank, -, t, ht, -, hsame', hflag, -⟩ := (ofRules_exact [a, blank]).2.2.2 g hok
  obtain ⟨g', hok', hsame⟩ := hperm [blank, a] (.swap ..)
  have ha : g.find? (ascii "a") = some a := rfl
  have hwhitespace : g.hasWhitespace = true := hblank.mpr ⟨blank, rfl⟩
  exact ⟨g, g', t, hok, hok', ht, (hfind _ _).mp ha, (hsame _).trans ha, (hnone _).mpr (by decide), hwhitespace,
    (hsame' _).trans ha, hflag.trans hwhitespace⟩

end Grammar

end Peg
