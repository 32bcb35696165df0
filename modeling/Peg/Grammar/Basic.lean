import Peg.Expr.Basic

namespace Peg

/-- The names that every grammar understands and none may define. -/
inductive Builtin where
  | any
  | endOfInput
  | startOfInput
  | peek
  | pop
deriving DecidableEq, Repr

namespace Builtin

def name : Builtin → Octets
  | any => ascii "any"
  | endOfInput => ascii "eoi"
  | startOfInput => ascii "soi"
  | peek => ascii "peek"
  | pop => ascii "pop"

def ofName? (name : Octets) : Option Builtin :=
  [any, endOfInput, startOfInput, peek, pop].find? fun b => b.name = name

theorem ofName?_name (b : Builtin) : ofName? b.name = some b := by cases b <;> decide

theorem name_of_ofName? {name : Octets} {b : Builtin} (h : ofName? name = some b) : b.name = name :=
  of_decide_eq_true (List.find?_some (p := fun b : Builtin => b.name = name) h)

end Builtin

def whitespaceName : Octets := ascii "whitespace"

def commentName : Octets := ascii "comment"

/-- What a rule does to the tokens and separators of its body. A silent rule leaves no token of its
own. An atomic rule leaves no tokens below it and skips no separators, a compound atomic one skips no
separators, and a non-atomic one ends both. -/
inductive RuleKind where
  | normal
  | silent
  | atomic
  | compoundAtomic
  | nonAtomic
deriving DecidableEq, Repr

structure Rule where
  name : Octets
  kind : RuleKind
  body : Expr
deriving DecidableEq

/-- The rules that are matched between the parts of sequences and repetitions. -/
def Rule.IsSeparator (r : Rule) : Prop := r.name = whitespaceName ∨ r.name = commentName

instance (r : Rule) : Decidable r.IsSeparator := inferInstanceAs (Decidable (_ ∨ _))

inductive GrammarError where
  | emptyName
  | reserved (name : Octets)
  | duplicate (name : Octets)
deriving DecidableEq, Repr

def GrammarError.message : GrammarError → Octets
  | .emptyName => ascii "rule name is empty"
  | .reserved name => ascii "rule name " ++ name ++ ascii " is reserved"
  | .duplicate name => untilZero (ascii "duplicate rule " ++ name)

/-- Names with the positions of their rules. -/
abbrev NameIndex := List (Octets × Nat)

/-- Rules in a row, and what is known of their names from the time the table was built. -/
structure RuleTable where
  rules : List Rule
  index : NameIndex
  hasWhitespace : Bool
  hasComment : Bool

namespace RuleTable

/-- Puts some rules into the index of those before them. The first one stands at position `i`. -/
def indexFrom (index : NameIndex) (i : Nat) : List Rule → Except GrammarError NameIndex
  | [] => .ok index
  | r :: rest =>
      if r.name = [] then .error .emptyName
      else if (Builtin.ofName? r.name).isSome then .error (.reserved r.name)
      else if (index.lookup r.name).isSome then .error (.duplicate r.name)
      else indexFrom ((r.name, i) :: index) (i + 1) rest

def ofRules (rules : List Rule) : Except GrammarError RuleTable :=
  (indexFrom [] 0 rules).map fun index =>
    ⟨rules, index, (index.lookup whitespaceName).isSome, (index.lookup commentName).isSome⟩

def find? (t : RuleTable) (name : Octets) : Option Rule := (t.index.lookup name).bind fun i => t.rules[i]?

theorem lookup_cons (name name' : Octets) (i : Nat) (index : NameIndex) :
    List.lookup name ((name', i) :: index) = if name = name' then some i else index.lookup name := by
  rw [List.lookup_cons]
  by_cases h : name = name'
  · rw [beq_iff_eq.mpr h, if_pos h]
  · rw [beq_eq_false_iff_ne.mpr h, if_neg h]

theorem of_indexFrom_cons {index index' : NameIndex} {i : Nat} {r : Rule} {rest : List Rule}
    (h : indexFrom index i (r :: rest) = .ok index') :
    r.name ≠ [] ∧ Builtin.ofName? r.name = none ∧ index.lookup r.name = none ∧
      indexFrom ((r.name, i) :: index) (i + 1) rest = .ok index' := by
  rw [indexFrom] at h
  split at h
  · cases h
  · split at h
    · cases h
    · split at h
      · cases h
      · rename_i hne hfree hnew
        exact ⟨hne, Option.not_isSome_iff_eq_none.mp hfree, Option.not_isSome_iff_eq_none.mp hnew, h⟩

theorem names_of_indexFrom {index index' : NameIndex} {i : Nat} {rules : List Rule}
    (h : indexFrom index i rules = .ok index') :
    (∀ r ∈ rules, r.name ≠ [] ∧ Builtin.ofName? r.name = none ∧ index.lookup r.name = none) ∧
      (rules.map Rule.name).Nodup := by
  induction rules generalizing index i with
  | nil => exact ⟨by simp, List.nodup_nil⟩
  | cons r rest ih =>
      obtain ⟨hne, hfree, hnew, h⟩ := of_indexFrom_cons h
      obtain ⟨hrest, hnodup⟩ := ih h
      have hother : ∀ s ∈ rest, s.name ≠ r.name ∧ index.lookup s.name = none := fun s hs => by
        have hl := (hrest s hs).2.2
        rw [lookup_cons] at hl
        split at hl
        next => cases hl
        next hn => exact ⟨hn, hl⟩
      refine ⟨fun s hs => ?_, ?_⟩
      · rcases List.mem_cons.mp hs with rfl | hs
        · exact ⟨hne, hfree, hnew⟩
        · exact ⟨(hrest s hs).1, (hrest s hs).2.1, (hother s hs).2⟩
      · rw [List.map_cons, List.nodup_cons]
        refine ⟨fun hm => ?_, hnodup⟩
        obtain ⟨s, hs, he⟩ := List.mem_map.mp hm
        exact (hother s hs).1 he

theorem ofRules_eq_ok {rules : List Rule} {t : RuleTable} (h : ofRules rules = .ok t) : ∃ index,
    indexFrom [] 0 rules = .ok index ∧
      t = ⟨rules, index, (index.lookup whitespaceName).isSome, (index.lookup commentName).isSome⟩ := by
  unfold ofRules at h
  cases hi : indexFrom [] 0 rules with
  | error e =>
      rw [hi] at h
      cases h
  | ok index =>
      rw [hi] at h
      cases h
      exact ⟨index, rfl, rfl⟩

theorem names_of_ofRules {rules : List Rule} {t : RuleTable} (h : ofRules rules = .ok t) :
    (∀ r ∈ t.rules, r.name ≠ [] ∧ Builtin.ofName? r.name = none) ∧ (t.rules.map Rule.name).Nodup := by
  obtain ⟨index, hi, rfl⟩ := ofRules_eq_ok h
  obtain ⟨hnames, hnodup⟩ := names_of_indexFrom hi
  exact ⟨fun r hr => ⟨(hnames r hr).1, (hnames r hr).2.1⟩, hnodup⟩

end RuleTable

structure Grammar where
  rules : List Rule
  names_ne_nil : ∀ r ∈ rules, r.name ≠ []
  names_free : ∀ r ∈ rules, Builtin.ofName? r.name = none
  names_nodup : (rules.map Rule.name).Nodup

namespace Grammar

def ofRules (rules : List Rule) : Except GrammarError Grammar :=
  match h : RuleTable.ofRules rules with
  | .error e => .error e
  | .ok t =>
      have hn := RuleTable.names_of_ofRules h
      .ok ⟨t.rules, fun r hr => (hn.1 r hr).1, fun r hr => (hn.1 r hr).2, hn.2⟩

def find? (g : Grammar) (name : Octets) : Option Rule := g.rules.find? fun r => r.name = name

theorem find?_eq_some {g : Grammar} {name : Octets} {r : Rule} (h : g.find? name = some r) :
    r ∈ g.rules ∧ r.name = name :=
  ⟨List.mem_of_find?_eq_some h, of_decide_eq_true (List.find?_some (p := fun r : Rule => r.name = name) h)⟩

theorem find?_of_mem {g : Grammar} {r : Rule} (h : r ∈ g.rules) : g.find? r.name = some r := by
  have hn := g.names_nodup
  unfold find?
  generalize g.rules = rules at h hn
  induction rules with
  | nil => cases h
  | cons s rest ih =>
      rw [List.map_cons, List.nodup_cons] at hn
      rcases List.mem_cons.mp h with rfl | hr
      · exact List.find?_cons_of_pos (decide_eq_true rfl)
      · have hne : s.name ≠ r.name := fun he => hn.1 (he ▸ List.mem_map_of_mem hr)
        rw [List.find?_cons_of_neg (by simpa using hne)]
        exact ih hr hn.2

theorem eq_of_name_eq {g : Grammar} {r r' : Rule} (h : r ∈ g.rules) (h' : r' ∈ g.rules) (he : r.name = r'.name) :
    r = r' := by
  have hf := find?_of_mem h
  rw [he, find?_of_mem h'] at hf
  exact (Option.some.inj hf).symm

def hasWhitespace (g : Grammar) : Bool := (g.find? whitespaceName).isSome

def hasComment (g : Grammar) : Bool := (g.find? commentName).isSome

end Grammar

end Peg
