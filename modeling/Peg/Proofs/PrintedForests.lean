import Peg.Proofs.Phrases
import Peg.Proofs.Visibility

namespace Peg

/-- A number ends where no digit follows. -/
theorem decimal_append_inj {n m : Nat} {u v : Octets} (hu : ∀ c ∈ u.head?, ¬Decimal.IsDigit c)
    (hv : ∀ c ∈ v.head?, ¬Decimal.IsDigit c) (he : decimal n ++ u = decimal m ++ v) : n = m ∧ u = v := by
  obtain ⟨hn, huv⟩ := append_inj_of_forall (fun _ => isDigit_of_mem_decimal) (fun _ => isDigit_of_mem_decimal) hu hv he
  exact ⟨decimal_injective hn, huv⟩

namespace Forest

variable {rule : Octets} {span : Span} {f g inner next : Forest} {u v : Octets}

/-- The rules at every depth have identifiers for names. -/
def Named : Forest → Prop
  | nil => True
  | cons rule _ inner next => IsIdentifier rule ∧ inner.Named ∧ next.Named

theorem Shown.named {g : Grammar} {m : Atomicity} (hg : ∀ r ∈ g.rules, IsIdentifier r.name) (h : f.Shown g m) :
    f.Named := by
  induction h with
  | nil => trivial
  | endOfInput _ _ _ ih => exact ⟨by decide, trivial, ih⟩
  | rule _ hr _ _ _ ihi ihn => exact ⟨hg _ hr, ihi, ihn⟩

/-- A printed forest behind its opening bracket. -/
def opened (f : Forest) : Octets := (ascii ", ").intercalate f.treeTexts ++ ascii "]"

/-- What is printed behind a tree: those next to it, or else the closing bracket. -/
def behind : Forest → Octets
  | nil => ascii "]"
  | cons rule span inner next => ascii ", " ++ (cons rule span inner next).opened

/-- What is printed behind the span of a rule: the rules inside it, if there are any. -/
def nested : Forest → Octets
  | nil => []
  | cons rule span inner next => ascii " [" ++ (cons rule span inner next).opened

theorem text_eq_opened (f : Forest) : f.text = ascii "[" ++ f.opened := List.append_assoc _ _ _

theorem treeText_eq : treeText rule span inner.treeTexts =
    rule ++ (ascii "@" ++ (decimal span.start ++ (ascii ".." ++ (decimal span.stop ++ inner.nested)))) := by
  rw [treeText, List.append_assoc, List.append_assoc, List.append_assoc, List.append_assoc]
  cases inner with
  | nil => rfl
  | cons =>
      rw [nested, opened, enclosed]
      simp only [List.append_assoc]
      rfl

theorem opened_cons : (cons rule span inner next).opened =
    rule ++ (ascii "@" ++ (decimal span.start ++ (ascii ".." ++ (decimal span.stop ++ (inner.nested ++ next.behind))))) := by
  cases next with
  | nil =>
      rw [opened, treeTexts, treeTexts, List.intercalate_singleton, treeText_eq]
      simp only [List.append_assoc]
      rfl
  | cons =>
      rw [opened, treeTexts, treeTexts, List.intercalate_cons_cons, treeText_eq, behind, opened, treeTexts]
      simp only [List.append_assoc]

/-- No name begins with a bracket, so that no tree is taken for the end of a forest. -/
theorem bracket_ne_opened (h : (cons rule span inner next).Named) :
    ascii "]" ++ u ≠ (cons rule span inner next).opened ++ v := by
  intro he
  rw [opened_cons] at he
  cases rule with
  | nil => exact h.1
  | cons c rule =>
      have hc : c = 0x5D := (List.cons.inj he).1.symm
      exact absurd (hc ▸ h.1.1) (by decide)

theorem head?_behind (f : Forest) (u : Octets) : ∀ c ∈ (f.behind ++ u).head?, c = 0x5D ∨ c = 0x2C := by
  intro c hc
  cases f with
  | nil =>
      cases hc
      exact .inl rfl
  | cons =>
      cases hc
      exact .inr rfl

theorem not_isDigit_nested (f g : Forest) (u : Octets) :
    ∀ c ∈ (f.nested ++ (g.behind ++ u)).head?, ¬Decimal.IsDigit c := by
  intro c hc
  cases f with
  | nil => rcases head?_behind g u c hc with rfl | rfl <;> decide
  | cons =>
      cases hc
      decide

/-- Where this forest is printed it ends at its closing bracket, and no other one is printed alike. -/
def ReadBack (f : Forest) : Prop :=
  ∀ ⦃g : Forest⦄ ⦃u v : Octets⦄, g.Named → f.opened ++ u = g.opened ++ v → f = g ∧ u = v

/-- A comma is no bracket, so it is seen whether there is a tree next to another. -/
theorem ReadBack.behind (h : f.ReadBack) (hg : g.Named) (he : f.behind ++ u = g.behind ++ v) : f = g ∧ u = v := by
  cases f with
  | nil =>
      cases g with
      | nil => exact ⟨rfl, List.append_cancel_left he⟩
      | cons => exact absurd (List.cons.inj he).1 (by decide)
  | cons =>
      cases g with
      | nil => exact absurd (List.cons.inj he).1 (by decide)
      | cons =>
          rw [Forest.behind, Forest.behind, List.append_assoc, List.append_assoc] at he
          exact h hg (List.append_cancel_left he)

/-- A blank follows a span if there are rules inside it, and only then. -/
theorem ReadBack.nested (h : f.ReadBack) (hg : g.Named) {next next' : Forest}
    (he : f.nested ++ (next.behind ++ u) = g.nested ++ (next'.behind ++ v)) :
    f = g ∧ next.behind ++ u = next'.behind ++ v := by
  have hblank : ∀ {next : Forest} {u w : Octets}, next.behind ++ u ≠ ascii " [" ++ w := by
    intro next u w h
    rcases head?_behind next u 0x20 (by rw [h]; rfl) with hc | hc <;> exact absurd hc (by decide)
  cases f with
  | nil =>
      cases g with
      | nil => exact ⟨rfl, he⟩
      | cons =>
          rw [Forest.nested, Forest.nested, List.append_assoc] at he
          exact absurd he hblank
  | cons =>
      cases g with
      | nil =>
          rw [Forest.nested, Forest.nested, List.append_assoc] at he
          exact absurd he.symm hblank
      | cons =>
          rw [Forest.nested, Forest.nested, List.append_assoc, List.append_assoc] at he
          exact h hg (List.append_cancel_left he)

theorem readBack_of_named (hf : f.Named) : f.ReadBack := by
  induction f with
  | nil =>
      intro g u v hg he
      cases g with
      | nil => exact ⟨rfl, List.append_cancel_left he⟩
      | cons => exact absurd he (bracket_ne_opened hg)
  | cons rule span inner next ihi ihn =>
      intro g u v hg he
      cases g with
      | nil => exact absurd he.symm (bracket_ne_opened hf)
      | cons rule' span' inner' next' =>
          obtain ⟨hr, hi, hn⟩ := hf
          obtain ⟨hr', hi', hn'⟩ := hg
          rw [opened_cons, opened_cons] at he
          simp only [List.append_assoc] at he
          -- A name ends at the sign behind it, and a number where no digit follows.
          have hsign : ∀ w, ∀ c ∈ (ascii "@" ++ w).head?, ¬IsWord c := by
            rintro w c ⟨⟩
            decide
          have hdots : ∀ w, ∀ c ∈ (ascii ".." ++ w).head?, ¬Decimal.IsDigit c := by
            rintro w c ⟨⟩
            decide
          obtain ⟨rfl, hspans⟩ := append_inj_of_forall hr.isWord hr'.isWord (hsign _) (hsign _) he
          obtain ⟨hstart, hstops⟩ := decimal_append_inj (hdots _) (hdots _) (List.append_cancel_left hspans)
          obtain ⟨hstop, hbehind⟩ := decimal_append_inj (not_isDigit_nested _ _ _) (not_isDigit_nested _ _ _)
            (List.append_cancel_left hstops)
          have hspan : span = span' := by
            cases span
            cases span'
            cases hstart
            cases hstop
            rfl
          obtain ⟨rfl, hnext⟩ := (ihi hi).nested hi' hbehind
          obtain ⟨rfl, rfl⟩ := (ihn hn).behind hn' hnext
          rw [hspan]
          exact ⟨rfl, rfl⟩

theorem eq_of_text_eq (hf : f.Named) (hg : g.Named) (he : f.text = g.text) : f = g := by
  rw [text_eq_opened, text_eq_opened] at he
  have hopened : f.opened ++ [] = g.opened ++ [] := by rw [List.append_cancel_left he]
  exact (readBack_of_named hf hg hopened).1

end Forest

namespace Parser

theorem accepted_shown {p : Parser} {n : Nat} {start text : Octets} {tokens : Array Token}
    (h : p.parse? n start text = some (.ok (.accepted tokens))) :
    ∃ f : Forest, tokens.toList = f.tokens ∧ f.Shown p.grammar .nonAtomic := by
  rcases parse?_sound h with ⟨_, he⟩ | ⟨a, ha, ht⟩
  · cases he
  · cases ht with
    | @ok _ _ f _ hf => exact ⟨f, hf, ha.shown⟩

/-- What is printed for a match tells all of its pairs: their names, their spans, and which are inside which. It even
tells the token queue. -/
theorem forest_of_text_eq {p p' : Parser} (hp : ∀ r ∈ p.grammar.rules, IsIdentifier r.name)
    (hp' : ∀ r ∈ p'.grammar.rules, IsIdentifier r.name) {n n' : Nat} {start start' text text' : Octets}
    {tokens tokens' : Array Token} (h : p.parse? n start text = some (.ok (.accepted tokens)))
    (h' : p'.parse? n' start' text' = some (.ok (.accepted tokens')))
    (he : (Pairs.ofTokens tokens).text = (Pairs.ofTokens tokens').text) :
    (Pairs.ofTokens tokens).forest = (Pairs.ofTokens tokens').forest ∧ tokens = tokens' := by
  obtain ⟨f, hf, hshown⟩ := accepted_shown h
  obtain ⟨f', hf', hshown'⟩ := accepted_shown h'
  rw [Pairs.text, Pairs.text, Pairs.forest_ofTokens hf, Pairs.forest_ofTokens hf'] at he
  have hff := Forest.eq_of_text_eq (hshown.named hp) (hshown'.named hp') he
  subst hff
  refine ⟨?_, Array.toList_inj.mp (hf.trans hf'.symm)⟩
  rw [Pairs.forest_ofTokens hf, Pairs.forest_ofTokens hf']

/-- Two grammars that match different texts, and print a rule with two rules in it. -/
theorem forest_of_text_eq_sums :
    let name : Rule := .written "name" .atomic (.written "a")
    let sum : Rule := .written "sum" .normal (.seq (.rule "name") (.seq (.written "+") (.rule "name")))
    let sum' : Rule := .written "sum" .compoundAtomic (.seq (.rule "name") (.seq (.ref Builtin.any.name) (.rule "name")))
    let p : Parser := { grammar := ⟨[sum, name], by decide, by decide, by decide⟩ }
    let p' : Parser := { grammar := ⟨[name, sum'], by decide, by decide, by decide⟩ }
    let tokens : Array Token := #[⟨.start, ascii "sum", 5, 0⟩, ⟨.start, ascii "name", 2, 0⟩,
      ⟨.stop, ascii "name", 1, 1⟩, ⟨.start, ascii "name", 4, 2⟩, ⟨.stop, ascii "name", 3, 3⟩,
      ⟨.stop, ascii "sum", 0, 3⟩]
    let tokens' := (Forest.node (ascii "sum") ⟨0, 3⟩
      (.cons (ascii "name") ⟨0, 1⟩ .nil (.node (ascii "name") ⟨2, 3⟩ .nil))).tokens.toArray
    p.parse? 4 (ascii "sum") (ascii "a+a") = some (.ok (.accepted tokens)) ∧
      p'.parse? 4 (ascii "sum") (ascii "a-a") = some (.ok (.accepted tokens')) ∧
      (Pairs.ofTokens tokens).text = ascii "[sum@0..3 [name@0..1, name@2..3]]" ∧
      (Pairs.ofTokens tokens).forest = (Pairs.ofTokens tokens').forest ∧ tokens = tokens' :=
  have h := rfl
  have h' := rfl
  ⟨h, h', rfl, forest_of_text_eq (by decide) (by decide) h h' rfl⟩

end Parser

end Peg
