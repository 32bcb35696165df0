import Peg.Calc.Command
import Peg.Proofs.Calc.Completeness
import Peg.Proofs.LeftRecursion
import Peg.Proofs.TokenQueue

/-! Expressions have the value that they are written for, and accepted statements can be evaluated. -/

namespace Peg.Calc

/-- The rules, each behind those that it may begin with. -/
def ranking : List Octets :=
  [whitespaceName, ascii "quit", ascii "number", ascii "ident", ascii "add_op", ascii "mul_op", ascii "eol",
    ascii "factor", ascii "term", ascii "expr", ascii "assignment", ascii "statement"]

theorem descends : grammar.Descends ranking.idxOf := by decide

variable {text : Octets} {tokens : Array Token} {q : Nat} {c : List Span} {f : Forest}

theorem accepted_of_means (h : parser.Means (ascii "statement") text (.ok q c f)) :
    ∃ tokens, parser.parse (ascii "statement") text = .ok (.accepted tokens) ∧
      (Pairs.ofTokens tokens).forest = f := by
  obtain ⟨a, ha, ht⟩ := parser.parse_tells descends rfl (ascii "statement") text
  generalize parser.parse (ascii "statement") text = v at ht ⊢
  cases ha.det h
  cases ht with
  | ok hf => exact ⟨_, rfl, Pairs.forest_ofTokens hf⟩

theorem means_of_accepted (h : parser.parse (ascii "statement") text = .ok (.accepted tokens)) :
    ∃ q c, parser.Means (ascii "statement") text (.ok q c (Pairs.ofTokens tokens).forest) := by
  obtain ⟨a, ha, ht⟩ := parser.parse_tells descends rfl (ascii "statement") text
  rw [h] at ht
  cases ht with
  | ok hf =>
      rw [Pairs.forest_ofTokens hf]
      exact ⟨_, _, ha⟩

/-- However an expression is written on a line, the line is accepted and its first pair has the value of the
expression. Whatever is accepted is a statement, and answering it never runs out of pairs or letters. -/
theorem parse_evaluates :
    (∀ t line, WritesLine line t → ∃ tokens span inner next,
      parser.parse (ascii "statement") (Utf8.ofChars line) = .ok (.accepted tokens) ∧
      (Pairs.ofTokens tokens).forest = .cons (ascii "expr") span inner next ∧
      ∀ {α : Type} (A : Arithmetic α) (vars : Variables α),
        let x := Subject.ofOctets (Utf8.ofChars line)
        expr A x vars inner = t.value A vars ∧
          execute A x vars (Pairs.ofTokens tokens).forest = (Statement.value t).reply A vars) ∧
    ∀ text tokens, parser.parse (ascii "statement") text = .ok (.accepted tokens) →
      let x := Subject.ofOctets text
      let f := (Pairs.ofTokens tokens).forest
      ∃ st : Statement, st.Heads x f ∧ ∀ {α : Type} (A : Arithmetic α) (vars : Variables α),
        execute A x vars f = st.reply A vars ∧ execute A x vars f ≠ .error .malformed := by
  constructor
  · intro t line h
    obtain ⟨q, span, inner, next, hinner, he⟩ := eval_statement h (Subject.Holds.ofChars line)
    obtain ⟨tokens, htokens, hf⟩ := accepted_of_means he
    refine ⟨tokens, span, inner, next, htokens, hf, fun A vars => ⟨hinner.expr_eq, ?_⟩⟩
    rw [hf]
    exact (Statement.Heads.value span next hinner).execute_eq
  · intro text tokens h
    obtain ⟨q, c, hm⟩ := means_of_accepted h
    obtain ⟨st, hst⟩ := heads_statement hm
    refine ⟨st, hst, fun A vars => ⟨hst.execute_eq, ?_⟩⟩
    rw [hst.execute_eq]
    exact st.reply_ne_malformed A vars

theorem parse_evaluates_differences :
    let line := [' ', '8', '-', '4', ' ', '-', '(', 'X', '*', '2', ')', '\t', '\r', '\n']
    let A : Arithmetic Int := {
      read? := fun s => some (s.foldl (fun n d => 10 * n + (d.toNat - 0x30)) 0)
      write := fun _ => []
      zero := 0
      add := (· + ·)
      sub := (· - ·)
      mul := (· * ·)
      div := (· / ·) }
    let t : Tree := .binary .sub (.binary .sub (.number (ascii "8")) (.number (ascii "4")))
      (.binary .mul (.letter 23) (.number (ascii "2")))
    WritesLine line t ∧ ∃ tokens, parser.parse (ascii "statement") (Utf8.ofChars line) = .ok (.accepted tokens) ∧
      execute A (Subject.ofOctets (Utf8.ofChars line)) (fun i => i) (Pairs.ofTokens tokens).forest =
        .ok (.value (8 - 4 - 23 * 2) fun i => i) ∧
      ∃ st : Statement, st.Heads (Subject.ofOctets (Utf8.ofChars line)) (Pairs.ofTokens tokens).forest := by
  intro line A t
  have hdigit : ∀ c : Char, 0x30 ≤ c.toNat ∧ c.toNat ≤ 0x39 →
      Writes (.operand .product) [c] (.number (Utf8.ofChars [c])) := fun c hc =>
    .number ⟨[c], ⟨[c], ⟨c, rfl, hc⟩, [], Language.nil_mem_kstar _, rfl⟩, [], .inl rfl, rfl⟩
  have hdifference : Writes (.chain .sum) (['8'] ++ [] ++ ['-'] ++ [] ++ ['4']) _ :=
    .next .sub nofun nofun ((hdigit '8' (by decide)).tight _) ((hdigit '4' (by decide)).tight _)
  have hproduct : Writes (.chain .product) (['X'] ++ [] ++ ['*'] ++ [] ++ ['2']) _ :=
    .next .mul nofun nofun (.first (.letter (i := 23) (by decide))) (hdigit '2' (by decide))
  have hparens : Writes (.operand .product) (['('] ++ [] ++ ['X', '*', '2'] ++ [] ++ [')']) _ :=
    .parens nofun nofun hproduct.loose
  have hexpr : Writes (.chain .sum) (['8', '-', '4'] ++ [' '] ++ ['-'] ++ [] ++ ['(', 'X', '*', '2', ')']) t :=
    .next .sub (by decide) nofun hdifference (hparens.tight _)
  have hline : WritesLine line t := ⟨[' '], _, ['\t'], ['\r', '\n'], rfl, by decide, hexpr, by decide, by decide⟩
  obtain ⟨tokens, _, _, _, htokens, -, hvalue⟩ := parse_evaluates.1 t line hline
  obtain ⟨st, hst, -⟩ := parse_evaluates.2 _ tokens htokens
  exact ⟨hline, tokens, htokens, (hvalue A fun i => i).2, st, hst⟩

end Peg.Calc
