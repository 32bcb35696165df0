import Peg.Calc.Grammar
import Peg.Proofs.Calc.Trees
import Peg.Proofs.Decoding
import Peg.Proofs.Inversion

/-! Whatever the grammar matches shows a statement. -/

namespace Peg.Calc

open Peg.Expr

variable {x : Subject} {m : Atomicity} {p q : Nat} {c c' : List Span} {f : Forest}

section Lexemes

theorem forest_whitespace (h : Eval grammar x m (.call whitespaceName) p c (.ok q c' f)) : f = .nil := by
  obtain ⟨inner, hf, h⟩ := h.of_call rfl rfl
  have hinner : inner = .nil := by rcases h.of_choice with ⟨h, -⟩ | ⟨-, h⟩ <;> exact h.of_literal.2
  rw [hf, hinner]
  rfl

theorem forest_skip (h : Eval grammar x m .skip p c (.ok q c' f)) (hp : p ≤ x.size) : f = .nil := by
  cases h with
  | skip_nothing => rfl
  | skip h =>
      refine Eval.forest_of_many (P := (· = .nil)) rfl ?_ (fun _ _ => forest_whitespace) h hp
      rintro _ _ rfl rfl
      rfl

theorem Letter.ofRune?_fold {n : Nat} (h : (0x61 ≤ n ∧ n ≤ 0x7A) ∨ (0x41 ≤ n ∧ n ≤ 0x5A)) :
    ∃ i, ofRune? (Utf8.fold n) = some i := by
  rcases h with h | h
  · have hf : Utf8.fold n = n := by
      simp only [Utf8.fold]
      grind
    exact ⟨_, by rw [hf, ofRune?, dif_pos h]⟩
  · have hf : Utf8.fold n = n + 0x20 := if_pos h
    exact ⟨_, by rw [hf, ofRune?, dif_pos (by omega)]⟩

/-- A range of letters matches a single octet. -/
theorem ofText?_of_range {r : RuneRange} (hh : r.high < 0x80)
    (hr : ∀ n : Nat, r.low ≤ n ∧ n ≤ r.high → (0x61 ≤ n ∧ n ≤ 0x7A) ∨ (0x41 ≤ n ∧ n ≤ 0x5A))
    (h : Eval grammar x m (.expr (.range r)) p c (.ok q c' f)) : ∃ i, Letter.ofText? (x.slice ⟨p, q⟩) = some i := by
  have ht := h.of_range.1
  rw [Subject.runeIn] at ht
  split at ht
  · cases ht
  · rename_i o rest ho
    dsimp only at ht
    split at ht
    · rename_i hrune
      have hletter := hr _ hrune
      have hd := Utf8.decode_of_rune_lt (Nat.lt_of_le_of_lt hrune.2 hh)
      rw [hd] at ht hletter
      cases ht
      rw [Subject.slice_add, ho]
      exact Letter.ofRune?_fold hletter
    · cases ht

theorem shows_ident (h : Eval grammar x .nonAtomic (.call (ascii "ident")) p c (.ok q c' f)) :
    ∃ i inner, Letter.ofText? (x.slice ⟨p, q⟩) = some i ∧ f = .node (ascii "ident") ⟨p, q⟩ inner := by
  obtain ⟨inner, hf, h⟩ := h.of_call rfl rfl
  have hi : ∃ i, Letter.ofText? (x.slice ⟨p, q⟩) = some i := by
    rcases h.of_choice with ⟨h, -⟩ | ⟨-, h⟩
    · exact ofText?_of_range (by decide) (fun _ => .inl) h
    · exact ofText?_of_range (by decide) (fun _ => .inr) h
  obtain ⟨i, hi⟩ := hi
  exact ⟨i, inner, hi, hf⟩

theorem shows_operator (l : Level) (h : Eval grammar x .nonAtomic (.call l.operatorName) p c (.ok q c' f)) :
    ∃ op : Operator, op.level = l ∧ x.slice ⟨p, q⟩ = op.text ∧
      ∃ inner, f = .node op.level.operatorName ⟨p, q⟩ inner := by
  cases l with
  | sum =>
      obtain ⟨inner, hf, h⟩ := h.of_call rfl rfl
      rcases h.of_choice with ⟨h, -⟩ | ⟨-, h⟩
      · exact ⟨.add, rfl, x.slice_of_text h.of_literal.1, inner, hf⟩
      · exact ⟨.sub, rfl, x.slice_of_text h.of_literal.1, inner, hf⟩
  | product =>
      obtain ⟨inner, hf, h⟩ := h.of_call rfl rfl
      rcases h.of_choice with ⟨h, -⟩ | ⟨-, h⟩
      · exact ⟨.mul, rfl, x.slice_of_text h.of_literal.1, inner, hf⟩
      · exact ⟨.div, rfl, x.slice_of_text h.of_literal.1, inner, hf⟩

end Lexemes

section Expressions

def Level.operandName : Level → Octets
  | sum => ascii "term"
  | product => ascii "factor"

def Level.round (l : Level) : Expr := seq (ref l.operatorName) (ref l.operandName)

/-- Operands of a level with its operators in between. -/
def Level.body (l : Level) : Expr := seq (ref l.operandName) (zeroOrMore l.round)

/-- Behind a chain of the level such a forest makes a chain again. -/
def Prolongs (x : Subject) (l : Level) (f : Forest) : Prop :=
  ∀ g a, Shows x (.chain l) g a → ∃ t, Shows x (.chain l) (g ++ f) t

variable {l : Level}

theorem Prolongs.nil : Prolongs x l .nil := by
  intro g a hg
  rw [Forest.append_nil]
  exact ⟨a, hg⟩

theorem Prolongs.append {f f' : Forest} (h : Prolongs x l f) (h' : Prolongs x l f') : Prolongs x l (f ++ f') := by
  intro g a hg
  obtain ⟨t, ht⟩ := h g a hg
  rw [← Forest.append_assoc]
  exact h' _ t ht

variable (hoperand : ∀ {p' c q c' f}, p ≤ p' → p' ≤ x.size →
  Eval grammar x .nonAtomic (.call l.operandName) p' c (.ok q c' f) → ∃ t, Shows x (.operand l) f t)

include hoperand

theorem prolongs_round (h : Eval grammar x .nonAtomic (.expr l.round) p c (.ok q c' f)) (hp : p ≤ x.size) :
    Prolongs x l f := by
  intro g a hg
  obtain ⟨r, _, f₁, r', _, _, f₂, rfl, hop, hskip, hnext⟩ := h.of_seq
  have hr := hop.spans.1
  have hr' := hskip.spans.1
  obtain rfl := forest_skip hskip (hr.2 hp)
  obtain ⟨op, rfl, htext, inner, rfl⟩ := shows_operator l hop.of_ref
  obtain ⟨b, hb⟩ := hoperand (Nat.le_trans hr.1 hr'.1) (hr'.2 (hr.2 hp)) hnext.of_ref
  exact ⟨.binary op a b, .next op ⟨p, r⟩ inner hg htext hb⟩

theorem shows_chain (h : Eval grammar x .nonAtomic (.expr l.body) p c (.ok q c' f)) (hp : p ≤ x.size) :
    ∃ t, Shows x (.chain l) f t := by
  obtain ⟨r, _, f₁, r', _, _, f₂, rfl, hfirst, hskip, hrest⟩ := h.of_seq
  have hr := hfirst.spans.1
  have hr' := hskip.spans.1
  obtain rfl := forest_skip hskip (hr.2 hp)
  obtain ⟨t, ht⟩ := hoperand (Nat.le_refl p) hp hfirst.of_ref
  have hrounds : Prolongs x l f₂ := by
    refine Eval.forest_of_zeroOrMore .nil .append ?_ ?_ hrest (hr'.2 (hr.2 hp))
    · intro p' c q c' f hp' hs
      rw [forest_skip hs hp']
      exact .nil
    · intro p' c q c' f hle hp' hround
      have hbehind := Nat.le_trans hr.1 (Nat.le_trans hr'.1 hle)
      exact prolongs_round (fun hle' => hoperand (Nat.le_trans hbehind hle')) hround hp'
  exact hrounds f₁ t (.first ht)

omit hoperand

variable (hexpr : ∀ {p' c q c' f}, p < p' → p' ≤ x.size → Eval grammar x .nonAtomic (.call (ascii "expr")) p' c
  (.ok q c' f) → ∃ inner t, f = .node (ascii "expr") ⟨p', q⟩ inner ∧ Shows x (.chain .sum) inner t)

include hexpr

/-- The expressions inside a factor are all behind a parenthesis. -/
theorem shows_factor (h : Eval grammar x .nonAtomic (.call (ascii "factor")) p c (.ok q c' f)) (hp : p ≤ x.size) :
    ∃ t, Shows x (.operand .product) f t := by
  obtain ⟨inner, hf, hbody⟩ := h.of_call rfl rfl
  cases hf
  rcases hbody.of_choice with ⟨hnumber, -⟩ | ⟨-, hbody⟩
  · obtain ⟨inner, hf, -⟩ := hnumber.of_ref.of_call rfl rfl
    cases hf
    exact ⟨_, .number _ _⟩
  rcases hbody.of_choice with ⟨hletter, -⟩ | ⟨-, hparens⟩
  · obtain ⟨r, _, f₁, r', _, _, f₂, rfl, hident, hskip, hlook⟩ := hletter.of_seq
    obtain rfl := forest_skip hskip (hident.spans.1.2 hp)
    obtain rfl := hlook.of_look_negative.2.1
    obtain ⟨i, inner, hi, rfl⟩ := shows_ident hident.of_ref
    exact ⟨_, .letter _ _ hi⟩
  · obtain ⟨r, _, f₁, r', _, _, f₂, rfl, hopen, hskip, hrest⟩ := hparens.of_seq
    obtain ⟨s, _, f₃, s', _, _, f₄, rfl, hinner, hskip', hclose⟩ := hrest.of_seq
    have hr : r = p + 1 := (x.text_eq_matched.mp hopen.of_literal.1).2
    have hin := hopen.spans.1.2 hp
    have hr' := hskip.spans.1
    obtain rfl := hopen.of_literal.2
    obtain rfl := forest_skip hskip hin
    obtain rfl := forest_skip hskip' (hinner.spans.1.2 (hr'.2 hin))
    obtain rfl := hclose.of_literal.2
    have hlt : p < r' := by
      have hle := hr'.1
      omega
    obtain ⟨inner, t, rfl, ht⟩ := hexpr hlt (hr'.2 hin) hinner.of_ref
    exact ⟨t, .parens _ ht⟩

theorem shows_term (h : Eval grammar x .nonAtomic (.call (ascii "term")) p c (.ok q c' f)) (hp : p ≤ x.size) :
    ∃ t, Shows x (.operand .sum) f t := by
  obtain ⟨inner, hf, hbody⟩ := h.of_call rfl rfl
  cases hf
  have hfactor : ∀ {p' c q c' f}, p ≤ p' → p' ≤ x.size →
      Eval grammar x .nonAtomic (.call (ascii "factor")) p' c (.ok q c' f) → ∃ t, Shows x (.operand .product) f t :=
    fun hle hp' h => shows_factor (fun hlt => hexpr (Nat.lt_of_le_of_lt hle hlt)) h hp'
  obtain ⟨t, ht⟩ := shows_chain (l := .product) hfactor hbody hp
  exact ⟨t, .term _ ht⟩

omit hexpr

/-- By induction on what is left of the subject, for parentheses take some of it. -/
theorem shows_expr (h : Eval grammar x .nonAtomic (.call (ascii "expr")) p c (.ok q c' f)) (hp : p ≤ x.size) :
    ∃ inner t, f = .node (ascii "expr") ⟨p, q⟩ inner ∧ Shows x (.chain .sum) inner t := by
  induction hn : x.size - p using Nat.strongRecOn generalizing p c q c' f with
  | ind n ih =>
      subst hn
      have hterm : ∀ {p' c q c' f}, p ≤ p' → p' ≤ x.size →
          Eval grammar x .nonAtomic (.call (ascii "term")) p' c (.ok q c' f) → ∃ t, Shows x (.operand .sum) f t :=
        fun hle hp' h => shows_term (fun hlt hp' h => ih _ (by omega) h hp' rfl) h hp'
      obtain ⟨inner, hf, hbody⟩ := h.of_call rfl rfl
      obtain ⟨t, ht⟩ := shows_chain (l := .sum) hterm hbody hp
      exact ⟨inner, t, hf, ht⟩

end Expressions

section Statements

theorem heads_quit (h : Eval grammar x .nonAtomic (.call (ascii "quit")) p c (.ok q c' f)) (next : Forest) :
    Statement.quit.Heads x (f ++ next) := by
  obtain ⟨inner, rfl, -⟩ := h.of_call rfl rfl
  exact .quit _ _ _

theorem heads_assignment (h : Eval grammar x .nonAtomic (.call (ascii "assignment")) p c (.ok q c' f))
    (hp : p ≤ x.size) (next : Forest) : ∃ i t, (Statement.assign i t).Heads x (f ++ next) := by
  obtain ⟨inner, hf, hbody⟩ := h.of_call rfl rfl
  obtain ⟨r, _, f₁, r', _, _, f₂, rfl, hident, hskip, hrest⟩ := hbody.of_seq
  obtain ⟨s, _, f₃, s', _, _, f₄, rfl, hequals, hskip', hexpr⟩ := hrest.of_seq
  have hr := hident.spans.1.2 hp
  have hr' := hskip.spans.1.2 hr
  have hs := hequals.spans.1.2 hr'
  obtain rfl := forest_skip hskip hr
  obtain rfl := hequals.of_literal.2
  obtain rfl := forest_skip hskip' hs
  obtain ⟨i, inner, hi, rfl⟩ := shows_ident hident.of_ref
  obtain ⟨g, t, rfl, ht⟩ := shows_expr hexpr.of_ref (hskip'.spans.1.2 hs)
  rw [hf]
  exact ⟨i, t, .assign _ _ _ _ _ hi ht⟩

/-- An accepted text is a statement. -/
theorem heads_statement (h : Eval grammar x .nonAtomic (.call (ascii "statement")) 0 c (.ok q c' f)) :
    ∃ st : Statement, st.Heads x f := by
  obtain ⟨inner, hf, hbody⟩ := h.of_call rfl rfl
  obtain ⟨r, _, f₁, r', _, _, f₂, rfl, hstart, hskip, hrest⟩ := hbody.of_seq
  obtain ⟨s, _, f₃, _, _, _, f₄, rfl, hchoice, -, -⟩ := hrest.of_seq
  have hr := hstart.spans.1.2 (Nat.zero_le _)
  have hr' := hskip.spans.1.2 hr
  obtain rfl := hstart.of_ref.of_startOfInput
  obtain rfl := forest_skip hskip hr
  change f = f₃ ++ _ at hf
  rw [hf]
  rcases hchoice.of_choice with ⟨hquit, -⟩ | ⟨-, hchoice⟩
  · exact ⟨.quit, heads_quit hquit.of_ref _⟩
  rcases hchoice.of_choice with ⟨hassign, -⟩ | ⟨-, hexpr⟩
  · obtain ⟨i, t, ht⟩ := heads_assignment hassign.of_ref hr' _
    exact ⟨.assign i t, ht⟩
  · obtain ⟨g, t, rfl, ht⟩ := shows_expr hexpr.of_ref hr'
    exact ⟨.value t, .value _ _ ht⟩

end Statements

end Peg.Calc
