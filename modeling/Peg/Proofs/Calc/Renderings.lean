import Peg.Proofs.Calc.Trees
import Peg.Proofs.Digits

/-! How expressions are written. -/

namespace Peg.Calc

open Computability

def blanks : List Char := [' ', '\t']

def Gap (b : List Char) : Prop := ∀ c ∈ b, c ∈ blanks

instance (b : List Char) : Decidable (Gap b) := List.decidableBAll (· ∈ blanks) b

/-- Digits, with or without a fraction. Other than in JSON, zeros may lead. -/
def numeral : Language Char := Json.digit * Json.digit∗ * (1 + Json.frac)

/-- A letter is written small or large. -/
def Letter.chars (i : Letter) : List Char := [Char.ofNat (0x61 + i), Char.ofNat (0x41 + i)]

/-- The texts of the parts of an expression. Any expression is an operand everywhere if it is put in
parentheses. Without them the left operand may have operators of the same level, the right one may not. -/
inductive Writes : Role → List Char → Tree → Prop
  | number {s} (hs : s ∈ numeral) : Writes (.operand .product) s (.number (Utf8.ofChars s))
  | letter {i : Letter} {c} (hc : c ∈ i.chars) : Writes (.operand .product) [c] (.letter i)
  | parens {b b' s t} (hb : Gap b) (hb' : Gap b') (h : Writes (.chain .sum) s t) :
      Writes (.operand .product) (['('] ++ b ++ s ++ b' ++ [')']) t
  | term {s t} (h : Writes (.chain .product) s t) : Writes (.operand .sum) s t
  | first {l s t} (h : Writes (.operand l) s t) : Writes (.chain l) s t
  | next (op : Operator) {b b' s s' t t'} (hb : Gap b) (hb' : Gap b') (h : Writes (.chain op.level) s t)
      (h' : Writes (.operand op.level) s' t') :
      Writes (.chain op.level) (s ++ b ++ [op.char] ++ b' ++ s') (.binary op t t')

def endings : List (List Char) := [[], ['\n'], ['\r', '\n'], ['\r']]

/-- A line that asks for the value of an expression. -/
def WritesLine (line : List Char) (t : Tree) : Prop :=
  ∃ b s b' e, line = b ++ s ++ b' ++ e ∧ Gap b ∧ Writes (.chain .sum) s t ∧ Gap b' ∧ e ∈ endings

variable {s : List Char} {t : Tree} {role : Role}

section Parentheses

theorem Writes.loose (h : Writes role s t) : Writes (.chain .sum) s t := by
  have hproduct : ∀ {s t}, Writes (.chain .product) s t → Writes (.chain .sum) s t := fun h => .first (.term h)
  cases role with
  | operand l =>
      cases l with
      | sum => exact .first h
      | product => exact hproduct (.first h)
  | chain l =>
      cases l with
      | sum => exact h
      | product => exact hproduct h

theorem Writes.tight (h : Writes (.operand .product) s t) (role : Role) : Writes role s t := by
  cases role with
  | operand l =>
      cases l with
      | sum => exact .term (.first h)
      | product => exact h
  | chain l =>
      cases l with
      | sum => exact h.loose
      | product => exact .first h

theorem Writes.inParens (h : Writes role s t) : Writes (.operand .product) (['('] ++ s ++ [')']) t := by
  have hp : Writes (.operand .product) (['('] ++ [] ++ s ++ [] ++ [')']) t := .parens nofun nofun h.loose
  rwa [List.append_nil, List.append_nil] at hp

/-- Parentheses may be put around any part. -/
theorem Writes.enclosed (h : Writes role s t) : Writes role (['('] ++ s ++ [')']) t := h.inParens.tight role

/-- The numbers of a tree are numerals. -/
def Tree.IsWritable : Tree → Prop
  | number text => ∃ s ∈ numeral, text = Utf8.ofChars s
  | letter _ => True
  | binary _ a b => a.IsWritable ∧ b.IsWritable

theorem Tree.IsWritable.exists_writes (h : t.IsWritable) : ∃ s, Writes (.operand .product) s t := by
  induction t with
  | number text =>
      obtain ⟨s, hs, rfl⟩ := h
      exact ⟨s, .number hs⟩
  | letter i => exact ⟨_, .letter List.mem_cons_self⟩
  | binary op a b iha ihb =>
      obtain ⟨s, hs⟩ := iha h.1
      obtain ⟨s', hs'⟩ := ihb h.2
      have hop : Writes (.chain op.level) (s ++ [] ++ [op.char] ++ [] ++ s') (.binary op a b) :=
        .next op nofun nofun (hs.tight _) (hs'.tight _)
      exact ⟨_, hop.inParens⟩

end Parentheses

section Ends

variable {cs ds : List Char}

/-- Nothing, or a text that goes on with one of some characters behind a gap. -/
def Ends (cs s : List Char) : Prop := ∃ b s', s = b ++ s' ∧ Gap b ∧ OpensIn cs s'

theorem Ends.mono (h : Ends cs s) (hs : cs ⊆ ds) : Ends ds s := by
  obtain ⟨b, s', rfl, hb, hs'⟩ := h
  exact ⟨b, s', rfl, hb, hs'.mono hs⟩

theorem Ends.opensIn (h : Ends cs s) : OpensIn (blanks ++ cs) s := by
  obtain ⟨b, s', rfl, hb, hs'⟩ := h
  have hb : OpensIn blanks b := fun c hc => hb c (List.mem_of_mem_head? hc)
  exact hb.append hs'

def Level.operators : Level → List Char
  | sum => ['+', '-']
  | product => ['*', '/']

/-- What may come behind an expression. -/
def closers : List Char := [')', '\n', '\r']

/-- What may come behind an operand of a level. -/
def Level.stops : Level → List Char
  | sum => Level.sum.operators ++ closers
  | product => Level.product.operators ++ (Level.sum.operators ++ closers)

theorem Level.stops_subset (l : Level) : l.stops ⊆ Level.product.stops := by cases l <;> decide

theorem Operator.char_mem_stops (op : Operator) : op.char ∈ op.level.stops := by cases op <;> decide

/-- How a text begins that begins with an expression. Behind a letter comes neither a letter nor an equals sign. -/
inductive Opening : List Char → Prop
  | other {c} (hc : c ∈ '(' :: digits) (s) : Opening (c :: s)
  | letter {i : Letter} {c s} (hc : c ∈ i.chars) (hs : Ends Level.product.stops s) : Opening (c :: s)

theorem numeral_head (hs : s ∈ numeral) : ∃ c s', s = c :: s' ∧ c ∈ digits := by
  obtain ⟨ds, hds, w, -, rfl⟩ := Language.mem_mul.mp hs
  obtain ⟨c, s, rfl, hc⟩ := digits_head hds
  exact ⟨c, s ++ w, rfl, hc⟩

theorem Writes.opening (h : Writes role s t) {rest : List Char} (hrest : Ends Level.product.stops rest) :
    Opening (s ++ rest) := by
  induction h generalizing rest with
  | number hs =>
      obtain ⟨c, s, rfl, hc⟩ := numeral_head hs
      exact .other (List.mem_cons_of_mem _ hc) _
  | letter hc => exact .letter hc hrest
  | parens => exact .other List.mem_cons_self _
  | term _ ih | first _ ih => exact ih hrest
  | @next op b b' s s' t t' hb _ _ _ ih _ =>
      have hop : Ends op.level.stops (b ++ ([op.char] ++ b' ++ s' ++ rest)) :=
        ⟨b, _, rfl, hb, .cons op.char_mem_stops _⟩
      have h := ih (hop.mono op.level.stops_subset)
      simpa only [List.append_assoc] using h

end Ends

section Letters

variable {i : Letter} {c : Char}

theorem Letter.ofText?_of_mem (hc : c ∈ i.chars) : ofText? (Utf8.ofChars [c]) = some i := by
  have hsmall : ∀ i : Letter, ofText? (Utf8.ofChars [Char.ofNat (0x61 + i)]) = some i := by decide
  have hlarge : ∀ i : Letter, ofText? (Utf8.ofChars [Char.ofNat (0x41 + i)]) = some i := by decide
  rcases List.mem_pair.mp hc with rfl | rfl
  · exact hsmall i
  · exact hlarge i

theorem Letter.toNat_of_mem (hc : c ∈ i.chars) :
    (0x61 ≤ c.toNat ∧ c.toNat ≤ 0x7A) ∨ (0x41 ≤ c.toNat ∧ c.toNat ≤ 0x5A) := by
  have hsmall : ∀ i : Letter, 0x61 ≤ (Char.ofNat (0x61 + i)).toNat ∧ (Char.ofNat (0x61 + i)).toNat ≤ 0x7A := by
    decide
  have hlarge : ∀ i : Letter, 0x41 ≤ (Char.ofNat (0x41 + i)).toNat ∧ (Char.ofNat (0x41 + i)).toNat ≤ 0x5A := by
    decide
  rcases List.mem_pair.mp hc with rfl | rfl
  · exact .inl (hsmall i)
  · exact .inr (hlarge i)

/-- The characters of expressions besides the letters. All of them come before the letters. -/
def signs : List Char := '(' :: digits ++ (blanks ++ Level.product.stops)

theorem toNat_lt_of_mem_signs : ∀ c ∈ signs, c.toNat < 0x41 := by
  simp [signs, digits, blanks, Level.stops, Level.operators, closers]

theorem Letter.notMem_signs (hc : c ∈ i.chars) : c ∉ signs := by
  intro h
  have hlt := toNat_lt_of_mem_signs c h
  rcases toNat_of_mem hc with hc | hc <;> omega

end Letters

end Peg.Calc
