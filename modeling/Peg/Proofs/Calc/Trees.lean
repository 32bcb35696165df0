import Peg.Calc.Value
import Peg.Proofs.Forest

/-! Arithmetic expressions as trees, and the forests of pairs that stand for them. -/

namespace Peg.Calc

inductive Operator where
  | add
  | sub
  | mul
  | div
deriving DecidableEq, Repr

inductive Tree where
  | number (text : Octets)
  | letter (i : Letter)
  | binary (op : Operator) (a b : Tree)

/-- What can be asked of a calculator. -/
inductive Statement where
  | quit
  | assign (i : Letter) (t : Tree)
  | value (t : Tree)

def Operator.level : Operator → Level
  | add => .sum
  | sub => .sum
  | mul => .product
  | div => .product

def Operator.char : Operator → Char
  | add => '+'
  | sub => '-'
  | mul => '*'
  | div => '/'

def Operator.text (op : Operator) : Octets := [op.char.toNat.toUInt8]

def Level.operatorName : Level → Octets
  | sum => ascii "add_op"
  | product => ascii "mul_op"

/-- A part of an expression: an operand of a level, or operands of that level with operators in between. -/
inductive Role where
  | operand (l : Level)
  | chain (l : Level)

variable {α : Type} (A : Arithmetic α) (vars : Variables α)

def Arithmetic.apply (A : Arithmetic α) : Operator → α → α → α
  | .add => A.add
  | .sub => A.sub
  | .mul => A.mul
  | .div => A.div

def Tree.value : Tree → Except Fault α
  | number s => readNumber A s
  | letter i => .ok (vars i)
  | binary op a b => do return A.apply op (← a.value) (← b.value)

def Statement.reply : Statement → Except Fault (Reply α)
  | quit => .ok .quit
  | assign i t => (t.value A vars).map fun a => .value a (Calc.assign vars i a)
  | value t => (t.value A vars).map fun a => .value a vars

/-- A forest of pairs in a part of a tree. A chain groups to the left. -/
inductive Shows (x : Subject) : Role → Forest → Tree → Prop
  | number (span inner) : Shows x (.operand .product) (.node (ascii "number") span inner) (.number (x.slice span))
  | letter (span inner) {i} (hi : Letter.ofText? (x.slice span) = some i) :
      Shows x (.operand .product) (.node (ascii "ident") span inner) (.letter i)
  | parens (span) {f t} (h : Shows x (.chain .sum) f t) :
      Shows x (.operand .product) (.node (ascii "expr") span f) t
  | term (span) {f t} (h : Shows x (.chain .product) f t) :
      Shows x (.operand .sum) (.node (ascii "term") span f) t
  | first {l f t} (h : Shows x (.operand l) f t) : Shows x (.chain l) f t
  | next (op : Operator) (span inner) {f g a b} (h : Shows x (.chain op.level) f a) (ht : x.slice span = op.text)
      (h' : Shows x (.operand op.level) g b) :
      Shows x (.chain op.level) (f ++ (.node op.level.operatorName span inner ++ g)) (.binary op a b)

/-- The first pair of a forest shows a statement. -/
inductive Statement.Heads (x : Subject) : Statement → Forest → Prop
  | quit (span inner next) : Heads x .quit (.cons (ascii "quit") span inner next)
  | assign (span inner span' span'' next) {i f t} (hi : Letter.ofText? (x.slice span) = some i)
      (h : Shows x (.chain .sum) f t) : Heads x (.assign i t)
        (.cons (ascii "assignment") span'' (.node (ascii "ident") span inner ++ .node (ascii "expr") span' f) next)
  | value (span next) {f t} (h : Shows x (.chain .sum) f t) : Heads x (.value t) (.cons (ascii "expr") span f next)

theorem Tree.value_ne_malformed (t : Tree) : t.value A vars ≠ .error .malformed := by
  induction t with
  | number s =>
      rw [value, readNumber]
      split <;> exact nofun
  | letter i => exact nofun
  | binary op a b iha ihb =>
      rw [value]
      cases ha : a.value A vars with
      | error e =>
          rw [ha] at iha
          exact iha
      | ok a =>
          cases hb : b.value A vars with
          | error e =>
              rw [hb] at ihb
              exact ihb
          | ok b => exact nofun

theorem Statement.reply_ne_malformed (st : Statement) : st.reply A vars ≠ .error .malformed := by
  have hmap : ∀ (t : Tree) (k : α → Reply α), (t.value A vars).map k ≠ .error .malformed := by
    intro t k hk
    have ht := t.value_ne_malformed A vars
    cases hv : t.value A vars with
    | error e =>
        rw [hv] at ht hk
        cases hk
        exact ht rfl
    | ok a =>
        rw [hv] at hk
        cases hk
  cases st with
  | quit => exact nofun
  | assign i t => exact hmap t _
  | value t => exact hmap t _

variable (x : Subject)

def Level.operands : Level → Forest → List (Item α)
  | sum => terms A x vars
  | product => factors A x vars

def Level.operand : Level → Octets → Span → Forest → Except Fault α
  | sum, _, _, inner => term A x vars inner
  | product, rule, span, inner => factor A x vars rule span inner

theorem Level.operands_nil (l : Level) : l.operands A vars x .nil = [] := by
  cases l with
  | sum => rw [operands, terms]
  | product => rw [operands, factors]

theorem Level.operands_cons (l : Level) (rule : Octets) (span : Span) (inner next : Forest) :
    l.operands A vars x (.cons rule span inner next) =
      ⟨x.slice span, l.operand A vars x rule span inner⟩ :: l.operands A vars x next := by
  cases l with
  | sum => rw [operands, terms, operand]
  | product => rw [operands, factors, operand]

theorem Level.operands_node (l : Level) (rule : Octets) (span : Span) (inner : Forest) :
    l.operands A vars x (.node rule span inner) = [⟨x.slice span, l.operand A vars x rule span inner⟩] := by
  rw [Forest.node, operands_cons, operands_nil]

theorem Level.operands_append (l : Level) (f g : Forest) :
    l.operands A vars x (f ++ g) = l.operands A vars x f ++ l.operands A vars x g := by
  induction f with
  | nil =>
      rw [operands_nil]
      rfl
  | cons rule span inner next _ ih => rw [Forest.cons_append, operands_cons, operands_cons, ih, List.cons_append]

theorem Operator.apply_text (op : Operator) : (A.operators op.level).apply op.text = A.apply op := by
  cases op <;> rfl

variable {A vars x}

theorem bind_applyAll_nil (o : Operators α) (v : Except Fault α) : (v.bind fun a => o.applyAll a []) = v := by
  cases v <;> rfl

/-- What the evaluator makes of a part. What follows a chain is applied to its value. -/
theorem Shows.operands {role : Role} {f : Forest} {t : Tree} (h : Shows x role f t) :
    match role with
    | .operand l => ∃ text, l.operands A vars x f = [⟨text, t.value A vars⟩]
    | .chain l => ∀ more, (A.operators l).chain (l.operands A vars x f ++ more) =
        (t.value A vars).bind fun a => (A.operators l).applyAll a more := by
  induction h with
  | number span inner =>
      refine ⟨x.slice span, ?_⟩
      rw [Level.operands_node, Level.operand, factor, if_pos rfl]
      rfl
  | letter span inner hi =>
      refine ⟨x.slice span, ?_⟩
      rw [Level.operands_node, Level.operand, factor, if_neg (by decide), if_pos rfl, lookUp, hi]
      rfl
  | parens span _ ih =>
      have hv := ih []
      rw [List.append_nil, bind_applyAll_nil] at hv
      refine ⟨x.slice span, ?_⟩
      rw [Level.operands_node, Level.operand, factor, if_neg (by decide), if_neg (by decide), expr]
      exact congrArg (fun v => [Item.mk _ v]) hv
  | term span _ ih =>
      have hv := ih []
      rw [List.append_nil, bind_applyAll_nil] at hv
      refine ⟨x.slice span, ?_⟩
      rw [Level.operands_node, Level.operand, Calc.term]
      exact congrArg (fun v => [Item.mk _ v]) hv
  | @first l f t _ ih =>
      intro more
      obtain ⟨text, hi⟩ := ih
      rw [hi]
      rfl
  | @next op span inner f g a b _ ht _ ih ih' =>
      intro more
      obtain ⟨text, hi⟩ := ih'
      rw [Level.operands_append, Level.operands_append, Level.operands_node, hi, ht, List.append_assoc, ih]
      cases ha : a.value A vars with
      | error e => simp only [Tree.value, ha]; rfl
      | ok u =>
          change (A.operators op.level).applyAll u (⟨op.text, _⟩ :: ⟨text, b.value A vars⟩ :: more) = _
          rw [Operators.applyAll, op.apply_text]
          cases hb : b.value A vars with
          | error e => simp only [Tree.value, ha, hb]; rfl
          | ok v => simp only [Tree.value, ha, hb]; rfl

theorem Shows.expr_eq {f : Forest} {t : Tree} (h : Shows x (.chain .sum) f t) : expr A x vars f = t.value A vars := by
  have hv := @Shows.operands α A vars x _ f t h []
  rw [List.append_nil, bind_applyAll_nil] at hv
  rw [expr]
  exact hv

/-- A statement is answered as its trees are valued. -/
theorem Statement.Heads.execute_eq {st : Statement} {f : Forest} (h : st.Heads x f) :
    execute A x vars f = st.reply A vars := by
  cases h with
  | quit span inner next => rfl
  | assign span inner span' span'' next hi hf =>
      change assignment A x vars (.cons (ascii "ident") span inner (.node (ascii "expr") span' _)) = _
      rw [Forest.node, assignment, hi, reply, ← hf.expr_eq]
  | value span next hf =>
      change Except.map _ (expr A x vars _) = _
      rw [hf.expr_eq]
      rfl

end Peg.Calc
