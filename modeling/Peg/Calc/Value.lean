import Peg.Forest
import Peg.Utf8.Fold

namespace Peg.Calc

/-- Numbers to calculate with. A text that is out of their range cannot be read. -/
structure Arithmetic (α : Type) where
  read? : Octets → Option α
  write : α → Octets
  zero : α
  add : α → α → α
  sub : α → α → α
  mul : α → α → α
  div : α → α → α

inductive Fault where
  | outOfRange
  | malformed
deriving DecidableEq, Repr

def Fault.message : Fault → Octets
  | .outOfRange => ascii "stod"
  | .malformed => ascii "malformed statement"

abbrev Letter := Fin 26

def Letter.ofRune? (r : Nat) : Option Letter :=
  if h : 0x61 ≤ r ∧ r ≤ 0x7A then some ⟨r - 0x61, by omega⟩ else none

/-- The letter that a text begins with, capital or small. -/
def Letter.ofText? : Octets → Option Letter
  | [] => none
  | c :: _ => Letter.ofRune? (Utf8.fold c.toNat)

abbrev Variables (α : Type) := Letter → α

/-- Sums bind less tight than products. -/
inductive Level where
  | sum
  | product

variable {α : Type}

/-- The two operators of a level. What is not written `text` counts as the other one. -/
structure Operators (α : Type) where
  text : Octets
  first : α → α → α
  other : α → α → α

def Arithmetic.operators (A : Arithmetic α) : Level → Operators α
  | .sum => ⟨ascii "+", A.add, A.sub⟩
  | .product => ⟨ascii "*", A.mul, A.div⟩

/-- A matched rule by its text and the value that it has as an operand. -/
structure Item (α : Type) where
  text : Octets
  value : Except Fault α

namespace Operators

def apply (o : Operators α) (s : Octets) : α → α → α := if s = o.text then o.first else o.other

/-- Operators and operands in turn, applied to `acc` from left to right. -/
def applyAll (o : Operators α) (acc : α) : List (Item α) → Except Fault α
  | [] => .ok acc
  | [_] => .error .malformed
  | operator :: operand :: rest => do o.applyAll (o.apply operator.text acc (← operand.value)) rest

/-- An operand, and then operators with operands behind them. -/
def chain (o : Operators α) : List (Item α) → Except Fault α
  | [] => .error .malformed
  | first :: rest => do o.applyAll (← first.value) rest

end Operators

variable (A : Arithmetic α) (x : Subject) (vars : Variables α)

def readNumber (s : Octets) : Except Fault α :=
  match A.read? s with
  | some a => .ok a
  | none => .error .outOfRange

def lookUp (s : Octets) : Except Fault α :=
  match Letter.ofText? s with
  | some i => .ok (vars i)
  | none => .error .malformed

mutual

/-- The value of a sum, whose operands are terms. -/
def expr (f : Forest) : Except Fault α := (A.operators .sum).chain (terms f)
termination_by (sizeOf f, 1)

def terms : Forest → List (Item α)
  | .nil => []
  | .cons _ span inner next => ⟨x.slice span, term inner⟩ :: terms next
termination_by f => (sizeOf f, 0)

/-- The value of a product, whose operands are factors. -/
def term (f : Forest) : Except Fault α := (A.operators .product).chain (factors f)
termination_by (sizeOf f, 1)

def factors : Forest → List (Item α)
  | .nil => []
  | .cons rule span inner next => ⟨x.slice span, factor rule span inner⟩ :: factors next
termination_by f => (sizeOf f, 0)

def factor (rule : Octets) (span : Span) (inner : Forest) : Except Fault α :=
  if rule = ascii "number" then readNumber A (x.slice span)
  else if rule = ascii "ident" then lookUp vars (x.slice span)
  else expr inner
termination_by (sizeOf inner, 2)

end

def assign (vars : Variables α) (i : Letter) (a : α) : Variables α :=
  fun j => if j = i then a else vars j

inductive Reply (α : Type) where
  | quit
  | value (a : α) (vars : Variables α)

def assignment : Forest → Except Fault (Reply α)
  | .cons _ span _ (.cons _ _ inner _) =>
      match Letter.ofText? (x.slice span) with
      | some i => (expr A x vars inner).map fun a => .value a (assign vars i a)
      | none => .error .malformed
  | _ => .error .malformed

def execute : Forest → Except Fault (Reply α)
  | .nil => .error .malformed
  | .cons rule _ inner _ =>
      if rule = ascii "quit" then .ok .quit
      else if rule = ascii "assignment" then assignment A x vars inner
      else (expr A x vars inner).map fun a => .value a vars

end Peg.Calc
