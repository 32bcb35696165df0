import Peg.Attempts
import Peg.Captures
import Peg.Token

namespace Peg

inductive Atomicity where
  | atomic
  | compoundAtomic
  | nonAtomic
deriving DecidableEq, Repr

structure Call where
  rule : Octets
  offset : Nat
deriving DecidableEq, Repr

/-- All that a match leaves behind and all that it depends on besides the grammar and the subject. The
innermost call comes first. A call limit of zero is no limit. -/
structure State where
  tokens : Array Token := #[]
  captures : CaptureStack := {}
  attempts : Attempts := {}
  furthest : Nat := 0
  calls : List Call := []
  callLimit : Nat := 0
  atomicity : Atomicity := .nonAtomic
  lookahead : Option Polarity := none
deriving DecidableEq

/-- The polarity of a look ahead inside another one. Two negative ones make a positive one. -/
def Polarity.within : Polarity → Option Polarity → Polarity
  | .positive, some .negative => .negative
  | .negative, some .negative => .positive
  | polarity, _ => polarity

namespace State

def note : Match → State → State
  | .matched _, s => s
  | .failed p, s => { s with furthest := max s.furthest p }

def AtCallLimit (s : State) : Prop := s.callLimit ≠ 0 ∧ s.callLimit ≤ s.calls.length

instance (s : State) : Decidable s.AtCallLimit := inferInstanceAs (Decidable (_ ∧ _))

def enterCall (c : Call) (s : State) : State := { s with calls := c :: s.calls }

def leaveCall (s : State) : State := { s with calls := s.calls.tail }

def setAtomicity (mode : Atomicity) (s : State) : State := { s with atomicity := mode }

def modifyCaptures (f : CaptureStack → CaptureStack) (s : State) : State :=
  { s with captures := f s.captures }

/-- Whether a rule leaves tokens: neither under a look ahead nor inside an atomic rule. -/
def Emits (s : State) : Prop := s.lookahead = none ∧ s.atomicity ≠ .atomic

instance (s : State) : Decidable s.Emits := inferInstanceAs (Decidable (_ ∧ _))

structure RuleFrame where
  rule : Octets
  offset : Nat
  tokenIndex : Nat
  emits : Bool
  attempts : AttemptCount
deriving DecidableEq

def ruleFrame (rule : Octets) (p : Nat) (s : State) : RuleFrame where
  rule := rule
  offset := p
  tokenIndex := s.tokens.size
  emits := decide s.Emits
  attempts := s.attempts.countAt p

/-- The start token has no partner yet and points at zero until the rule ends. -/
def openRule (f : RuleFrame) (s : State) : State :=
  if f.emits then { s with tokens := s.tokens.push ⟨.start, f.rule, 0, f.offset⟩ } else s

def polarity (s : State) : Polarity := s.lookahead.getD .positive

def recordAttempt (f : RuleFrame) (s : State) : State :=
  if s.atomicity = .atomic then s
  else { s with attempts := s.attempts.record f.rule s.polarity f.offset f.attempts }

/-- A failure is on record where a match is wanted, and a match where none is wanted. -/
def Disappoints (m : Match) (s : State) : Prop := m.succeeded = decide (s.polarity = .negative)

instance (m : Match) (s : State) : Decidable (s.Disappoints m) := inferInstanceAs (Decidable (_ = _))

def closeTokens (f : RuleFrame) : Match → State → State
  | .matched q, s =>
      let last := s.tokens.size
      { s with
        tokens := (s.tokens.modify f.tokenIndex fun t => { t with partner := last }).push
          ⟨.stop, f.rule, f.tokenIndex, q⟩ }
  | .failed _, s => { s with tokens := s.tokens.shrink f.tokenIndex }

def closeRule (f : RuleFrame) (m : Match) (s : State) : State :=
  let s := if s.Disappoints m then s.recordAttempt f else s
  if f.emits then s.closeTokens f m else s

/-- A moment to which a failed part goes back. -/
structure Mark where
  tokens : Nat
  captures : Nat
deriving DecidableEq

def mark (s : State) : Mark := ⟨s.tokens.size, s.captures.snapshot⟩

def rollBack (k : Mark) : Match → State → State
  | .matched _, s => s
  | .failed _, s => { s with tokens := s.tokens.shrink k.tokens, captures := s.captures.restore k.captures }

def lookInto (polarity : Polarity) (s : State) : State :=
  { s with lookahead := some (polarity.within s.lookahead) }

/-- What a look ahead captured or uncaptured is undone. -/
def lookBack (lookahead : Option Polarity) (moment : Nat) (s : State) : State :=
  { s with lookahead := lookahead, captures := s.captures.restore moment }

end State

end Peg
