import Peg.Calc.Grammar
import Peg.Calc.Value
import Peg.Command
import Peg.Decimal.Double
import Peg.Grammar.Print
import Peg.Parser
import Peg.Stream

namespace Peg.Calc

/-- Numbers are written with six digits, and plainly from a tenth of a thousandth on. -/
def results : Decimal.Notation where
  digits := 6
  plainFrom := -4

def doubles : Arithmetic Float where
  read? := Decimal.readFloat?
  write := Decimal.writeFloat results
  zero := 0
  add := (· + ·)
  sub := (· - ·)
  mul := (· * ·)
  div := (· / ·)

def usage : Octets := ascii
  "Usage: calc [options]\nOptions:\n  -g, --grammar     Print the grammar and exit\n  -t, --tokens      Print the tokens of each statement\n  -h, --help        Show this help\nReads one statement per line from stdin.\n"

structure Options where
  printGrammar : Bool := false
  printTokens : Bool := false
deriving DecidableEq

inductive Invocation where
  | help
  | unknownOption (arg : Octets)
  | run (o : Options)
deriving DecidableEq

/-- The first argument that asks for help or is unknown settles the matter. -/
def Invocation.ofArgs (o : Options) : List Octets → Invocation
  | [] => .run o
  | arg :: args =>
      if arg = ascii "-h" ∨ arg = ascii "--help" then .help
      else if arg = ascii "-g" ∨ arg = ascii "--grammar" then ofArgs { o with printGrammar := true } args
      else if arg = ascii "-t" ∨ arg = ascii "--tokens" then ofArgs { o with printTokens := true } args
      else .unknownOption arg

def Invocation.ReadsInput : Invocation → Prop
  | .run o => o.printGrammar = false
  | _ => False

instance : (i : Invocation) → Decidable i.ReadsInput
  | .run o => inferInstanceAs (Decidable (o.printGrammar = false))
  | .help => inferInstanceAs (Decidable False)
  | .unknownOption _ => inferInstanceAs (Decidable False)

variable {α : Type}

structure Session (α : Type) where
  vars : Variables α
  out : Octets := []
  err : Octets := []

def Session.print (s : Octets) (t : Session α) : Session α := { t with out := t.out ++ line s }

def Session.complain (s : Octets) (t : Session α) : Session α := { t with err := t.err ++ line s }

def IsBlank (s : Octets) : Prop := ∀ c ∈ s, c ∈ ascii " \t\r\n"

instance (s : Octets) : Decidable (IsBlank s) := inferInstanceAs (Decidable (∀ _ ∈ _, _))

def parser : Parser where
  grammar := grammar

def runLines (A : Arithmetic α) (printTokens : Bool) : List Octets → Session α → CommandResult
  | [], t => ⟨0, t.out, t.err⟩
  | text :: rest, t =>
      if IsBlank text then runLines A printTokens rest t
      else
        match parser.parse (ascii "statement") text with
        | .error e => .error e.message t.out t.err
        | .ok (.refused f) =>
            runLines A printTokens rest (t.complain (ascii "SYNTAX ERROR: " ++ f.text))
        | .ok (.accepted tokens) =>
            let forest := (Pairs.ofTokens tokens).forest
            let t := if printTokens then t.print forest.text else t
            match execute A (Subject.ofOctets text) t.vars forest with
            | .error e => .error e.message t.out t.err
            | .ok .quit => ⟨0, t.out, t.err⟩
            | .ok (.value a vars) =>
                runLines A printTokens rest ({ t with vars := vars }.print (A.write a))

def run (args : List Octets) (input : Octets) : CommandResult :=
  match Invocation.ofArgs {} args with
  | .help => ⟨0, usage, []⟩
  | .unknownOption arg => .error (ascii "Unknown option: " ++ arg) [] []
  | .run o =>
      if o.printGrammar then ⟨0, rules.flatMap fun r => line r.text, []⟩
      else runLines doubles o.printTokens (Stream.ofOctets input).lines { vars := fun _ => doubles.zero }

end Peg.Calc
