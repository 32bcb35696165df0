import Peg.Command
import Peg.Decimal.Unsigned
import Peg.JsonCheck.Grammar
import Peg.Parser
import Peg.Stream

namespace Peg.JsonCheck

def usage : Octets := ascii
  "Usage: jsoncheck [options] [file|-]\nOptions:\n  -q, --quiet          Only set exit code\n  -t, --tokens         Print the matched tokens\n  -w, --tab-width N    Columns per tab in error locations (default 8)\n  -h, --help           Show this help\nIf no file is specified, reads from stdin.\n"

structure Options where
  file : Octets := ascii "-"
  quiet : Bool := false
  printTokens : Bool := false
  tabs : TabStops := {}
deriving DecidableEq

inductive Invocation where
  | help
  | missingValue (arg : Octets)
  | badNumber
  | unknownOption (arg : Octets)
  | run (o : Options)
deriving DecidableEq

/-- Tab widths have 32 bits. The bits above them are dropped. -/
def Options.setTabs (n : Nat) (o : Options) : Options :=
  { o with tabs := ⟨n % Nat.pow 2 32, n % Nat.pow 2 32⟩ }

/-- A lone dash is no option. -/
def IsOption : Octets → Prop
  | [] => False
  | [_] => False
  | c :: _ => c = 0x2D

instance : (s : Octets) → Decidable (IsOption s)
  | [] => inferInstanceAs (Decidable False)
  | [_] => inferInstanceAs (Decidable False)
  | c :: _ :: _ => inferInstanceAs (Decidable (c = 0x2D))

/-- The first argument that asks for help or is faulty settles the matter. Of several files the last
one counts. -/
def Invocation.ofArgs (o : Options) : List Octets → Invocation
  | [] => .run o
  | arg :: args =>
      if arg = ascii "-h" ∨ arg = ascii "--help" then .help
      else if arg = ascii "-q" ∨ arg = ascii "--quiet" then ofArgs { o with quiet := true } args
      else if arg = ascii "-t" ∨ arg = ascii "--tokens" then ofArgs { o with printTokens := true } args
      else if arg = ascii "-w" ∨ arg = ascii "--tab-width" then
        match args with
        | [] => .missingValue arg
        | value :: args =>
            match Decimal.readWord? value with
            | some n => ofArgs (o.setTabs n) args
            | none => .badNumber
      else if IsOption arg then .unknownOption arg
      else ofArgs { o with file := arg } args

def check (o : Options) (text : Octets) : CommandResult :=
  let parser : Parser := { grammar := grammar, tabs := o.tabs }
  match parser.parse (ascii "json") text with
  | .error e => .error e.message [] []
  | .ok (.refused f) =>
      ⟨1, if o.quiet then [] else line (ascii "Invalid JSON") ++ line (o.file ++ ascii ":" ++ f.text), []⟩
  | .ok (.accepted tokens) =>
      let shown := if o.printTokens then line (Pairs.ofTokens tokens).text else []
      ⟨0, if o.quiet then [] else shown ++ line (ascii "Valid JSON"), []⟩

def Invocation.file? : Invocation → Option Octets
  | .run o => some o.file
  | _ => none

inductive Entry where
  | file (text : Octets)
  | directory
deriving DecidableEq, Repr

inductive SourceError where
  | notFound (name : Octets)
  | directory
deriving DecidableEq, Repr

def SourceError.message : SourceError → Octets
  | .notFound name => ascii "Failed to open file: " ++ name
  | .directory => ascii "basic_filebuf::underflow error reading the file: Is a directory"

/-- The text to check. A lone dash stands for the input, and every other name is looked up. -/
def source (lookUp : Octets → Option Entry) (input name : Octets) : Except SourceError Octets :=
  if name = ascii "-" then .ok input
  else
    match lookUp name with
    | some (.file text) => .ok text
    | some .directory => .error .directory
    | none => .error (.notFound name)

def run (lookUp : Octets → Option Entry) (args : List Octets) (input : Octets) : CommandResult :=
  match Invocation.ofArgs {} args with
  | .help => ⟨0, usage, []⟩
  | .missingValue arg => .error (ascii "Missing value for option: " ++ arg) [] []
  | .badNumber => .error (ascii "stoul") [] []
  | .unknownOption arg => .error (ascii "Unknown option: " ++ arg) [] []
  | .run o =>
      match source lookUp input o.file with
      | .ok text => check o (Stream.ofOctets text).readAll.1
      | .error e => .error e.message [] []

end Peg.JsonCheck
