import Peg.Grammar.Basic
import Peg.Repetition

namespace Peg

abbrev Caller := Octets → Recogniser

variable (g : Grammar) (x : Subject) (call : Caller)

/-- White space and comments, as often as they come, where the state lets them stand. -/
def Grammar.separators : Recogniser := fun p s =>
  if s.atomicity ≠ .nonAtomic then .done (.matched p) s
  else
    let whitespace := x.repeatedly (call whitespaceName)
    match g.hasWhitespace, g.hasComment with
    | true, true =>
        (whitespace.andThen
          (x.repeatedly ((call commentName).andThen whitespace).attempt)).attempt p s
    | true, false => whitespace p s
    | false, true => x.repeatedly (call commentName) p s
    | false, false => .done (.matched p) s

/-- Every expression notes its own failure, so the furthest one is known in the end. -/
def Expr.run (e : Expr) : Recogniser :=
  Recogniser.noted <|
    match e with
    | literal l => .ofMatcher (x.text l.text)
    | folded l => .ofMatcher (x.foldedText l.text)
    | range r => .ofMatcher (x.runeIn r.low r.high)
    | ref name => call name
    | look polarity e => (run e).look polarity
    | seq a b => ((run a).andThen ((g.separators x call).andThen (run b))).attempt
    | choice a b => (run a).orElse (run b)
    | optional e => (run e).optional
    | repeated count e => x.counted (g.separators x call) (run e) count.min count.max?
    | capture e => (run e).capture
    | scan l ls => .ofMatcher (x.skipUntilAny l.text (ls.map Literal.text))

def Builtin.recallTop (b : Builtin) (f : State → State) : Recogniser := fun p s =>
  match s.captures.top? with
  | none => .raised (.emptyStack b.name) s
  | some span =>
      match x.text (x.slice span) p with
      | .matched q => .done (.matched q) (f s)
      | .failed q => .done (.failed q) s

def Builtin.run : Builtin → Recogniser
  | any => .ofMatcher (x.skip 1)
  | endOfInput => Recogniser.inRule endOfInput.name (.ofMatcher x.atEnd)
  | startOfInput => .ofMatcher Subject.atStart
  | peek => peek.recallTop x id
  | pop => pop.recallTop x (State.modifyCaptures CaptureStack.pop)

/-- A separator is always atomic inside, and has a token only if it is a normal or an atomic rule. -/
def Rule.run (r : Rule) : Recogniser :=
  let body := r.body.run g x call
  if r.IsSeparator then
    match r.kind with
    | .normal => (body.inAtomicity .atomic).inRule r.name
    | .atomic => (body.inAtomicity .atomic).inRule r.name
    | _ => body.inAtomicity .atomic
  else
    match r.kind with
    | .normal => body.inRule r.name
    | .silent => body
    | .atomic => (body.inAtomicity .atomic).inRule r.name
    | .compoundAtomic => (body.inRule r.name).inAtomicity .compoundAtomic
    | .nonAtomic => (body.inRule r.name).inAtomicity .nonAtomic

/-- A name means a builtin, or else the rule that bears it. -/
def Grammar.resolve (name : Octets) : Recogniser :=
  match Builtin.ofName? name with
  | some b => b.run x
  | none =>
      match g.find? name with
      | some r => r.run g x call
      | none => fun _ s => .raised (.undefinedRule name) s

/-- Calls of rules by name, nested at most `depth` deep. -/
def Grammar.caller : Nat → Caller
  | 0, _ => fun _ _ => .exhausted
  | depth + 1, name => ((g.resolve x (Grammar.caller depth) name).inCall name).noted

end Peg
