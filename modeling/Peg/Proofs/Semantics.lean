import Peg.Eval
import Peg.Proofs.Forest
import Peg.Proofs.Matchers

namespace Peg

/-- What becomes of a part of a grammar at an offset: no match, an error, or a match with the offset
behind it, the captures that stand then, and the rules that matched. -/
inductive Answer where
  | fail
  | error (e : RunError)
  | ok (offset : Nat) (captures : List Span) (forest : Forest)

namespace Answer

def ofMatch (captures : List Span) : Match → Answer
  | .matched q => ok q captures .nil
  | .failed _ => fail

def Stops : Answer → Prop
  | fail => True
  | error _ => True
  | ok _ _ _ => False

def behind (f : Forest) : Answer → Answer
  | fail => fail
  | error e => error e
  | ok q c g => ok q c (f ++ g)

def orNothing (p : Nat) (captures : List Span) : Answer → Answer
  | fail => ok p captures .nil
  | error e => error e
  | ok q c f => ok q c f

/-- A look ahead stays where it is, and all that was captured or matched under it is forgotten. -/
def lookedAhead (p : Nat) (captures : List Span) : Polarity → Answer → Answer
  | _, error e => error e
  | .positive, fail => fail
  | .positive, ok _ _ _ => ok p captures .nil
  | .negative, fail => ok p captures .nil
  | .negative, ok _ _ _ => fail

def captured (p : Nat) : Answer → Answer
  | fail => fail
  | error e => error e
  | ok q c f => ok q (⟨p, q⟩ :: c) f

def inNode (rule : Octets) (p : Nat) (visible : Bool) : Answer → Answer
  | fail => fail
  | error e => error e
  | ok q c f => ok q c (if visible then .node rule ⟨p, q⟩ f else f)

end Answer

/-- The mode in which the body of a rule is matched, if the rule is called in the mode `m`. -/
def Rule.modeInside (r : Rule) (m : Atomicity) : Atomicity :=
  if r.IsSeparator then .atomic
  else match r.kind with
    | .normal => m
    | .silent => m
    | .atomic => .atomic
    | .compoundAtomic => .compoundAtomic
    | .nonAtomic => .nonAtomic

/-- Whether a match of a rule has a node of its own, if the rule is called in the mode `m`. -/
def Rule.hasNode (r : Rule) (m : Atomicity) : Bool :=
  match r.kind with
  | .normal => m ≠ .atomic
  | .silent => false
  | .atomic => m ≠ .atomic
  | .compoundAtomic => ¬r.IsSeparator
  | .nonAtomic => ¬r.IsSeparator

/-- What can be asked at an offset. Besides expressions and rules these are the separators and what
sequences and repetitions are made of. -/
inductive Task where
  | expr (e : Expr)
  | call (name : Octets)
  | skip
  | nothing
  | both (t u : Task)
  | many (room : Option Nat) (t : Task)

namespace Task

def further (e : Expr) : Nat → Task
  | 0 => nothing
  | n + 1 => both (both skip (expr e)) (further e n)

/-- As many occurrences as have to come, but at least one, and then as many as come. -/
def occurrences (count : Count) (e : Expr) : Task :=
  both (both (expr e) (further e (count.min - 1)))
    (many (count.max?.map (· - max count.min 1)) (both skip (expr e)))

end Task

/-- White space as often as it comes, and behind each comment again. -/
def Grammar.gapTask (g : Grammar) : Task :=
  let whitespace := Task.many none (.call whitespaceName)
  match g.hasWhitespace, g.hasComment with
  | true, true => .both whitespace (.many none (.both (.call commentName) whitespace))
  | true, false => whitespace
  | false, true => .many none (.call commentName)
  | false, false => .nothing

/-- The meaning of a grammar. The mode of a part and its offset are handed down, the captures are handed
on from match to match, and only a match has rules to show. -/
inductive Eval (g : Grammar) (x : Subject) : Atomicity → Task → Nat → List Span → Answer → Prop
  | literal {m l p c} : Eval g x m (.expr (.literal l)) p c (.ofMatch c (x.text l.text p))
  | folded {m l p c} : Eval g x m (.expr (.folded l)) p c (.ofMatch c (x.foldedText l.text p))
  | range {m r p c} : Eval g x m (.expr (.range r)) p c (.ofMatch c (x.runeIn r.low r.high p))
  | scan_found {m k l ls p c q} (hk : k ∈ l :: ls) (hq : x.skipUntil k.text p = .matched q)
      (hleast : ∀ k ∈ l :: ls, ∀ r, x.skipUntil k.text p = .matched r → q ≤ r) :
      Eval g x m (.expr (.scan l ls)) p c (.ok q c .nil)
  | scan_missed {m l ls p c} (h : ∀ k ∈ l :: ls, ∃ r, x.skipUntil k.text p = .failed r) :
      Eval g x m (.expr (.scan l ls)) p c .fail
  | ref {m name p c a} (h : Eval g x m (.call name) p c a) : Eval g x m (.expr (.ref name)) p c a
  | look {m e p c a} (polarity : Polarity) (h : Eval g x m (.expr e) p c a) :
      Eval g x m (.expr (.look polarity e)) p c (a.lookedAhead p c polarity)
  | seq {m d e p c a} (h : Eval g x m (.both (.expr d) (.both .skip (.expr e))) p c a) :
      Eval g x m (.expr (.seq d e)) p c a
  | choice_first {m d e p c a} (h : Eval g x m (.expr d) p c a) (ha : a ≠ .fail) :
      Eval g x m (.expr (.choice d e)) p c a
  | choice_second {m d e p c a} (hd : Eval g x m (.expr d) p c .fail) (he : Eval g x m (.expr e) p c a) :
      Eval g x m (.expr (.choice d e)) p c a
  | optional {m e p c a} (h : Eval g x m (.expr e) p c a) :
      Eval g x m (.expr (.optional e)) p c (a.orNothing p c)
  | repeated_never {m count e p c} (hc : count.max? = some 0) :
      Eval g x m (.expr (.repeated count e)) p c (.ok p c .nil)
  | repeated {m count e p c a} (hc : count.max? ≠ some 0) (h : Eval g x m (.occurrences count e) p c a) :
      Eval g x m (.expr (.repeated count e)) p c (if count.min = 0 then a.orNothing p c else a)
  | capture {m e p c a} (h : Eval g x m (.expr e) p c a) :
      Eval g x m (.expr (.capture e)) p c (a.captured p)
  | any {m p c} : Eval g x m (.call Builtin.any.name) p c (.ofMatch c (x.skip 1 p))
  | startOfInput {m p c} :
      Eval g x m (.call Builtin.startOfInput.name) p c (.ofMatch c (Subject.atStart p))
  | endOfInput {m p c} : Eval g x m (.call Builtin.endOfInput.name) p c
      ((Answer.ofMatch c (x.atEnd p)).inNode Builtin.endOfInput.name p (m ≠ .atomic))
  | peek_empty {m p} : Eval g x m (.call Builtin.peek.name) p [] (.error (.emptyStack Builtin.peek.name))
  | pop_empty {m p} : Eval g x m (.call Builtin.pop.name) p [] (.error (.emptyStack Builtin.pop.name))
  | peek {m p span c} : Eval g x m (.call Builtin.peek.name) p (span :: c)
      (.ofMatch (span :: c) (x.text (x.slice span) p))
  | pop {m p span c} : Eval g x m (.call Builtin.pop.name) p (span :: c)
      (.ofMatch c (x.text (x.slice span) p))
  | undefinedRule {m name p c} (hb : Builtin.ofName? name = none) (hf : g.find? name = none) :
      Eval g x m (.call name) p c (.error (.undefinedRule name))
  | rule {m name r p c a} (hb : Builtin.ofName? name = none) (hf : g.find? name = some r)
      (h : Eval g x (r.modeInside m) (.expr r.body) p c a) :
      Eval g x m (.call name) p c (a.inNode r.name p (r.hasNode m))
  | skip_nothing {m p c} (hm : m ≠ .nonAtomic) : Eval g x m .skip p c (.ok p c .nil)
  | skip {p c a} (h : Eval g x .nonAtomic g.gapTask p c a) : Eval g x .nonAtomic .skip p c a
  | nothing {m p c} : Eval g x m .nothing p c (.ok p c .nil)
  | both_first {m t u p c a} (h : Eval g x m t p c a) (ha : a.Stops) : Eval g x m (.both t u) p c a
  | both {m t u p c q c' f a} (ht : Eval g x m t p c (.ok q c' f)) (hu : Eval g x m u q c' a) :
      Eval g x m (.both t u) p c (a.behind f)
  | many_full {m t p c} : Eval g x m (.many (some 0) t) p c (.ok p c .nil)
  | many_failed {m room t p c} (hr : room ≠ some 0) (h : Eval g x m t p c .fail) :
      Eval g x m (.many room t) p c (.ok p c .nil)
  | many_error {m room t p c e} (hr : room ≠ some 0) (h : Eval g x m t p c (.error e)) :
      Eval g x m (.many room t) p c (.error e)
  | many_last {m room t p c q c' f} (hr : room ≠ some 0) (h : Eval g x m t p c (.ok q c' f)) (hq : q ≤ p) :
      Eval g x m (.many room t) p c (.ok q c' f)
  | many_more {m room t p c q c' f a} (hr : room ≠ some 0) (h : Eval g x m t p c (.ok q c' f)) (hq : p < q)
      (hmore : Eval g x m (.many (room.map (· - 1)) t) q c' a) :
      Eval g x m (.many room t) p c (a.behind f)

end Peg
