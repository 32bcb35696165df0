import Peg.Eval
import Peg.Proofs.Matchers

namespace Peg

/-- What is tried between two parts of a sequence in the states that let separators stand. -/
def Grammar.gap (g : Grammar) (x : Subject) (call : Caller) : Recogniser :=
  let whitespace := x.repeatedly (call whitespaceName)
  match g.hasWhitespace, g.hasComment with
  | true, true =>
      (whitespace.andThen
        (x.repeatedly ((call commentName).andThen whitespace).attempt)).attempt
  | true, false => whitespace
  | false, true => x.repeatedly (call commentName)
  | false, false => .nothing

def Recogniser.inGaps (r : Recogniser) : Recogniser := fun p s =>
  if s.atomicity ≠ .nonAtomic then .done (.matched p) s else r p s

theorem Grammar.separators_eq (g : Grammar) (x : Subject) (call : Caller) :
    g.separators x call = (g.gap x call).inGaps := by
  funext p s
  rw [separators, Recogniser.inGaps, gap]
  split
  · rfl
  · cases g.hasWhitespace <;> cases g.hasComment <;> rfl

theorem Recogniser.andThen_nothing (r : Recogniser) : r.andThen .nothing = r := by
  funext p s
  unfold andThen Outcome.andThen
  rcases r p s with ⟨q | q, t⟩ | ⟨e, t⟩ | _ <;> rfl

theorem Recogniser.andThen_assoc (a b c : Recogniser) : (a.andThen b).andThen c = a.andThen (b.andThen c) := by
  funext p s
  unfold andThen Outcome.andThen
  rcases a p s with ⟨q | q, t⟩ | ⟨e, t⟩ | _ <;> rfl

/-- Matches on end, up to the first one that fails or stays where it is, or until there is no room. -/
def Recogniser.loop (r : Recogniser) : Nat → Option Nat → Recogniser
  | 0, _, _, _ => .exhausted
  | n + 1, room, p, s =>
      if room = some 0 then .done (.matched p) s
      else
        match r p s with
        | .done (.matched q) s => if q ≤ p then .done (.matched q) s else loop r n (room.map (· - 1)) q s
        | .done (.failed _) s => .done (.matched p) s
        | .raised e s => .raised e s
        | .exhausted => .exhausted

def Subject.loop (x : Subject) (room : Option Nat) (r : Recogniser) : Recogniser := fun p s =>
  r.loop (x.size + 1 - p) room p s

theorem Recogniser.greedily_eq_loop (skip r : Recogniser) (n : Nat) (room : Option Nat) :
    greedily skip r n room = (skip.andThen r).attempt.loop n room := by
  induction n generalizing room with
  | zero => rfl
  | succ n ih =>
      funext p s
      rw [greedily, loop]
      split
      · rfl
      · rcases (skip.andThen r).attempt p s with ⟨q | q, t⟩ | ⟨e, t⟩ | _
        · exact congrArg (fun k => if q ≤ p then Outcome.done (.matched q) t else k q t) (ih _)
        · rfl
        · rfl
        · rfl

theorem Subject.greedilyAfter_eq_loop (x : Subject) (skip r : Recogniser) (max? : Option Nat) (times : Nat) :
    x.greedilyAfter skip r max? times = x.loop (max?.map (· - times)) (skip.andThen r).attempt := by
  funext p s
  rw [greedilyAfter, Recogniser.greedily_eq_loop]
  rfl

namespace Expr

/-- The parts of an expression that have no parts of their own. -/
def leaves : Expr → List Expr
  | literal l => [literal l]
  | folded l => [folded l]
  | range r => [range r]
  | ref name => [ref name]
  | look _ e => e.leaves
  | seq d e => d.leaves ++ e.leaves
  | choice d e => d.leaves ++ e.leaves
  | optional e => e.leaves
  | repeated _ e => e.leaves
  | capture e => e.leaves
  | scan l ls => [scan l ls]

def IsLeaf : Expr → Prop
  | literal _ | folded _ | range _ | ref _ | scan _ _ => True
  | look _ _ | seq _ _ | choice _ _ | optional _ | repeated _ _ | capture _ => False

end Expr

/-- What stands around the body of a rule: a node, or a mode. -/
inductive RuleScope where
  | node (rule : Octets)
  | mode (mode : Atomicity)

def RuleScope.around : RuleScope → Recogniser → Recogniser
  | node rule, r => r.inRule rule
  | mode m, r => r.inAtomicity m

/-- What stands around the body of a rule, the outermost first. -/
def Rule.scopes (r : Rule) : List RuleScope :=
  if r.IsSeparator then
    match r.kind with
    | .normal => [.node r.name, .mode .atomic]
    | .atomic => [.node r.name, .mode .atomic]
    | _ => [.mode .atomic]
  else
    match r.kind with
    | .normal => [.node r.name]
    | .silent => []
    | .atomic => [.node r.name, .mode .atomic]
    | .compoundAtomic => [.mode .compoundAtomic, .node r.name]
    | .nonAtomic => [.mode .nonAtomic, .node r.name]

theorem Rule.run_eq_foldr (r : Rule) (g : Grammar) (x : Subject) (call : Caller) :
    r.run g x call = r.scopes.foldr RuleScope.around (r.body.run g x call) := by
  unfold run scopes
  split <;> cases r.kind <;> rfl

theorem RuleScope.foldr_around {R : Recogniser → Recogniser → Prop} {a b : Recogniser} {scopes : List RuleScope}
    (hnode : ∀ rule {a b}, R a b → R (a.inRule rule) (b.inRule rule))
    (hmode : ∀ m, mode m ∈ scopes → ∀ {a b}, R a b → R (a.inAtomicity m) (b.inAtomicity m)) (h : R a b) :
    R (scopes.foldr around a) (scopes.foldr around b) := by
  induction scopes with
  | nil => exact h
  | cons scope scopes ih =>
      have ih := ih fun m hm => hmode m (List.mem_cons_of_mem _ hm)
      cases scope with
      | node rule => exact hnode rule ih
      | mode m => exact hmode m List.mem_cons_self ih

/-- Two relations between recognisers that the operators of expressions respect. Recognisers that are
`loose` may fail and leave tokens and captures behind, those that are `tidy` may not. -/
structure Operators (x : Subject) (loose tidy : Recogniser → Recogniser → Prop) : Prop where
  loosen : ∀ {a b}, tidy a b → loose a b
  nothing : tidy .nothing .nothing
  noted : ∀ {a b}, tidy a b → tidy a.noted b.noted
  andThen : ∀ {a b c d}, loose a b → loose c d → loose (a.andThen c) (b.andThen d)
  orElse : ∀ {a b c d}, tidy a b → tidy c d → tidy (a.orElse c) (b.orElse d)
  optional : ∀ {a b}, loose a b → tidy a.optional b.optional
  attempt : ∀ {a b}, loose a b → tidy a.attempt b.attempt
  look : ∀ {a b} polarity, tidy a b → tidy (a.look polarity) (b.look polarity)
  capture : ∀ {a b}, tidy a b → tidy a.capture b.capture
  loop : ∀ {a b} room, tidy a b → tidy (x.loop room a) (x.loop room b)

namespace Operators

variable {x : Subject} {loose tidy : Recogniser → Recogniser → Prop} (h : Operators x loose tidy)
variable {a b c d : Recogniser} {g g' : Grammar} {call call' : Caller}

include h

theorem further (hs : loose a b) (hr : tidy c d) (n : Nat) : loose (.further a c n) (.further b d n) := by
  induction n with
  | zero => exact h.loosen h.nothing
  | succ n ih => exact h.andThen (h.andThen hs (h.loosen hr)) ih

theorem greedilyAfter (hs : loose a b) (hr : tidy c d) (max? : Option Nat) (times : Nat) :
    tidy (x.greedilyAfter a c max? times) (x.greedilyAfter b d max? times) := by
  rw [x.greedilyAfter_eq_loop, x.greedilyAfter_eq_loop]
  exact h.loop _ (h.attempt (h.andThen hs (h.loosen hr)))

theorem counted (hs : loose a b) (hr : tidy c d) (min : Nat) (max? : Option Nat) :
    tidy (x.counted a c min max?) (x.counted b d min max?) := by
  unfold Subject.counted
  split
  · exact h.nothing
  · cases min with
    | zero => exact h.attempt (h.loosen (h.optional
        (h.andThen (h.loosen hr) (h.loosen (h.greedilyAfter hs hr max? 1)))))
    | succ n => exact h.attempt (h.andThen (h.andThen (h.loosen hr) (h.further hs hr n))
        (h.loosen (h.greedilyAfter hs hr max? (n + 1))))

/-- An expression is related under two grammars if its leaves and the separators are. -/
theorem expr (hs : loose (g.separators x call) (g'.separators x call')) {e : Expr}
    (hl : ∀ d ∈ e.leaves, d.IsLeaf → tidy (d.run g x call) (d.run g' x call')) :
    tidy (e.run g x call) (e.run g' x call') := by
  induction e with
  | literal | folded | range | ref | scan => exact hl _ List.mem_cons_self trivial
  | look polarity e ih => exact h.noted (h.look polarity (ih hl))
  | seq d e ihd ihe =>
      obtain ⟨hd, he⟩ := List.forall_mem_append.mp hl
      exact h.noted (h.attempt (h.andThen (h.loosen (ihd hd)) (h.andThen hs (h.loosen (ihe he)))))
  | choice d e ihd ihe =>
      obtain ⟨hd, he⟩ := List.forall_mem_append.mp hl
      exact h.noted (h.orElse (ihd hd) (ihe he))
  | optional e ih => exact h.noted (h.optional (h.loosen (ih hl)))
  | repeated count e ih => exact h.noted (h.counted hs (ih hl) count.min count.max?)
  | capture e ih => exact h.noted (h.capture (ih hl))

end Operators

/-- Two relations between recognisers that every form of a grammar respects. Recognisers that are
`loose` may fail and leave tokens and captures behind, those that are `tidy` may not. -/
structure Congruence (x : Subject) (loose tidy : Recogniser → Recogniser → Prop) : Prop where
  loosen : ∀ {a b}, tidy a b → loose a b
  ofMatcher : ∀ {w}, x.Forward w → tidy (.ofMatcher w) (.ofMatcher w)
  undefinedRule : ∀ name,
    tidy (fun _ s => .raised (.undefinedRule name) s) (fun _ s => .raised (.undefinedRule name) s)
  noted : ∀ {a b}, tidy a b → tidy a.noted b.noted
  andThen : ∀ {a b c d}, loose a b → loose c d → loose (a.andThen c) (b.andThen d)
  orElse : ∀ {a b c d}, tidy a b → tidy c d → tidy (a.orElse c) (b.orElse d)
  optional : ∀ {a b}, loose a b → tidy a.optional b.optional
  attempt : ∀ {a b}, loose a b → tidy a.attempt b.attempt
  look : ∀ {a b} polarity, tidy a b → tidy (a.look polarity) (b.look polarity)
  capture : ∀ {a b}, tidy a b → tidy a.capture b.capture
  repeatedly : ∀ {a b}, tidy a b → tidy (x.repeatedly a) (x.repeatedly b)
  loop : ∀ {a b} room, tidy a b → tidy (x.loop room a) (x.loop room b)
  inGaps : ∀ {a b}, tidy a b → tidy a.inGaps b.inGaps
  inRule : ∀ {a b} name, tidy a b → tidy (a.inRule name) (b.inRule name)
  inAtomicity : ∀ {a b} mode, tidy a b → tidy (a.inAtomicity mode) (b.inAtomicity mode)
  peek : tidy (Builtin.peek.run x) (Builtin.peek.run x)
  pop : tidy (Builtin.pop.run x) (Builtin.pop.run x)

/-- Calls respect these relations too, however deep they nest. -/
structure CallCongruence (x : Subject) (loose tidy : Recogniser → Recogniser → Prop) : Prop
    extends Congruence x loose tidy where
  exhausted : tidy (fun _ _ => .exhausted) (fun _ _ => .exhausted)
  inCall : ∀ {a b} name, tidy a b → tidy (a.inCall name) (b.inCall name)

namespace Congruence

variable {x : Subject} {loose tidy : Recogniser → Recogniser → Prop} (h : Congruence x loose tidy)
variable {a b c d : Recogniser} {g : Grammar} {call call' : Caller}

include h

theorem nothing : tidy .nothing .nothing :=
  h.ofMatcher fun _ => Or.inr ⟨0, Nat.zero_le _, rfl⟩

theorem operators : Operators x loose tidy :=
  { h with nothing := h.nothing }

theorem gap (hc : ∀ name, tidy (call name) (call' name)) : tidy (g.gap x call) (g.gap x call') := by
  have hw := h.repeatedly (hc whitespaceName)
  unfold Grammar.gap
  cases g.hasWhitespace <;> cases g.hasComment
  · exact h.nothing
  · exact h.repeatedly (hc commentName)
  · exact hw
  · exact h.attempt (h.andThen (h.loosen hw) (h.loosen
      (h.repeatedly (h.attempt (h.andThen (h.loosen (hc commentName)) (h.loosen hw))))))

theorem separators (hc : ∀ name, tidy (call name) (call' name)) :
    tidy (g.separators x call) (g.separators x call') := by
  rw [g.separators_eq, g.separators_eq]
  exact h.inGaps (h.gap hc)

theorem expr (hc : ∀ name, tidy (call name) (call' name)) (e : Expr) :
    tidy (e.run g x call) (e.run g x call') := by
  refine h.operators.expr (h.loosen (h.separators hc)) fun d _ hd => ?_
  cases d with
  | literal l => exact h.noted (h.ofMatcher (x.forward_text l.text))
  | folded l => exact h.noted (h.ofMatcher (x.forward_foldedText l.text))
  | range r => exact h.noted (h.ofMatcher (x.forward_runeIn r.low r.high))
  | ref name => exact h.noted (hc name)
  | scan l ls => exact h.noted (h.ofMatcher (x.forward_skipUntilAny l.text (ls.map Literal.text)))
  | look | seq | choice | optional | repeated | capture => exact hd.elim

theorem builtin (b : Builtin) : tidy (b.run x) (b.run x) := by
  cases b with
  | any => exact h.ofMatcher (x.forward_skip 1)
  | endOfInput => exact h.inRule _ (h.ofMatcher x.forward_atEnd)
  | startOfInput => exact h.ofMatcher x.forward_atStart
  | peek => exact h.peek
  | pop => exact h.pop

theorem ruleOfBody {r : Rule} (hb : tidy (r.body.run g x call) (r.body.run g x call')) :
    tidy (r.run g x call) (r.run g x call') := by
  rw [r.run_eq_foldr, r.run_eq_foldr]
  exact RuleScope.foldr_around (fun rule _ _ => h.inRule rule) (fun mode _ _ _ => h.inAtomicity mode) hb

theorem rule (hc : ∀ name, tidy (call name) (call' name)) (r : Rule) :
    tidy (r.run g x call) (r.run g x call') := h.ruleOfBody (h.expr hc r.body)

theorem resolve (hc : ∀ name, tidy (call name) (call' name)) (name : Octets) :
    tidy (g.resolve x call name) (g.resolve x call' name) := by
  unfold Grammar.resolve
  split
  · exact h.builtin _
  · split
    · exact h.rule hc _
    · exact h.undefinedRule _

end Congruence

namespace CallCongruence

variable {x : Subject} {loose tidy : Recogniser → Recogniser → Prop} (h : CallCongruence x loose tidy) {g : Grammar}

include h

theorem caller_succ {n m : Nat} (hc : ∀ name, tidy (g.caller x n name) (g.caller x m name)) (name : Octets) :
    tidy (g.caller x (n + 1) name) (g.caller x (m + 1) name) :=
  h.noted (h.inCall name (h.resolve hc name))

theorem caller (g : Grammar) (n : Nat) (name : Octets) : tidy (g.caller x n name) (g.caller x n name) := by
  induction n generalizing name with
  | zero => exact h.exhausted
  | succ n ih => exact h.caller_succ ih name

theorem run (e : Expr) (g : Grammar) (n : Nat) :
    tidy (e.run g x (g.caller x n)) (e.run g x (g.caller x n)) := h.expr (h.caller g n) e

end CallCongruence

end Peg
