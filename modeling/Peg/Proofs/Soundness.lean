import Peg.Proofs.Simulation
import Peg.Proofs.Tasks

namespace Peg

/-- A run that was cut off, for want of steps or by a call limit, says nothing about the grammar. -/
def Outcome.CutOff (limit : Nat) : Outcome State → Prop
  | .done _ _ => False
  | .raised e _ => e = .callDepth ∧ limit ≠ 0
  | .exhausted => True

namespace Outcome.CutOff

variable {o : Outcome State} {limit : Nat}

theorem andThen (h : o.CutOff limit) (k : Nat → State → Outcome State) : (o.andThen k).CutOff limit := by
  cases o with
  | done => exact absurd h id
  | raised | exhausted => exact h

theorem orElse (h : o.CutOff limit) (k : Nat → State → Outcome State) : (o.orElse k).CutOff limit := by
  cases o with
  | done => exact absurd h id
  | raised | exhausted => exact h

theorem mapMatch (h : o.CutOff limit) (f : Match → Match) : (o.mapMatch f).CutOff limit := by
  cases o with
  | done => exact absurd h id
  | raised | exhausted => exact h

theorem leave (h : o.CutOff limit) (f : Match → State → State) : (o.leave f).CutOff limit := by
  cases o with
  | done => exact absurd h id
  | raised | exhausted => exact h

end Outcome.CutOff

namespace Recogniser

/-- Unless it is cut off, such a recogniser ends as the meaning of the task says. -/
def Follows (g : Grammar) (x : Subject) (t : Task) (r : Recogniser) : Prop :=
  ∀ p s, (r p s).CutOff s.callLimit ∨
    ∃ a, Eval g x s.atomicity t p s.captures.items a ∧ (r p s).Answers s a

variable {g : Grammar} {x : Subject} {t u : Task} {r r' : Recogniser} {d e : Expr}

theorem Follows.mono (h : r.Follows g x t)
    (hu : ∀ ⦃m p c a⦄, Eval g x m t p c a → Eval g x m u p c a) : r.Follows g x u := by
  intro p s
  rcases h p s with hc | ⟨a, he, ha⟩
  · exact .inl hc
  · exact .inr ⟨a, hu he, ha⟩

theorem follows_ofMatcher {w : Matcher} (hw : ∀ ⦃m p c⦄, Eval g x m t p c (.ofMatch c (w p))) :
    (ofMatcher w).Follows g x t := fun p s => .inr ⟨_, @hw _ p _, .ofMatch s (w p)⟩

theorem Follows.noted (h : r.Follows g x t) : r.noted.Follows g x t := by
  intro p s
  rcases h p s with hc | ⟨a, he, ha⟩
  · exact .inl (hc.leave _)
  · exact .inr ⟨a, he, ha.noted⟩

theorem Follows.attempt (h : r.Follows g x t) : r.attempt.Follows g x t := by
  intro p s
  rcases h p s with hc | ⟨a, he, ha⟩
  · exact .inl ((hc.leave _).mapMatch _)
  · exact .inr ⟨a, he, ha.attempt _ _⟩

theorem Follows.both (h : r.Follows g x t) (hf : r.Framed x) (h' : r'.Follows g x u) :
    (r.andThen r').Follows g x (.both t u) := by
  intro p s
  rw [Recogniser.andThen]
  rcases h p s with hc | ⟨a, he, ha⟩
  · exact .inl (hc.andThen _)
  · generalize hr : r p s = o at ha
    cases ha with
    | @matched q v f hv =>
        have hg := (hf hr).1
        rcases h' q v with hc | ⟨b, hb, hab⟩
        · rw [hg.callLimit] at hc
          exact .inl hc
        · rw [hg.atomicity] at hb
          exact .inr ⟨b.behind f, .both he hb, hab.behind hv hg.lookahead⟩
    | failed => exact .inr ⟨.fail, .both_first he trivial, .failed⟩
    | @raised e v => exact .inr ⟨.error e, .both_first he trivial, .raised⟩

theorem Follows.orElse (h : r.Follows g x (.expr d)) (ht : r.Tidy x) (h' : r'.Follows g x (.expr e)) :
    (r.orElse r').Follows g x (.expr (.choice d e)) := by
  intro p s
  rw [Recogniser.orElse]
  rcases h p s with hc | ⟨a, he, ha⟩
  · exact .inl (hc.orElse _)
  · generalize hr : r p s = o at ha
    cases ha with
    | matched hv => exact .inr ⟨_, .choice_first he nofun, .matched hv⟩
    | @failed q v =>
        have hv := ht.restores hr
        rcases h' p v with hc | ⟨b, hb, hab⟩
        · rw [hv.grows.callLimit] at hc
          exact .inl hc
        · rw [hv.grows.atomicity, hv.items] at hb
          exact .inr ⟨b, .choice_second he hb, hab.restores hv⟩
    | raised => exact .inr ⟨_, .choice_first he nofun, .raised⟩

theorem Follows.optional (h : r.Follows g x t) (ht : r.Tidy x)
    (hu : ∀ ⦃m p c a⦄, Eval g x m t p c a → Eval g x m u p c (a.orNothing p c)) : r.optional.Follows g x u := by
  intro p s
  rcases h p s with hc | ⟨a, he, ha⟩
  · exact .inl (hc.mapMatch _)
  · exact .inr ⟨_, hu he, ha.optional ht.restores p⟩

theorem Follows.look (h : r.Follows g x (.expr e)) (hf : r.Framed x) (polarity : Polarity) :
    (r.look polarity).Follows g x (.expr (.look polarity e)) := by
  intro p s
  rcases h p (s.lookInto polarity) with hc | ⟨a, he, ha⟩
  · exact .inl ((hc.leave _).mapMatch _)
  · exact .inr ⟨_, .look polarity he, ha.look (fun hd => (hf hd).1) p⟩

theorem Follows.capture (h : r.Follows g x (.expr e)) : r.capture.Follows g x (.expr (.capture e)) := by
  intro p s
  rcases h p s with hc | ⟨a, he, ha⟩
  · exact .inl (hc.andThen _)
  · exact .inr ⟨_, .capture he, ha.capture p⟩

theorem Follows.enclosed {w : Recogniser → Recogniser} {inside : Atomicity → Atomicity}
    {outside : Atomicity → Nat → Answer → Answer} (h : r.Follows g x t) (hw : Encloses w inside outside)
    (hu : ∀ ⦃m p c a⦄, Eval g x (inside m) t p c a → Eval g x m u p c (outside m p a)) :
    (w r).Follows g x u := by
  intro p s
  obtain ⟨v, k, hk, hm, hc, hl, ha⟩ := hw r p s
  rw [hk]
  rcases h p v with hr | ⟨a, he, hv⟩
  · rw [hl] at hr
    exact .inl (hr.leave _)
  · rw [hm, hc] at he
    exact .inr ⟨_, hu he, ha hv⟩

theorem Follows.inCall (h : r.Follows g x t) (name : Octets) : (r.inCall name).Follows g x t := by
  intro p s
  rw [Recogniser.inCall]
  by_cases hl : s.AtCallLimit
  · rw [if_pos hl]
    exact .inl ⟨rfl, hl.1⟩
  · rw [if_neg hl]
    rcases h p (s.enterCall ⟨name, p⟩) with hc | ⟨a, he, ha⟩
    · exact .inl (hc.leave _)
    · exact .inr ⟨a, he, ha.leaveCall⟩

theorem Follows.loop (h : r.Follows g x t) (ht : r.Tidy x) (n : Nat) (room : Option Nat) :
    (r.loop n room).Follows g x (.many room t) := by
  induction n generalizing room with
  | zero => exact fun _ _ => .inl trivial
  | succ n ih =>
      intro p s
      rw [Recogniser.loop]
      by_cases hroom : room = some 0
      · rw [if_pos hroom, hroom]
        exact .inr ⟨_, .many_full, .of_restores (.refl s) p⟩
      · rw [if_neg hroom]
        rcases h p s with hc | ⟨a, he, ha⟩
        · generalize r p s = o at hc
          cases o with
          | done => exact absurd hc id
          | raised | exhausted => exact .inl hc
        · generalize hr : r p s = o at ha
          cases ha with
          | @matched q v f hv =>
              -- The rest of the loop starts in the state that this round has left.
              have hg := (ht.framed hr).1
              by_cases hq : q ≤ p
              · simp only [if_pos hq]
                exact .inr ⟨_, .many_last hroom he hq, .matched hv⟩
              · simp only [if_neg hq]
                rcases ih (room.map (· - 1)) q v with hc | ⟨b, hb, hab⟩
                · rw [hg.callLimit] at hc
                  exact .inl hc
                · rw [hg.atomicity] at hb
                  exact .inr ⟨b.behind f, .many_more hroom he (Nat.lt_of_not_le hq) hb,
                    hab.behind hv hg.lookahead⟩
          | failed => exact .inr ⟨_, .many_failed hroom he, .of_restores (ht.restores hr) p⟩
          | raised => exact .inr ⟨_, .many_error hroom he, .raised⟩

theorem Follows.many (h : r.Follows g x t) (hf : r.Framed x) (room : Option Nat) :
    (x.loop room r.attempt).Follows g x (.many room t) := fun p s => h.attempt.loop hf.attempt _ room p s

theorem follows_nothing : nothing.Follows g x .nothing :=
  fun p s => .inr ⟨_, .nothing, .of_restores (.refl s) p⟩

theorem follows_scan (g : Grammar) (x : Subject) (l : Literal) (ls : List Literal) :
    (ofMatcher (x.skipUntilAny l.text (ls.map Literal.text))).Follows g x (.expr (.scan l ls)) := by
  refine follows_ofMatcher fun m p c => ?_
  cases h : x.skipUntilAny l.text (ls.map Literal.text) p with
  | matched q =>
      rw [x.skipUntilAny_eq_matched, ← List.map_cons] at h
      obtain ⟨⟨u, hu, hq⟩, hleast⟩ := h
      obtain ⟨k, hk, rfl⟩ := List.mem_map.mp hu
      exact .scan_found hk hq fun j hj r hr => hleast _ (List.mem_map_of_mem hj) r hr
  | failed q =>
      have hq := (x.forward_skipUntilAny _ _).eq_of_failed h
      rw [hq, x.skipUntilAny_eq_failed, ← List.map_cons] at h
      exact .scan_missed fun k hk => h _ (List.mem_map_of_mem hk)

theorem Follows.inGaps (h : r.Follows g x g.gapTask) : r.inGaps.Follows g x .skip := by
  intro p s
  rw [Recogniser.inGaps]
  by_cases hm : s.atomicity = .nonAtomic
  · rw [if_neg fun hn => hn hm]
    rcases h p s with hc | ⟨a, he, ha⟩
    · exact .inl hc
    · rw [hm] at he ⊢
      exact .inr ⟨a, .skip he, ha⟩
  · rw [if_pos hm]
    exact .inr ⟨_, .skip_nothing hm, .of_restores (.refl s) p⟩

/-- `pick` is what becomes of the captures when the text of the top one has matched. -/
theorem follows_recallTop (b : Builtin) {f : State → State} {pick : List Span → List Span}
    (hf : ∀ s, (f s).captures.items = pick s.captures.items ∧ (f s).tokens = s.tokens)
    (hempty : ∀ ⦃m p⦄, Eval g x m t p [] (.error (.emptyStack b.name)))
    (htop : ∀ ⦃m p span c⦄, Eval g x m t p (span :: c)
      (.ofMatch (pick (span :: c)) (x.text (x.slice span) p))) : (b.recallTop x f).Follows g x t := by
  intro p s
  rw [Builtin.recallTop, CaptureStack.top?]
  cases hc : s.captures.items with
  | nil => exact .inr ⟨_, @hempty _ p, .raised⟩
  | cons span c =>
      refine .inr ⟨_, @htop _ p _ _, ?_⟩
      simp only [List.head?_cons]
      cases x.text (x.slice span) p with
      | failed q => exact .failed
      | matched q =>
          rw [← hc, Answer.ofMatch, ← (hf s).1]
          exact .matched ((State.Adds.visible_nil s).of_tokens_eq (hf s).2)

end Recogniser

namespace Task

theorem follows_builtin (g : Grammar) (x : Subject) (b : Builtin) : (b.run x).Follows g x (.call b.name) := by
  cases b with
  | any => exact Recogniser.follows_ofMatcher fun _ _ _ => .any
  | startOfInput => exact Recogniser.follows_ofMatcher fun _ _ _ => .startOfInput
  | endOfInput =>
      intro p s
      obtain ⟨t, k, hk, -, hc, -, ha⟩ :=
        Recogniser.encloses_inRule Builtin.endOfInput.name (.ofMatcher x.atEnd) p s
      refine .inr ⟨_, .endOfInput, ?_⟩
      rw [Builtin.run, hk, ← hc]
      exact ha (.ofMatch t (x.atEnd p))
  | peek =>
      have hp : ∀ s : State, (id s).captures.items = id s.captures.items ∧ (id s).tokens = s.tokens :=
        fun _ => ⟨rfl, rfl⟩
      exact Recogniser.follows_recallTop .peek hp (fun _ _ => .peek_empty) fun _ _ _ _ => .peek
  | pop =>
      have hp : ∀ s : State, (s.modifyCaptures CaptureStack.pop).captures.items = s.captures.items.tail ∧
          (s.modifyCaptures CaptureStack.pop).tokens = s.tokens := fun s => ⟨s.captures.items_pop, rfl⟩
      exact Recogniser.follows_recallTop .pop hp (fun _ _ => .pop_empty) fun _ _ _ _ => .pop

variable {g : Grammar} {x : Subject} {call : Caller}

theorem follows_gap (hc : ∀ name, (call name).Follows g x (.call name)) (ht : ∀ name, (call name).Tidy x) :
    (g.gap x call).Follows g x g.gapTask := by
  have hw := (hc whitespaceName).many (ht whitespaceName).framed none
  have hwf := framed_run (g := g) ht (.many none (.call whitespaceName))
  rw [gap_eq ht]
  rw [Grammar.gapTask]
  cases g.hasWhitespace <;> cases g.hasComment
  · exact Recogniser.follows_nothing
  · exact (hc commentName).many (ht commentName).framed none
  · exact hw
  · exact hw.both hwf (((hc commentName).both (ht commentName).framed hw).many
      ((ht commentName).framed.andThen hwf) none)

variable (hc : ∀ name, (call name).Follows g x (.call name)) (ht : ∀ name, (call name).Tidy x)

include hc ht

theorem follows_skip : (g.separators x call).Follows g x .skip := by
  rw [g.separators_eq]
  exact (follows_gap hc ht).inGaps

theorem follows_further {e : Expr} (he : (e.run g x call).Follows g x (.expr e)) (n : Nat) :
    ((further e n).run g x call).Follows g x (further e n) := by
  induction n with
  | zero => exact Recogniser.follows_nothing
  | succ n ih =>
      exact (((follows_skip hc ht).both (framed_run ht .skip) he).both
        (framed_run ht (.both .skip (.expr e))) ih)

theorem follows_occurrences {e : Expr} (he : (e.run g x call).Follows g x (.expr e)) (count : Count) :
    ((occurrences count e).run g x call).Follows g x (occurrences count e) := by
  have hs := (follows_skip hc ht).both (framed_run ht .skip) he
  have hf := he.both (framed_run ht (.expr e)) (follows_further hc ht he (count.min - 1))
  have hff := framed_run ht (g := g) (.both (.expr e) (further e (count.min - 1)))
  exact hf.both hff (hs.many (framed_run ht (.both .skip (.expr e))) _)

theorem follows_counted {e : Expr} (he : (e.run g x call).Follows g x (.expr e)) (count : Count) :
    (x.counted (g.separators x call) (e.run g x call) count.min count.max?).Follows g x
      (.expr (.repeated count e)) := by
  have ho := follows_occurrences hc ht he count
  by_cases hm : count.max? = some 0
  · unfold Subject.counted
    rw [if_pos hm]
    exact fun p s => .inr ⟨_, .repeated_never hm, .of_restores (.refl s) p⟩
  · rw [counted_eq g x call count e hm]
    by_cases hn : count.min = 0
    · rw [if_pos hn]
      refine (ho.optional (tidy_occurrences ht hn e) ?_).attempt
      intro m p c a h
      simpa only [if_pos hn] using Eval.repeated hm h
    · rw [if_neg hn]
      refine ho.attempt.mono ?_
      intro m p c a h
      simpa only [if_neg hn] using Eval.repeated hm h

theorem follows_expr (e : Expr) : (e.run g x call).Follows g x (.expr e) := by
  have hs := follows_skip hc ht
  have hsf := framed_run ht (g := g) .skip
  have hf := fun e => framed_run ht (g := g) (.expr e)
  induction e with
  | literal l => exact (Recogniser.follows_ofMatcher fun _ _ _ => .literal).noted
  | folded l => exact (Recogniser.follows_ofMatcher fun _ _ _ => .folded).noted
  | range r => exact (Recogniser.follows_ofMatcher fun _ _ _ => .range).noted
  | ref name => exact ((hc name).mono fun _ _ _ _ h => .ref h).noted
  | look polarity e ih => exact (ih.look (hf e) polarity).noted
  | seq d e ihd ihe =>
      exact (((ihd.both (hf d) (hs.both hsf ihe)).attempt).mono fun _ _ _ _ h => .seq h).noted
  | choice d e ihd ihe => exact (ihd.orElse (tidy_expr ht d) ihe).noted
  | optional e ih => exact (ih.optional (tidy_expr ht e) fun _ _ _ _ h => .optional h).noted
  | repeated count e ih => exact (follows_counted hc ht ih count).noted
  | capture e ih => exact ih.capture.noted
  | scan l ls => exact (Recogniser.follows_scan g x l ls).noted

theorem follows_rule {name : Octets} {r : Rule} (hb : Builtin.ofName? name = none)
    (hr : g.find? name = some r) : (r.run g x call).Follows g x (.call name) := by
  obtain ⟨w, hw, hwe⟩ := r.encloses
  rw [hw]
  exact (follows_expr hc ht r.body).enclosed hwe fun _ _ _ _ h => .rule hb hr h

theorem follows_resolve (name : Octets) : (g.resolve x call name).Follows g x (.call name) := by
  rw [Grammar.resolve]
  split
  · rename_i b hb
    have hn := List.find?_some hb
    rw [← of_decide_eq_true hn]
    exact follows_builtin g x b
  · rename_i hb
    split
    · rename_i r hr
      exact follows_rule hc ht hb hr
    · rename_i hr
      exact fun p s => .inr ⟨_, .undefinedRule hb hr, .raised⟩

end Task

theorem Grammar.follows_caller (g : Grammar) (x : Subject) (depth : Nat) (name : Octets) :
    (g.caller x depth name).Follows g x (.call name) := by
  induction depth generalizing name with
  | zero => exact fun _ _ => .inl trivial
  | succ depth ih => exact ((Task.follows_resolve ih (g.tidy_caller x depth) name).inCall name).noted

end Peg
