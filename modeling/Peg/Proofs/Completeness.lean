import Peg.Proofs.Simulation
import Peg.Proofs.Spans
import Peg.Proofs.Tasks

namespace Peg

namespace Recogniser

/-- In every state with this mode and these captures, and without a call limit, such a recogniser ends as
the answer says. -/
def Yields (r : Recogniser) (m : Atomicity) (p : Nat) (c : List Span) (a : Answer) : Prop :=
  ∀ ⦃s : State⦄, s.atomicity = m → s.captures.items = c → s.callLimit = 0 → (r p s).Answers s a

variable {x : Subject} {r r' : Recogniser} {m : Atomicity} {p q n k : Nat} {c c' : List Span} {a : Answer}
  {f : Forest} {room : Option Nat}

theorem yields_ofMatcher (w : Matcher) (m : Atomicity) (p : Nat) (c : List Span) :
    (ofMatcher w).Yields m p c (.ofMatch c (w p)) := by
  intro s _ hc _
  rw [← hc]
  exact .ofMatch s (w p)

theorem yields_nothing (m : Atomicity) (p : Nat) (c : List Span) : nothing.Yields m p c (.ok p c .nil) :=
  yields_ofMatcher .matched m p c

theorem Yields.noted (h : r.Yields m p c a) : r.noted.Yields m p c a := fun _ hm hc hl => (h hm hc hl).noted

theorem Yields.attempt (h : r.Yields m p c a) : r.attempt.Yields m p c a :=
  fun _ hm hc hl => (h hm hc hl).attempt _ p

theorem Yields.both_first (h : r.Yields m p c a) (ha : a.Stops) (r' : Recogniser) :
    (r.andThen r').Yields m p c a := fun _ hm hc hl => (h hm hc hl).first ha r'

theorem Yields.both (h : r.Yields m p c (.ok q c' f)) (hf : r.Framed x) (h' : r'.Yields m q c' a) :
    (r.andThen r').Yields m p c (a.behind f) := by
  intro s hm hc hl
  have ha := h hm hc hl
  rw [andThen]
  generalize hr : r p s = o at ha
  cases ha with
  | matched hv =>
      have hg := (hf hr).1
      exact (h' (hg.atomicity.trans hm) rfl (hg.callLimit.trans hl)).behind hv hg.lookahead

theorem Yields.orElse_first (h : r.Yields m p c a) (ha : a ≠ .fail) (r' : Recogniser) :
    (r.orElse r').Yields m p c a := by
  intro s hm hc hl
  have hs := h hm hc hl
  rw [orElse]
  generalize r p s = o at hs
  cases hs with
  | matched hv => exact .matched hv
  | failed => exact absurd rfl ha
  | raised => exact .raised

theorem Yields.orElse_second (h : r.Yields m p c .fail) (ht : r.Tidy x) (h' : r'.Yields m p c a) :
    (r.orElse r').Yields m p c a := by
  intro s hm hc hl
  have hs := h hm hc hl
  rw [orElse]
  generalize hr : r p s = o at hs
  cases hs with
  | failed =>
      have hv := ht.restores hr
      have hg := hv.grows
      exact (h' (hg.atomicity.trans hm) (hv.items.trans hc) (hg.callLimit.trans hl)).restores hv

theorem Yields.optional (h : r.Yields m p c a) (ht : r.Tidy x) : r.optional.Yields m p c (a.orNothing p c) := by
  intro s hm hc hl
  have ho := (h hm hc hl).optional ht.restores p
  rw [hc] at ho
  exact ho

theorem Yields.look (h : r.Yields m p c a) (hf : r.Framed x) (polarity : Polarity) :
    (r.look polarity).Yields m p c (a.lookedAhead p c polarity) := by
  intro s hm hc hl
  have ha := h (s := s.lookInto polarity) hm hc hl
  rw [← hc]
  exact ha.look (fun hd => (hf hd).1) p

theorem Yields.capture (h : r.Yields m p c a) : r.capture.Yields m p c (a.captured p) :=
  fun _ hm hc hl => (h hm hc hl).capture p

theorem Yields.enclosed {w : Recogniser → Recogniser} {inside : Atomicity → Atomicity}
    {outside : Atomicity → Nat → Answer → Answer} (hw : Encloses w inside outside)
    (h : r.Yields (inside m) p c a) : (w r).Yields m p c (outside m p a) := by
  intro s hm hc hl
  obtain ⟨t, k, hk, htm, htc, htl, ha⟩ := hw r p s
  rw [hm] at htm ha
  rw [hk]
  exact ha (h htm (htc ▸ hc) (htl.trans hl))

theorem Yields.inCall (h : r.Yields m p c a) (name : Octets) : (r.inCall name).Yields m p c a := by
  intro s hm hc hl
  have hn : ¬s.AtCallLimit := fun ha => ha.1 hl
  rw [Recogniser.inCall, if_neg hn]
  exact (h (s := s.enterCall ⟨name, p⟩) hm hc hl).leaveCall

theorem Yields.inGaps (h : r.Yields .nonAtomic p c a) : r.inGaps.Yields .nonAtomic p c a := by
  intro s hm hc hl
  rw [Recogniser.inGaps, if_neg fun hn => hn hm]
  exact h hm hc hl

theorem yields_inGaps (r : Recogniser) (hm : m ≠ .nonAtomic) (p : Nat) (c : List Span) :
    r.inGaps.Yields m p c (.ok p c .nil) := by
  intro s hs hc hl
  rw [← hs] at hm
  rw [Recogniser.inGaps, if_pos hm]
  exact yields_nothing m p c hs hc hl

/-- A loop that has come to an end does the same with more steps at hand. -/
theorem loop_eq_of_le {s : State} (h : r.loop n room p s ≠ .exhausted) (hk : n ≤ k) :
    r.loop k room p s = r.loop n room p s := by
  induction n generalizing k room p s with
  | zero => exact absurd rfl h
  | succ n ih =>
      obtain ⟨k, rfl⟩ := Nat.exists_eq_add_of_le' (Nat.le_trans (Nat.le_add_left 1 n) hk)
      unfold loop at h ⊢
      split
      · rfl
      · rename_i hroom
        rw [if_neg hroom] at h
        generalize r p s = o at h ⊢
        rcases o with ⟨q | q, t⟩ | ⟨e, t⟩ | _
        · by_cases hq : q ≤ p
          · simp only [if_pos hq]
          · simp only [if_neg hq] at h ⊢
            exact ih h (Nat.le_of_succ_le_succ hk)
        · rfl
        · rfl
        · rfl

theorem Yields.of_loop_le (h : (r.loop n room).Yields m p c a) (hk : n ≤ k) : (r.loop k room).Yields m p c a := by
  intro s hm hc hl
  have ha := h hm hc hl
  have hn : r.loop n room p s ≠ .exhausted := by
    intro hn
    rw [hn] at ha
    cases ha
  rw [loop_eq_of_le hn hk]
  exact ha

theorem yields_loop_full (r : Recogniser) (n : Nat) (m : Atomicity) (p : Nat) (c : List Span) :
    (r.loop (n + 1) (some 0)).Yields m p c (.ok p c .nil) := by
  intro s hm hc hl
  rw [loop, if_pos rfl]
  exact yields_nothing m p c hm hc hl

theorem Yields.loop_failed (h : r.Yields m p c .fail) (ht : r.Tidy x) (hroom : room ≠ some 0) (n : Nat) :
    (r.loop (n + 1) room).Yields m p c (.ok p c .nil) := by
  intro s hm hc hl
  have ha := h hm hc hl
  rw [loop, if_neg hroom]
  generalize hr : r p s = o at ha
  cases ha with
  | failed =>
      rw [← hc]
      exact .of_restores (ht.restores hr) p

theorem Yields.loop_error {e : RunError} (h : r.Yields m p c (.error e)) (hroom : room ≠ some 0) (n : Nat) :
    (r.loop (n + 1) room).Yields m p c (.error e) := by
  intro s hm hc hl
  have ha := h hm hc hl
  rw [loop, if_neg hroom]
  generalize r p s = o at ha
  cases ha with
  | raised => exact .raised

theorem Yields.loop_last (h : r.Yields m p c (.ok q c' f)) (hroom : room ≠ some 0) (hq : q ≤ p) (n : Nat) :
    (r.loop (n + 1) room).Yields m p c (.ok q c' f) := by
  intro s hm hc hl
  have ha := h hm hc hl
  rw [loop, if_neg hroom]
  generalize r p s = o at ha
  cases ha with
  | matched hv =>
      simp only [if_pos hq]
      exact .matched hv

theorem Yields.loop_more (h : r.Yields m p c (.ok q c' f)) (hf : r.Framed x) (hroom : room ≠ some 0) (hq : p < q)
    (hmore : (r.loop n (room.map (· - 1))).Yields m q c' a) :
    (r.loop (n + 1) room).Yields m p c (a.behind f) := by
  intro s hm hc hl
  have ha := h hm hc hl
  rw [loop, if_neg hroom]
  generalize hr : r p s = o at ha
  cases ha with
  | matched hv =>
      have hg := (hf hr).1
      simp only [if_neg (Nat.not_le_of_lt hq)]
      exact (hmore (hg.atomicity.trans hm) rfl (hg.callLimit.trans hl)).behind hv hg.lookahead

/-- Inside a subject a loop has one step at hand for each place to come, and one more. -/
theorem yields_subjectLoop (hp : p ≤ x.size) (h : (r.loop (x.size - p + 1) room).Yields m p c a) :
    (x.loop room r).Yields m p c a := by
  have hn : x.size + 1 - p = x.size - p + 1 := Nat.succ_sub hp
  rw [← hn] at h
  exact h

theorem Yields.subjectLoop_more (h : r.Yields m p c (.ok q c' f)) (hf : r.Framed x) (hroom : room ≠ some 0)
    (hq : p < q) (hx : q ≤ x.size) (hmore : (x.loop (room.map (· - 1)) r).Yields m q c' a) :
    (x.loop room r).Yields m p c (a.behind f) := by
  have hn : (r.loop (x.size + 1 - q) (room.map (· - 1))).Yields m q c' a := hmore
  have hk : x.size + 1 - q ≤ x.size - p := by omega
  exact yields_subjectLoop (by omega) (h.loop_more hf hroom hq (hn.of_loop_le hk))

theorem yields_recallTop_nil (x : Subject) (b : Builtin) (f : State → State) (m : Atomicity) (p : Nat) :
    (b.recallTop x f).Yields m p [] (.error (.emptyStack b.name)) := by
  intro s _ hc _
  rw [Builtin.recallTop, CaptureStack.top?, hc]
  exact .raised

theorem yields_recallTop_cons (x : Subject) (b : Builtin) {f : State → State} (m : Atomicity) (p : Nat) {span : Span}
    (hf : ∀ s : State, s.captures.items = span :: c → (f s).captures.items = c' ∧ (f s).tokens = s.tokens) :
    (b.recallTop x f).Yields m p (span :: c) (.ofMatch c' (x.text (x.slice span) p)) := by
  intro s _ hc _
  rw [Builtin.recallTop, CaptureStack.top?, hc]
  simp only [List.head?_cons]
  cases x.text (x.slice span) p with
  | failed q => exact .failed
  | matched q =>
      rw [Answer.ofMatch, ← (hf s hc).1]
      exact .matched ((State.Adds.visible_nil s).of_tokens_eq (hf s hc).2)

end Recogniser

/-- The task is done as the answer says wherever calls may nest deep enough. -/
def Task.Found (g : Grammar) (x : Subject) (t : Task) (m : Atomicity) (p : Nat) (c : List Span) (a : Answer) : Prop :=
  ∃ n, ∀ depth ≥ n, (t.run g x (g.caller x depth)).Yields m p c a

namespace Task

variable {g : Grammar} {x : Subject} {t u v : Task} {m m' : Atomicity} {p q : Nat} {c d : List Span}
  {a a' b : Answer}

theorem found (h : ∀ depth, (t.run g x (g.caller x depth)).Yields m p c a) : t.Found g x m p c a :=
  ⟨0, fun depth _ => h depth⟩

theorem Found.map (h : t.Found g x m p c a) (hu : ∀ depth, (t.run g x (g.caller x depth)).Yields m p c a →
    (u.run g x (g.caller x depth)).Yields m p c b) : u.Found g x m p c b := by
  obtain ⟨n, hn⟩ := h
  exact ⟨n, fun depth hd => hu depth (hn depth hd)⟩

/-- Two parts of a task need the larger of their depths. -/
theorem Found.map₂ (h : t.Found g x m p c a) (h' : u.Found g x m q d a')
    (hv : ∀ depth, (t.run g x (g.caller x depth)).Yields m p c a → (u.run g x (g.caller x depth)).Yields m q d a' →
      (v.run g x (g.caller x depth)).Yields m p c b) : v.Found g x m p c b := by
  obtain ⟨n, hn⟩ := h
  obtain ⟨k, hk⟩ := h'
  refine ⟨max n k, fun depth hd => ?_⟩
  obtain ⟨hdn, hdk⟩ := Nat.max_le.mp hd
  exact hv depth (hn depth hdn) (hk depth hdk)

/-- A call needs one level more than what it calls. -/
theorem Found.call {name : Octets} (h : t.Found g x m' p c a')
    (hr : ∀ depth, (t.run g x (g.caller x depth)).Yields m' p c a' →
      (g.resolve x (g.caller x depth) name).Yields m p c a) : (Task.call name).Found g x m p c a := by
  obtain ⟨n, hn⟩ := h
  refine ⟨n + 1, fun depth hd => ?_⟩
  obtain ⟨k, rfl⟩ := Nat.exists_eq_add_of_le' (Nat.le_trans (Nat.le_add_left 1 n) hd)
  exact ((hr k (hn k (Nat.le_of_succ_le_succ hd))).inCall name).noted

theorem found_nothing (g : Grammar) (x : Subject) (m : Atomicity) (p : Nat) (c : List Span) :
    nothing.Found g x m p c (.ok p c .nil) := found fun _ => Recogniser.yields_nothing m p c

theorem found_builtin {b : Builtin} (h : (b.run x).Yields m p c a) : (call b.name).Found g x m p c a := by
  refine (found_nothing g x m p c).call fun depth _ => ?_
  rw [Grammar.resolve, b.ofName?_name]
  exact h

theorem found_scan {l : Literal} {ls : List Literal} (a : Answer)
    (h : a = .ofMatch c (x.skipUntilAny l.text (ls.map Literal.text) p)) : (expr (.scan l ls)).Found g x m p c a := by
  rw [h]
  exact found fun _ => (Recogniser.yields_ofMatcher _ m p c).noted

end Task

/-- What the meaning says is found, unless calls are cut off too early. -/
theorem Eval.complete {g : Grammar} {x : Subject} {m : Atomicity} {t : Task} {p : Nat} {c : List Span} {a : Answer}
    (h : Eval g x m t p c a) (hp : p ≤ x.size) : t.Found g x m p c a := by
  have ht := fun depth => g.tidy_caller x depth
  have hf := fun depth t => Task.framed_run (g := g) (ht depth) t
  induction h with
  | literal | folded | range => exact Task.found fun _ => (Recogniser.yields_ofMatcher _ _ _ _).noted
  | @scan_found m k l ls p c q hk hq hleast =>
      have hs : x.skipUntilAny l.text (ls.map Literal.text) p = .matched q := by
        rw [x.skipUntilAny_eq_matched, ← List.map_cons]
        refine ⟨⟨_, List.mem_map_of_mem hk, hq⟩, fun u hu => ?_⟩
        obtain ⟨j, hj, rfl⟩ := List.mem_map.mp hu
        exact hleast j hj
      exact Task.found_scan _ (by rw [hs, Answer.ofMatch])
  | @scan_missed m l ls p c hall =>
      have hs : x.skipUntilAny l.text (ls.map Literal.text) p = .failed p := by
        rw [x.skipUntilAny_eq_failed, ← List.map_cons]
        intro u hu
        obtain ⟨j, hj, rfl⟩ := List.mem_map.mp hu
        exact hall j hj
      exact Task.found_scan _ (by rw [hs, Answer.ofMatch])
  | ref _ ih => exact (ih hp).map fun _ hy => hy.noted
  | @look m e p c a polarity _ ih => exact (ih hp).map fun depth hy => (hy.look (hf depth (.expr e)) polarity).noted
  | seq _ ih => exact (ih hp).map fun _ hy => hy.attempt.noted
  | choice_first _ ha ih => exact (ih hp).map fun _ hy => (hy.orElse_first ha _).noted
  | @choice_second m d e p c a _ _ ihd ihe =>
      exact (ihd hp).map₂ (ihe hp) fun depth hy hz => (hy.orElse_second (Task.tidy_expr (ht depth) d) hz).noted
  | @optional m e p c a _ ih =>
      exact (ih hp).map fun depth hy => (hy.optional (Task.tidy_expr (ht depth) e)).noted
  | @repeated_never m count e p c hc =>
      refine Task.found fun depth => ?_
      have hn : x.counted (g.separators x (g.caller x depth)) (e.run g x (g.caller x depth)) count.min count.max? =
          .nothing := if_pos hc
      rw [Task.run, Expr.run, hn]
      exact (Recogniser.yields_nothing m p c).noted
  | @repeated m count e p c a hc _ ih =>
      refine (ih hp).map fun depth hy => ?_
      rw [Task.run, Expr.run, Task.counted_eq g x _ count e hc]
      by_cases hmin : count.min = 0
      · rw [if_pos hmin, if_pos hmin]
        exact (hy.optional (Task.tidy_occurrences (ht depth) hmin e)).attempt.noted
      · rw [if_neg hmin, if_neg hmin]
        exact hy.attempt.noted
  | capture _ ih => exact (ih hp).map fun _ hy => hy.capture.noted
  | any | startOfInput => exact Task.found_builtin (Recogniser.yields_ofMatcher _ _ _ _)
  | @endOfInput m p c =>
      exact Task.found_builtin ((Recogniser.yields_ofMatcher x.atEnd m p c).enclosed (Recogniser.encloses_inRule _))
  | @peek_empty m p => exact Task.found_builtin (Recogniser.yields_recallTop_nil x .peek id m p)
  | @pop_empty m p => exact Task.found_builtin (Recogniser.yields_recallTop_nil x .pop _ m p)
  | @peek m p span c =>
      exact Task.found_builtin (Recogniser.yields_recallTop_cons x .peek m p fun s hs => ⟨hs, rfl⟩)
  | @pop m p span c =>
      exact Task.found_builtin (Recogniser.yields_recallTop_cons x .pop m p fun s hs =>
        ⟨s.captures.items_pop.trans (congrArg List.tail hs), rfl⟩)
  | @undefinedRule m name p c hb hr =>
      refine (Task.found_nothing g x m p c).call fun _ _ => ?_
      rw [Grammar.resolve, hb, hr]
      exact fun _ _ _ _ => .raised
  | @rule m name r p c a hb hr _ ih =>
      obtain ⟨w, hw, hwe⟩ := r.encloses
      refine (ih hp).call fun depth hy => ?_
      simp only [Grammar.resolve, hb, hr, hw]
      exact hy.enclosed hwe
  | @skip_nothing m p c hm =>
      refine Task.found fun depth => ?_
      rw [Task.run, g.separators_eq]
      exact Recogniser.yields_inGaps _ hm p c
  | skip _ ih =>
      refine (ih hp).map fun depth hy => ?_
      rw [Task.run, g.separators_eq, Task.gap_eq (ht depth)]
      exact hy.inGaps
  | @nothing m p c => exact Task.found_nothing g x m p c
  | both_first _ ha ih => exact (ih hp).map fun _ hy => hy.both_first ha _
  | @both m t u p c q c' f a het _ iht ihu =>
      exact (iht hp).map₂ (ihu (het.spans.1.2 hp)) fun depth hy hz => hy.both (hf depth t) hz
  | @many_full m t p c =>
      exact Task.found fun _ => Recogniser.yields_subjectLoop hp (Recogniser.yields_loop_full _ _ m p c)
  | @many_failed m room t p c hr _ ih =>
      refine (ih hp).map fun depth hy => Recogniser.yields_subjectLoop hp ?_
      exact hy.attempt.loop_failed (hf depth t).attempt hr _
  | many_error hr _ ih =>
      exact (ih hp).map fun _ hy => Recogniser.yields_subjectLoop hp (hy.attempt.loop_error hr _)
  | many_last hr _ hq ih =>
      exact (ih hp).map fun _ hy => Recogniser.yields_subjectLoop hp (hy.attempt.loop_last hr hq _)
  | @many_more m room t p c q c' f a hr het hq _ ih ihm =>
      have hx := het.spans.1.2 hp
      exact (ih hp).map₂ (ihm hx) fun depth hy hz =>
        hy.attempt.subjectLoop_more (hf depth t).attempt.framed hr hq hx hz

end Peg
