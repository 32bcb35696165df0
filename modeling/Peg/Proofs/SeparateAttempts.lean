import Peg.Grammar.Written
import Peg.Proofs.Expectations
import Peg.Proofs.Progress

namespace Peg

def Task.callee? : Task → Option Octets
  | .call name => some name
  | .expr _ | .skip | .nothing | .both _ _ | .many _ _ => none

namespace Moment

/-- The name that is called. Where nothing is called it is empty. -/
def callee (m : Moment) : Octets := m.task.callee?.getD []

/-- A call of a rule that has a node where it stands, or of the end of the input outside atomic rules. -/
def HasNode (g : Grammar) (m : Moment) : Prop :=
  (m.task = .call Builtin.endOfInput.name ∧ m.state.atomicity ≠ .atomic) ∨
    ∃ r ∈ g.rules, m.task = .call r.name ∧ r.hasNode m.state.atomicity = true

/-- An attempt is a call with a node that comes out otherwise than is wanted. -/
structure AttemptAt (g : Grammar) (x : Subject) (q : Nat) (m : Moment) : Prop where
  offset : m.offset = q
  hasNode : m.HasNode g
  disappoints : ∃ k t, m.outcome g x = .done k t ∧ m.state.Disappoints k

/-- The later moment is a part of the earlier one, and no attempt at `q` stands between them or is the earlier one. -/
def ContainsOutside (g : Grammar) (x : Subject) (q : Nat) : Moment → Moment → Prop :=
  Relation.ReflTransGen fun m m' => Leads g x m m' ∧ ¬m.AttemptAt g x q

/-- A moment begins with one part and goes on with another one, which begins as the first one has ended. -/
inductive Splits (g : Grammar) (x : Subject) : Moment → Moment → Moment → Prop
  | choice (n d e p s) {q t} (h : outcome g x ⟨n, .expr d, p, s⟩ = .done (.failed q) t) :
      Splits g x ⟨n, .expr (.choice d e), p, s⟩ ⟨n, .expr d, p, s⟩ ⟨n, .expr e, p, t⟩
  | both (n t u p s) {q s'} (h : outcome g x ⟨n, t, p, s⟩ = .done (.matched q) s') :
      Splits g x ⟨n, .both t u, p, s⟩ ⟨n, t, p, s⟩ ⟨n, u, q, s'⟩
  | many (n room t p s) {q s'} (hr : room ≠ some 0) (h : outcome g x ⟨n, t, p, s⟩ = .done (.matched q) s')
      (hq : p < q) : Splits g x ⟨n, .many room t, p, s⟩ ⟨n, t, p, s⟩ ⟨n, .many (room.map (· - 1)) t, q, s'⟩

/-- One part of the moment is over before the other one begins, and where the run comes to the two it is inside no
attempt at `q`, so that none holds them both. -/
def Apart (g : Grammar) (x : Subject) (q : Nat) (m a b : Moment) : Prop :=
  ∃ m₀ first second, m.ContainsOutside g x q m₀ ∧ m₀.Splits g x first second ∧ first.Contains g x a ∧
    second.Contains g x b

/-- The first call finds these names on record for `q` and adds its own, and the others go on from there. -/
inductive Adds (q : Nat) (polarity : Polarity) : List Octets → List Moment → List Octets → Prop
  | nil (names) : Adds q polarity names [] names
  | cons {names m ms late} (hm : m.state.attempts.namesAt q polarity = names)
      (h : Adds q polarity (names ++ [m.callee]) ms late) : Adds q polarity names (m :: ms) late

/-- Attempts inside a moment that account for the names on record behind those there were before it. -/
structure Collects (g : Grammar) (x : Subject) (m : Moment) (a : Attempts) (polarity : Polarity)
    (ms : List Moment) : Prop where
  adds : Adds a.offset polarity (m.state.attempts.namesAt a.offset polarity) ms (a.names polarity).toList
  attempts : ∀ m' ∈ ms, Contains g x m m' ∧ m'.AttemptAt g x a.offset ∧ m'.state.polarity = polarity

/-- What is new on record comes from attempts apart from one another. -/
def Reports (g : Grammar) (x : Subject) (m : Moment) (a : Attempts) : Prop :=
  ∀ polarity, ∃ ms, m.Collects g x a polarity ms ∧ ms.Pairwise (m.Apart g x a.offset)

variable {g : Grammar} {x : Subject} {m m' first second : Moment} {q : Nat} {k : Match} {s t : State} {a : Attempts}
  {polarity : Polarity} {ms ms' : List Moment} {names names' late : List Octets}

namespace Adds

theorem append (h : Adds q polarity names ms names') (h' : Adds q polarity names' ms' late) :
    Adds q polarity names (ms ++ ms') late := by
  induction h with
  | nil => exact h'
  | cons hm _ ih => exact .cons hm (ih h')

theorem eq_append (h : Adds q polarity names ms late) : late = names ++ ms.map callee := by
  induction h with
  | nil => simp
  | cons _ _ ih => simp [ih]

theorem length_le (h : Adds q polarity names ms late) :
    ∀ m ∈ ms, names.length ≤ (m.state.attempts.namesAt q polarity).length := by
  induction h with
  | nil => simp
  | cons hm _ ih =>
      rw [List.forall_mem_cons, hm]
      refine ⟨Nat.le_refl _, fun m hmem => Nat.le_trans ?_ (ih m hmem)⟩
      simp

/-- No call stands there twice, for each one finds more on record than those before it. -/
theorem nodup (h : Adds q polarity names ms late) : ms.Nodup := by
  induction h with
  | nil => exact List.nodup_nil
  | cons hm h ih =>
      refine List.nodup_cons.mpr ⟨fun hmem => ?_, ih⟩
      have hle := h.length_le _ hmem
      rw [hm, List.length_append, List.length_singleton] at hle
      omega

end Adds

theorem not_attemptAt (h : m.task.callee? = none) : ¬m.AttemptAt g x q := by
  rintro ⟨-, ⟨he, -⟩ | ⟨r, -, he, -⟩, -⟩ <;> simp [he, Task.callee?] at h

namespace Splits

theorem leads_first (h : m.Splits g x first second) : Leads g x m first := by
  cases h with
  | choice => exact .choice_first ..
  | both => exact .both_first ..
  | many _ _ _ _ _ hr => exact .many_first _ _ _ _ _ hr

theorem leads_second (h : m.Splits g x first second) : Leads g x m second := by
  cases h with
  | choice _ _ _ _ _ hd => exact .choice_second _ _ _ _ _ hd
  | both _ _ _ _ _ ht => exact .both_second _ _ _ _ _ ht
  | many _ _ _ _ _ hr ht hq => exact .many_more _ _ _ _ _ hr ht hq

theorem state_first (h : m.Splits g x first second) : first.state = m.state := by
  cases h <;> rfl

theorem not_attemptAt (h : m.Splits g x first second) : ¬m.AttemptAt g x q := by
  cases h <;> exact Moment.not_attemptAt rfl

end Splits

theorem Leads.apart {b : Moment} (hl : Leads g x m m') (hm : ¬m.AttemptAt g x q) {a : Moment}
    (h : m'.Apart g x q a b) : m.Apart g x q a b := by
  obtain ⟨m₀, first, second, hc, hs⟩ := h
  exact ⟨m₀, first, second, hc.head ⟨hl, hm⟩, hs⟩

theorem Leads.collects (hl : Leads g x m m') (hs : m'.state.attempts = m.state.attempts)
    (h : m'.Collects g x a polarity ms) : m.Collects g x a polarity ms := by
  obtain ⟨hadds, hattempts⟩ := h
  rw [hs] at hadds
  exact ⟨hadds, fun m'' hm => ⟨(hattempts m'' hm).1.head hl, (hattempts m'' hm).2⟩⟩

theorem Leads.reports (hl : Leads g x m m') (hs : m'.state.attempts = m.state.attempts)
    (hm : ¬m.AttemptAt g x a.offset) (h : m'.Reports g x a) : m.Reports g x a := by
  intro polarity
  obtain ⟨ms, hc, hp⟩ := h polarity
  exact ⟨ms, hl.collects hs hc, hp.imp fun hab => hl.apart hm hab⟩

theorem Collects.length_namesAt (h : m.Collects g x a polarity ms) : (a.namesAt a.offset polarity).length =
    (m.state.attempts.namesAt a.offset polarity).length + ms.length := by
  rw [Attempts.namesAt_offset, h.adds.eq_append, List.length_append, List.length_map]

theorem collects_nil (h : m.state.attempts = a) (polarity : Polarity) : m.Collects g x a polarity [] := by
  refine ⟨?_, by simp⟩
  rw [h, Attempts.namesAt_offset]
  exact .nil _

theorem reports_self : m.Reports g x m.state.attempts :=
  fun polarity => ⟨[], collects_nil rfl polarity, .nil⟩

/-- What the second part puts on record stands behind what the first part did, or the second part has gone further and
all that stands there is its own. -/
theorem Splits.reports (h : m.Splits g x first second) (hle : second.state.attempts.offset ≤ a.offset)
    (h₁ : first.Reports g x second.state.attempts) (h₂ : second.Reports g x a) : m.Reports g x a := by
  intro polarity
  obtain ⟨ms₂, hc₂, hp₂⟩ := h₂ polarity
  replace hp₂ := hp₂.imp fun hab => h.leads_second.apart h.not_attemptAt hab
  have hcontains : ∀ m' ∈ ms₂, Contains g x m m' ∧ m'.AttemptAt g x a.offset ∧ m'.state.polarity = polarity :=
    fun m' hm => ⟨(hc₂.attempts m' hm).1.head h.leads_second, (hc₂.attempts m' hm).2⟩
  by_cases hq : a.offset = second.state.attempts.offset
  · obtain ⟨ms₁, hc₁, hp₁⟩ := h₁ polarity
    have hc := h.leads_first.collects (congrArg State.attempts h.state_first) hc₁
    have hadds := hc₂.adds
    rw [hq, Attempts.namesAt_offset] at hadds
    refine ⟨ms₁ ++ ms₂, ⟨?_, ?_⟩, List.pairwise_append.mpr ⟨?_, hp₂, ?_⟩⟩
    · rw [hq]
      exact hc.adds.append hadds
    · intro m' hm
      rcases List.mem_append.mp hm with hm | hm
      · rw [hq]
        exact hc.attempts m' hm
      · exact hcontains m' hm
    · rw [hq]
      exact hp₁.imp fun hab => h.leads_first.apart h.not_attemptAt hab
    · intro m₁ hm₁ m₂ hm₂
      exact ⟨m, first, second, .refl, h, (hc₁.attempts m₁ hm₁).1, (hc₂.attempts m₂ hm₂).1⟩
  · have hbefore := h.leads_second.learns.attempts.offset_le
    have hadds := hc₂.adds
    rw [Attempts.namesAt_of_ne hq] at hadds
    refine ⟨ms₂, ⟨?_, hcontains⟩, hp₂⟩
    rw [Attempts.namesAt_of_ne (by omega)]
    exact hadds

/-- An attempt leaves one name on record at its offset, its own or that of a single attempt inside it, unless something
inside it was attempted further on. -/
theorem AttemptAt.reports_record (hm : m.AttemptAt g x m.offset) (hlate : m.state.attempts.Precedes a)
    (h : ∀ polarity, ∃ ms, m.Collects g x a polarity ms ∧
      (a.offset ≠ m.offset → ms.Pairwise (m.Apart g x a.offset))) :
    m.Reports g x (a.record m.callee m.state.polarity m.offset (m.state.attempts.countAt m.offset)) := by
  rcases hlate.record_cases m.callee m.state.polarity m.offset with ⟨he, hlt | ⟨hp, hone⟩⟩ | ⟨hp, -, hn⟩
  · rw [he]
    intro polarity
    obtain ⟨ms, hc, hap⟩ := h polarity
    exact ⟨ms, hc, hap (by omega)⟩
  · rw [he]
    obtain ⟨pos, hpos, -⟩ := h .positive
    obtain ⟨neg, hneg, -⟩ := h .negative
    have hsum : pos.length + neg.length = 1 := by
      rw [Attempts.total_countAt, Attempts.total_countAt, ← hp, hpos.length_namesAt, hneg.length_namesAt] at hone
      omega
    have hshort : ∀ {ms : List Moment}, ms.length ≤ 1 → ms.Pairwise (m.Apart g x a.offset) := by
      intro ms hms
      rcases ms with _ | ⟨m', _ | ⟨m'', ms⟩⟩
      · exact .nil
      · exact List.pairwise_singleton ..
      · simp at hms
    intro polarity
    cases polarity with
    | positive => exact ⟨pos, hpos, hshort (by omega)⟩
    | negative => exact ⟨neg, hneg, hshort (by omega)⟩
  · intro polarity
    by_cases hw : polarity = m.state.polarity
    · refine ⟨[m], ⟨?_, ?_⟩, List.pairwise_singleton ..⟩
      · rw [hn, hp, if_pos hw]
        exact .cons rfl (.nil _)
      · rw [hp]
        simpa using ⟨.refl, hm, hw.symm⟩
    · refine ⟨[], ⟨?_, by simp⟩, .nil⟩
      rw [hn, hp, if_neg hw, List.append_nil]
      exact .nil _

theorem attemptAt_rule_iff {n p : Nat} {name : Octets} {r : Rule} (hb : Builtin.ofName? name = none)
    (hf : g.find? name = some r) (h : outcome g x ⟨n, .call name, p, s⟩ = .done k t) :
    AttemptAt g x q ⟨n, .call name, p, s⟩ ↔ p = q ∧ s.Disappoints k ∧ r.hasNode s.atomicity = true := by
  obtain ⟨hr, rfl⟩ := Grammar.find?_eq_some hf
  constructor
  · rintro ⟨hq, hnode, k', t', ho, hd⟩
    rw [h, Outcome.done.injEq] at ho
    obtain ⟨rfl, rfl⟩ := ho
    refine ⟨hq, hd, ?_⟩
    rcases hnode with ⟨he, -⟩ | ⟨r', hr', he, hnode⟩
    · rw [Task.call.inj he, Builtin.ofName?_name] at hb
      cases hb
    · rw [Grammar.eq_of_name_eq hr hr' (Task.call.inj he)]
      exact hnode
  · rintro ⟨hq, hd, hnode⟩
    exact ⟨hq, .inr ⟨r, hr, rfl, hnode⟩, k, t, h, hd⟩

theorem reports_builtin {n p : Nat} {name : Octets} {b : Builtin} (hb : Builtin.ofName? name = some b)
    (hl : ¬s.AtCallLimit) (h : b.run x p (s.enterCall ⟨name, p⟩) = .done k t) (hp : p ≤ x.size) :
    Reports g x ⟨n + 1, .call name, p, s⟩ t.attempts := by
  have ho := (Ends.builtin (g := g) (n := n) hb hl h).outcome_eq hp
  rw [Builtin.attempts_run_eq h]
  split
  next hc =>
    obtain ⟨rfl, hd, ha⟩ := hc
    cases Builtin.name_of_ofName? hb
    have hm : AttemptAt g x p ⟨n + 1, .call Builtin.endOfInput.name, p, s⟩ :=
      ⟨rfl, .inl ⟨rfl, ha⟩, k, _, ho, hd⟩
    exact hm.reports_record (.refl _) fun polarity => ⟨[], collects_nil rfl polarity, fun _ => .nil⟩
  next => exact reports_self

/-- If the call is no attempt, what its body put on record stays there. If it is one, the attempts in the body are no
longer apart from one another, seen from the call, but then at most one of them stays on record. -/
theorem reports_rule {n p : Nat} {name : Octets} {r : Rule} (hb : Builtin.ofName? name = none)
    (hf : g.find? name = some r) (hl : ¬s.AtCallLimit)
    (h : Ends g x ⟨n, .expr r.body, p, r.enter p (s.enterCall ⟨name, p⟩)⟩ k t) (hp : p ≤ x.size)
    (hbody : Reports g x ⟨n, .expr r.body, p, r.enter p (s.enterCall ⟨name, p⟩)⟩ t.attempts) :
    Reports g x ⟨n + 1, .call name, p, s⟩ (r.leave p (s.enterCall ⟨name, p⟩) k t).attempts := by
  have hleads := Leads.rule (g := g) (x := x) n name p s hb hf hl
  have hs : (r.enter p (s.enterCall ⟨name, p⟩)).attempts = s.attempts := by
    rw [r.enter_eq]
    rfl
  have hg := (framed_outcome g x n (.expr r.body) (h.outcome_eq hp)).1
  have hpol : t.polarity = s.polarity := by
    rw [State.polarity, hg.lookahead, r.enter_eq]
    rfl
  have hd : t.Disappoints k ↔ s.Disappoints k := by rw [State.Disappoints, State.Disappoints, hpol]
  have hattempt : ∀ q, AttemptAt g x q ⟨n + 1, .call name, p, s⟩ ↔
      p = q ∧ s.Disappoints k ∧ r.hasNode s.atomicity = true :=
    fun q => attemptAt_rule_iff hb hf ((Ends.rule hb hf hl h).outcome_eq hp)
  rw [r.attempts_leave_eq (s := s.enterCall ⟨name, p⟩) hg.atomicity]
  simp only [hd, hpol, (Grammar.find?_eq_some hf).2]
  split
  next hc =>
    refine ((hattempt p).mpr ⟨rfl, hc⟩).reports_record (hs ▸ (h.learns hp).attempts) fun polarity => ?_
    obtain ⟨ms, hcollects, hap⟩ := hbody polarity
    refine ⟨ms, hleads.collects hs hcollects, fun hne => hap.imp fun hab => hleads.apart (fun hat => ?_) hab⟩
    exact hne hat.offset.symm
  next hc => exact hleads.reports hs (fun hat => hc ((hattempt _).mp hat).2) hbody

/-- By induction on how the moment ends. A form with one part hands its report on, and one with two parts has the
report of the second part behind that of the first one. -/
theorem Ends.reports (h : Ends g x m k t) (hp : m.offset ≤ x.size) : m.Reports g x t.attempts := by
  induction h with
  | test =>
      rw [State.attempts_note]
      exact reports_self
  | ref _ ih =>
      rw [State.attempts_note]
      exact (Leads.ref ..).reports rfl (not_attemptAt rfl) (ih hp)
  | look _ ih =>
      rw [State.attempts_note]
      exact (Leads.look ..).reports rfl (not_attemptAt rfl) (ih hp)
  | seq _ ih =>
      rw [State.attempts_note, State.attempts_rollBack]
      exact (Leads.seq ..).reports rfl (not_attemptAt rfl) (ih hp)
  | choice_first _ ih => exact (Leads.choice_first ..).reports rfl (not_attemptAt rfl) (ih hp)
  | choice_second hd he ihd ihe =>
      rw [State.attempts_note]
      exact (Splits.choice _ _ _ _ _ (hd.outcome_eq hp)).reports (he.learns hp).attempts.offset_le (ihd hp) (ihe hp)
  | optional _ ih => exact (Leads.optional ..).reports rfl (not_attemptAt rfl) (ih hp)
  | repeated_never | skip_nothing | nothing | many_full => exact reports_self
  | repeated_optional hc _ _ ih =>
      exact (Leads.repeated _ _ _ _ _ hc).reports rfl (not_attemptAt rfl) (ih hp)
  | repeated_whole hc _ _ ih =>
      rw [State.attempts_note, State.attempts_rollBack]
      exact (Leads.repeated _ _ _ _ _ hc).reports rfl (not_attemptAt rfl) (ih hp)
  | capture_matched _ ih => exact (Leads.capture ..).reports rfl (not_attemptAt rfl) (ih hp)
  | capture_failed _ ih =>
      rw [State.attempts_note]
      exact (Leads.capture ..).reports rfl (not_attemptAt rfl) (ih hp)
  | @builtin _ _ _ _ _ _ t hb hl h =>
      rw [State.attempts_note]
      change Reports _ _ _ t.attempts
      exact reports_builtin hb hl h hp
  | rule hb hf hl h ih =>
      rw [State.attempts_note]
      exact reports_rule hb hf hl h hp (ih hp)
  | skip hm _ ih => exact (Leads.skip _ _ _ hm).reports rfl (not_attemptAt rfl) (ih hp)
  | both_first _ ih => exact (Leads.both_first ..).reports rfl (not_attemptAt rfl) (ih hp)
  | both ht hu iht ihu =>
      have ho := ht.outcome_eq hp
      have hx := (reaches_of_outcome ho).2 hp
      exact (Splits.both _ _ _ _ _ ho).reports (hu.learns hx).attempts.offset_le (iht hp) (ihu hx)
  | many_failed hr _ ih | many_last hr _ _ ih =>
      exact (Leads.many_first _ _ _ _ _ hr).reports rfl (not_attemptAt rfl) (ih hp)
  | many_more hr h hq hm ih ihm =>
      have ho := h.outcome_eq hp
      have hx := (reaches_of_outcome ho).2 hp
      exact (Splits.many _ _ _ _ _ hr ho hq).reports (hm.learns hx).attempts.offset_le (ih hp) (ihm hx)

end Moment

/-- The names that a failure lists: of what was wanted in vain, or of what was not wanted. -/
def Failure.names (f : Failure) : Polarity → List Octets
  | .positive => f.expected
  | .negative => f.unexpected

theorem State.names_failure (s : State) (x : Subject) (tabs : TabStops) (polarity : Polarity) :
    (s.failure x tabs).names polarity = s.attempts.namesAt s.furthest polarity := by
  cases polarity <;> simp only [Failure.names, failure, Attempts.namesAt, Attempts.names, eq_comm]

/-- A failure lists no attempt twice. The names are those of different attempts where the failure is reported, each one
over before the next one began, and no two of them inside one attempt there. So a name comes again only where its rule
was attempted again. -/
theorem Parser.attempts_apart {p : Parser} {n : Nat} {start text : Octets} {f : Failure}
    (h : p.parse? n start text = some (.ok (.refused f))) :
    let g := p.grammar
    let x := Subject.ofOctets text
    let b := p.beginning n start
    ∀ polarity, ∃ ms : List Moment, f.names polarity = ms.map Moment.callee ∧ ms.Nodup ∧
      ms.Pairwise (b.Apart g x f.offset) ∧
        ∀ m ∈ ms, b.Contains g x m ∧ m.AttemptAt g x f.offset ∧ m.state.polarity = polarity := by
  intro g x b polarity
  obtain ⟨q, s, he, rfl⟩ := ends_of_refused h
  have hoffset : (s.failure x p.tabs).offset = s.furthest := rfl
  rw [s.names_failure, hoffset]
  by_cases hq : s.furthest = s.attempts.offset
  · obtain ⟨ms, hc, hap⟩ := he.reports (Nat.zero_le _) polarity
    have hnone : b.state.attempts.namesAt s.attempts.offset polarity = [] := by
      cases polarity <;> exact ite_self []
    have hnames := hc.adds.eq_append
    rw [hnone, List.nil_append] at hnames
    rw [hq, Attempts.namesAt_offset]
    exact ⟨ms, hnames, hc.adds.nodup, hap, hc.attempts⟩
  · exact ⟨[], Attempts.namesAt_of_ne hq, List.nodup_nil, .nil, by simp⟩

/-- What was attempted twice inside one attempt is listed once, and what was attempted twice outside is listed twice. -/
theorem Parser.attempts_apart_merged :
    let word : Rule := .written "w" .normal (.choice (.rule "b") (.rule "b"))
    let e : Expr := .choice (.rule "w") (.choice (.rule "a") (.rule "a"))
    let p : Parser := { grammar := ⟨[.written "r" .silent e, word, .written "a" .normal (.written "a"),
      .written "b" .normal (.written "b")], by decide, by decide, by decide⟩ }
    let x := Subject.ofOctets (ascii "x")
    let b := p.beginning 3 (ascii "r")
    ∃ f, p.parse? 3 (ascii "r") (ascii "x") = some (.ok (.refused f)) ∧
      f.expected = [ascii "w", ascii "a", ascii "a"] ∧
      ∃ ms : List Moment, f.expected = ms.map Moment.callee ∧ ms.Nodup ∧
        ms.Pairwise (b.Apart p.grammar x f.offset) ∧
          ∀ m ∈ ms, b.Contains p.grammar x m ∧ m.AttemptAt p.grammar x f.offset ∧ m.state.polarity = .positive :=
  ⟨_, rfl, rfl, attempts_apart rfl .positive⟩

/-- Two alternatives that begin with the same rule, of a rule that began further back, make two attempts of it. -/
theorem Parser.exists_names_twice :
    let a : Rule := .written "a" .normal (.written "a")
    let digit : Rule := .written "d" .normal (.writtenRange "0" "9")
    let e : Expr := .choice (.seq (.rule "a") (.written "b")) (.seq (.rule "a") (.written "c"))
    let e' : Expr := .choice (.look .negative (.rule "d")) (.look .negative (.rule "d"))
    let p : Parser := { grammar := ⟨[.written "s" .normal (.seq (.written "x") e),
      .written "t" .normal (.seq (.written "x") e'), a, digit], by decide, by decide, by decide⟩ }
    (∃ f, p.parse? 3 (ascii "s") (ascii "xy") = some (.ok (.refused f)) ∧ ¬f.expected.Nodup ∧
        f.text = ascii "1:2: expected a or a") ∧
      ∃ f, p.parse? 3 (ascii "t") (ascii "x1") = some (.ok (.refused f)) ∧ ¬f.unexpected.Nodup ∧
        f.text = ascii "1:2: unexpected d or d" := by
  intro a digit e e' p
  refine ⟨⟨_, rfl, ?_, ?_⟩, ⟨_, rfl, ?_, ?_⟩⟩ <;> decide +kernel

end Peg
