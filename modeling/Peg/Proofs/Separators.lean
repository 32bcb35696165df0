import Peg.Proofs.Extension
import Peg.Proofs.LeftRecursion

namespace Peg

/-- Reference after reference leads from the name to a builtin that recalls a capture. -/
def Grammar.Recalls (g : Grammar) (name : Octets) : Prop :=
  Relation.ReflTransGen g.Refers name Builtin.peek.name ∨ Relation.ReflTransGen g.Refers name Builtin.pop.name

theorem Grammar.Recalls.head {g : Grammar} {rule name : Octets} (hr : g.Refers rule name) (h : g.Recalls name) :
    g.Recalls rule := h.imp (.head hr) (.head hr)

/-- It is enough to list the rules that are reached. -/
theorem Grammar.not_recalls_of_closed {g : Grammar} {start : Octets} (names : List Octets) (hstart : start ∈ names)
    (hfree : Builtin.ofName? start = none)
    (hclosed : ∀ r ∈ g.rules, r.name ∈ names → Expr.ref Builtin.peek.name ∉ r.body.leaves ∧
      Expr.ref Builtin.pop.name ∉ r.body.leaves ∧
      ∀ r' ∈ g.rules, Expr.ref r'.name ∈ r.body.leaves → r'.name ∈ names) : ¬g.Recalls start := by
  have hreached : ∀ b : Builtin, Relation.ReflTransGen g.Refers start b.name →
      ∃ r ∈ g.rules, r.name ∈ names ∧ Expr.ref b.name ∈ r.body.leaves := by
    intro b hb
    rcases hb.cases_tail with he | ⟨_, hpath, r, hr, rfl, hleaf⟩
    · rw [← he, b.ofName?_name] at hfree
      cases hfree
    · exact ⟨r, hr, mem_of_reached hstart (fun r hr hn => (hclosed r hr hn).2.2) hr hpath, hleaf⟩
  rintro (h | h)
  · obtain ⟨r, hr, hn, hleaf⟩ := hreached .peek h
    exact (hclosed r hr hn).1 hleaf
  · obtain ⟨r, hr, hn, hleaf⟩ := hreached .pop h
    exact (hclosed r hr hn).2.1 hleaf

/-- The states may differ in all but the mode and the number of calls that are active and allowed. -/
structure State.Akin (s t : State) : Prop where
  atomicity : s.atomicity = t.atomicity
  depth : s.calls.length = t.calls.length
  callLimit : s.callLimit = t.callLimit

namespace State

variable {s t u : State}

theorem Akin.symm (h : s.Akin t) : t.Akin s := ⟨h.atomicity.symm, h.depth.symm, h.callLimit.symm⟩

theorem Akin.trans (h : s.Akin t) (h' : t.Akin u) : s.Akin u :=
  ⟨h.atomicity.trans h'.atomicity, h.depth.trans h'.depth, h.callLimit.trans h'.callLimit⟩

theorem Grows.akin (h : s.Grows t) : s.Akin t := ⟨h.atomicity.symm, by rw [h.calls], h.callLimit.symm⟩

theorem abreast_akin : Abreast Akin where
  atCallLimit h := by rw [AtCallLimit, AtCallLimit, h.callLimit, h.depth]
  note m h := by cases m <;> exact ⟨h.atomicity, h.depth, h.callLimit⟩
  enterCall _ h := ⟨h.atomicity, congrArg (· + 1) h.depth, h.callLimit⟩
  leaveCall h := by
    refine ⟨h.atomicity, ?_, h.callLimit⟩
    simp only [leaveCall, List.length_tail, h.depth]
  lookInto _ h := ⟨h.atomicity, h.depth, h.callLimit⟩
  push _ h := ⟨h.atomicity, h.depth, h.callLimit⟩
  rejoin h _ := ⟨h.atomicity, h.depth, h.callLimit⟩

end State

namespace Grammar

variable {g : Grammar} {x : Subject} {n : Nat} {name : Octets}

theorem akin_inRule {a b : Recogniser} (name : Octets) (h : a.Related State.Akin b) :
    (a.inRule name).Related State.Akin (b.inRule name) :=
  Recogniser.Related.inRule (S := State.Akin) .symm (fun _ _ h => ⟨h.atomicity, h.depth, h.callLimit⟩) name h

/-- There is nothing to undo in a gap, for its parts clean up behind themselves. -/
theorem gap_eq_loop (g : Grammar) {call : Caller} (ht : ∀ name, (call name).Tidy x) : g.gap x call =
    match g.hasWhitespace, g.hasComment with
    | true, true => (x.loop none (call whitespaceName)).andThen
        (x.loop none ((call commentName).andThen (x.loop none (call whitespaceName))))
    | true, false => x.loop none (call whitespaceName)
    | false, true => x.loop none (call commentName)
    | false, false => .nothing := by
  have hw := (ht whitespaceName).subjectLoop none
  have hround := (ht commentName).andThen hw
  unfold gap
  cases g.hasWhitespace <;> cases g.hasComment
  · rfl
  · exact Recogniser.repeatedly_eq_loop (ht commentName)
  · exact Recogniser.repeatedly_eq_loop (ht whitespaceName)
  · dsimp only
    rw [Recogniser.repeatedly_eq_loop (ht whitespaceName), Recogniser.attempt_eq hround,
      Recogniser.repeatedly_eq_loop hround, Recogniser.attempt_eq (hw.tidy.andThen (hround.subjectLoop none))]

/-- Separators are related if the calls are that they are made of. -/
theorem akin_separators {call : Caller} (ht : ∀ name, (call name).Tidy x)
    (hw : (call whitespaceName).Related State.Akin (call whitespaceName))
    (hc : (call commentName).Related State.Akin (call commentName)) :
    (g.separators x call).Related State.Akin (g.separators x call) := by
  have hS := State.abreast_akin.tidyOperators x
  have hloop := hS.loop none (ht whitespaceName).framed hw
  rw [g.separators_eq, g.gap_eq_loop ht]
  refine Recogniser.Related.inGaps State.Akin.atomicity ?_
  cases g.hasWhitespace <;> cases g.hasComment
  · exact hS.nothing
  · exact hS.loop none (ht commentName).framed hc
  · exact hloop
  · have hw := (ht whitespaceName).subjectLoop none
    exact hS.andThen hw.tidy.framed hloop (hS.loop none ((ht commentName).andThen hw).framed
      (hS.andThen (ht commentName).framed hc hloop))

/-- What leads to no capture that is recalled does the same from akin states. By induction on the depth: a callee
leads to none either, nor do the separators between its parts. -/
theorem akin_caller (hw : ¬g.Recalls whitespaceName) (hc : ¬g.Recalls commentName) (x : Subject) (n : Nat)
    (h : ¬g.Recalls name) : (g.caller x n name).Related State.Akin (g.caller x n name) := by
  have hS := State.abreast_akin
  induction n generalizing name with
  | zero => exact fun _ _ _ _ => .exhausted
  | succ n ih =>
      refine hS.noted (hS.inCall name ?_)
      unfold Grammar.resolve
      split
      next b hb =>
        obtain rfl := Builtin.name_of_ofName? hb
        refine Recogniser.Related.builtin akin_inRule x ?_ ?_
        · rintro rfl
          exact h (.inl .refl)
        · rintro rfl
          exact h (.inr .refl)
      next =>
        split
        next r hf =>
          obtain ⟨hr, rfl⟩ := Grammar.find?_eq_some hf
          have hs := akin_separators (g := g) (g.tidy_caller x n) (ih hw) (ih hc)
          have hb := hS.expr (g.tidy_caller x n) (g.tidy_caller x n) hs (e := r.body)
            fun name hleaf => ih fun hn => h (hn.head ⟨r, hr, rfl, hleaf⟩)
          rw [r.run_eq_foldr]
          exact RuleScope.foldr_around (fun name _ _ => akin_inRule name)
            (fun mode _ _ _ => Recogniser.Related.inAtomicity State.Akin.atomicity
              (fun _ h => ⟨rfl, h.depth, h.callLimit⟩) mode) hb
        next => exact fun _ _ _ hs => .raised _ hs

end Grammar

namespace Recogniser

/-- It ends where it begins, for it fails or matches nothing. -/
def Stays (r : Recogniser) (p : Nat) (s : State) : Prop := ∃ m t, r p s = .done m t ∧ m.offset = p

variable {x : Subject} {r a b : Recogniser} {p : Nat} {s t : State} {m : Match}

theorem Stays.akin (hr : r.Related State.Akin r) (h : r.Stays p s) (hs : s.Akin t) : r.Stays p t := by
  obtain ⟨m, u, hd, hm⟩ := h
  have hrel := hr p hs
  rw [hd] at hrel
  generalize ho : r p t = o at hrel
  cases hrel with
  | done => exact ⟨m, _, ho, hm⟩

/-- A loop ends where its part stays, and what every match of the part brings about holds there. -/
theorem Tidy.loop_ends (hr : r.Tidy x) {P : Nat → State → Prop} (hP : ∀ {q s t}, s.Akin t → P q s → P q t)
    (hround : ∀ {p s q t}, r p s = .done (.matched q) t → P q t) {n : Nat} (h : P p s)
    (hd : r.loop n none p s = .done m t) : ∃ q u, m = .matched q ∧ P q t ∧ u.Akin t ∧ r.Stays q u := by
  induction n generalizing p s with
  | zero => cases hd
  | succ n ih =>
      rw [Recogniser.loop, if_neg (Option.some_ne_none 0).symm] at hd
      rcases he : r p s with ⟨q | q, u⟩ | ⟨e, u⟩ | _
      · simp only [he] at hd
        split at hd
        next hq =>
          cases hd
          obtain ⟨hg, hreach⟩ := hr.framed he
          obtain rfl : p = q := Nat.le_antisymm (hreach q rfl).1 hq
          exact ⟨p, s, rfl, hround he, hg.akin, _, _, he, rfl⟩
        next => exact ih (hround he) hd
      · simp only [he] at hd
        cases hd
        cases hr he with
        | failed ht => exact ⟨p, s, rfl, hP ht.grows.akin h, ht.grows.akin, _, _, he, rfl⟩
      · simp only [he] at hd
        cases hd
      · simp only [he] at hd
        cases hd

theorem Stays.loop (hr : r.Tidy x) (h : r.Stays p s) (hp : p ≤ x.size) :
    ∃ t, x.loop none r p s = .done (.matched p) t ∧ s.Akin t := by
  obtain ⟨m, t, hd, hm⟩ := h
  refine ⟨t, ?_, (hr.framed hd).1.akin⟩
  rw [Subject.loop, Nat.succ_sub hp, Recogniser.loop, if_neg (Option.some_ne_none 0).symm, hd]
  cases m with
  | matched q =>
      obtain rfl : q = p := hm
      exact if_pos (Nat.le_refl q)
  | failed q => rfl

theorem Stays.andThen (ha : a.Framed x) (h : a.Stays p s) (hb : ∀ t, s.Akin t → b.Stays p t) :
    (a.andThen b).Stays p s := by
  obtain ⟨m, t, hd, hm⟩ := h
  rw [Stays, Recogniser.andThen, hd]
  cases m with
  | matched q =>
      obtain rfl : q = p := hm
      exact hb t (ha hd).1.akin
  | failed q => exact ⟨.failed q, t, rfl, hm⟩

theorem Stays.of_andThen (ha : a.Framed x) (hb : b.Sure x) (h : (a.andThen b).Stays p s) : a.Stays p s := by
  obtain ⟨m, t, hd, hm⟩ := h
  rcases Outcome.andThen_eq_done.mp hd with ⟨k, u, hu, ht⟩ | ⟨k, rfl, hu⟩
  · obtain ⟨-, q, rfl, hq⟩ := hb ht
    obtain rfl : q = p := hm
    exact ⟨.matched k, u, hu, Nat.le_antisymm hq.1 ((ha hu).2 k rfl).1⟩
  · exact ⟨.failed k, t, hu, hm⟩

section Rounds

variable (ha : a.Tidy x) (hra : a.Related State.Akin a)

include ha hra

theorem loop_maximal (hd : x.loop none a p s = .done m t) : ∃ q, m = .matched q ∧ a.Stays q t := by
  obtain ⟨q, u, hm, -, hu, hs⟩ :=
    ha.loop_ends (P := fun _ _ => True) (fun _ _ => trivial) (fun _ => trivial) trivial hd
  exact ⟨q, hm, hs.akin hra hu⟩

variable (hb : b.Tidy x) (hrb : b.Related State.Akin b)

include hb hrb

/-- Of two parts that take turns, one behind each match of the other, both stay in the end. -/
theorem rounds_maximal (hd : (x.loop none a).andThen (x.loop none (b.andThen (x.loop none a))) p s = .done m t) :
    ∃ q, m = .matched q ∧ a.Stays q t ∧ b.Stays q t := by
  have hloop := ha.subjectLoop none
  have hrel := (State.abreast_akin.tidyOperators x).andThen hb.framed hrb
    ((State.abreast_akin.tidyOperators x).loop none ha.framed hra)
  rcases Outcome.andThen_eq_done.mp hd with ⟨k, v, hk, hrest⟩ | ⟨k, -, hk⟩
  · obtain ⟨_, hm, hfirst⟩ := loop_maximal ha hra hk
    cases hm
    have hround : ∀ {p s q t}, b.andThen (x.loop none a) p s = .done (.matched q) t → a.Stays q t := by
      intro p s q t he
      rcases Outcome.andThen_eq_done.mp he with ⟨j, w, -, hj⟩ | ⟨j, hj, -⟩
      · obtain ⟨_, hm, hs⟩ := loop_maximal ha hra hj
        cases hm
        exact hs
      · cases hj
    obtain ⟨q, u, hm, hs, hu, hstays⟩ :=
      (hb.andThen hloop).loop_ends (fun hs h => h.akin hra hs) hround hfirst hrest
    exact ⟨q, hm, hs, (hstays.akin hrel hu).of_andThen hb.framed hloop⟩
  · obtain ⟨-, _, hm, -⟩ := hloop hk
    cases hm

theorem rounds_of_stays (hs : a.Stays p s) (hs' : b.Stays p s) (hp : p ≤ x.size) :
    ∃ t, (x.loop none a).andThen (x.loop none (b.andThen (x.loop none a))) p s = .done (.matched p) t := by
  obtain ⟨u, hd, hu⟩ := hs.loop ha hp
  have hround : (b.andThen (x.loop none a)).Stays p u := by
    refine (hs'.akin hrb hu).andThen hb.framed fun v hv => ?_
    obtain ⟨w, hw, -⟩ := (hs.akin hra (hu.trans hv)).loop ha hp
    exact ⟨_, w, hw, rfl⟩
  obtain ⟨t, ht, -⟩ := hround.loop (hb.andThen (ha.subjectLoop none)) hp
  refine ⟨t, ?_⟩
  rw [Recogniser.andThen, hd]
  exact ht

end Rounds

end Recogniser

namespace Grammar

variable {g : Grammar} {x : Subject} {call : Caller} {p : Nat} {s t : State} {m : Match}

section Maximal

variable (ht : ∀ name, (call name).Tidy x)
  (hw : (call whitespaceName).Related State.Akin (call whitespaceName))
  (hc : (call commentName).Related State.Akin (call commentName))

include ht hw hc

theorem gap_maximal (hd : g.gap x call p s = .done m t) :
    ∃ q, m = .matched q ∧ ∀ name ∈ g.gapNames, (call name).Stays q t := by
  rw [g.gap_eq_loop ht] at hd
  unfold gapNames
  cases hgw : g.hasWhitespace <;> cases hgc : g.hasComment <;> rw [hgw, hgc] at hd
  · cases hd
    exact ⟨p, rfl, by simp⟩
  · obtain ⟨q, hm, hs⟩ := Recogniser.loop_maximal (ht commentName) hc hd
    exact ⟨q, hm, by simpa using hs⟩
  · obtain ⟨q, hm, hs⟩ := Recogniser.loop_maximal (ht whitespaceName) hw hd
    exact ⟨q, hm, by simpa using hs⟩
  · obtain ⟨q, hm, hs⟩ := Recogniser.rounds_maximal (ht whitespaceName) hw (ht commentName) hc hd
    exact ⟨q, hm, by simpa using hs⟩

theorem gap_of_stays (hs : ∀ name ∈ g.gapNames, (call name).Stays p s) (hp : p ≤ x.size) :
    ∃ t, g.gap x call p s = .done (.matched p) t := by
  rw [g.gap_eq_loop ht]
  unfold gapNames at hs
  cases hgw : g.hasWhitespace <;> cases hgc : g.hasComment <;> rw [hgw, hgc] at hs
  · exact ⟨s, rfl⟩
  · exact ((hs commentName (by simp)).loop (ht commentName) hp).imp fun _ h => h.1
  · exact ((hs whitespaceName (by simp)).loop (ht whitespaceName) hp).imp fun _ h => h.1
  · exact Recogniser.rounds_of_stays (ht whitespaceName) hw (ht commentName) hc (hs whitespaceName (by simp))
      (hs commentName (by simp)) hp

end Maximal

/-- Separators stand in the non-atomic mode only. There they never fail, and they go on for as long as one of them
advances: where they end none does, though one may match nothing, and more of them end in the same place. Only what
stops a separator short stops them short. -/
theorem separators_maximal {g : Grammar} (hw : ¬g.Recalls whitespaceName) (hc : ¬g.Recalls commentName) (x : Subject)
    (depth : Nat) {p : Nat} (hp : p ≤ x.size) (s : State) :
    let call := g.caller x depth
    (s.atomicity ≠ .nonAtomic → g.separators x call p s = .done (.matched p) s) ∧
      (s.atomicity = .nonAtomic →
        (∀ m t, g.separators x call p s = .done m t → ∃ q, m = .matched q ∧ p ≤ q ∧ q ≤ x.size ∧
          t.atomicity = .nonAtomic ∧ (∀ name ∈ g.gapNames, (call name).Stays q t) ∧
          ∃ u, g.separators x call q t = .done (.matched q) u) ∧
        ∀ o : Outcome State, (∀ m t, o ≠ .done m t) → g.separators x call p s = o → ∃ name ∈ g.gapNames, ∃ q t,
          p ≤ q ∧ q ≤ x.size ∧ t.calls = s.calls ∧ t.callLimit = s.callLimit ∧ call name q t = o) := by
  intro call
  have ht := g.tidy_caller x depth
  have hrw := akin_caller hw hc x depth hw
  have hrc := akin_caller hw hc x depth hc
  refine ⟨fun hm => if_pos hm, fun hm => ⟨fun m t hd => ?_, fun o ho he => ?_⟩⟩
  · obtain ⟨hg, hreach⟩ := Task.framed_run (g := g) ht .skip hd
    have hmode : t.atomicity = .nonAtomic := hg.atomicity.trans hm
    have hgap : ∀ q {u : State}, u.atomicity = .nonAtomic → g.separators x call q u = g.gap x call q u := by
      intro q u hu
      rw [g.separators_eq, Recogniser.inGaps, if_neg (not_not_intro hu)]
    rw [hgap p hm] at hd
    obtain ⟨q, rfl, hs⟩ := gap_maximal ht hrw hrc hd
    have hq := hreach q rfl
    refine ⟨q, rfl, hq.1, hq.2 hp, hmode, hs, ?_⟩
    rw [hgap q hmode]
    exact gap_of_stays ht hrw hrc hs (hq.2 hp)
  · by_contra hnone
    have hP : Outcome.Lenient (· ≠ o) := fun m t h => ho m t h.symm
    have hstops : ∀ name ∈ g.gapNames, (call name).Stops x (· ≠ o) s.calls s.callLimit p :=
      fun name hname q t hpq hq hcalls hlimit he => hnone ⟨name, hname, q, t, hpq, hq, hcalls, hlimit, he⟩
    exact stops_separators hP ht hstops (Nat.le_refl p) hp rfl rfl he

/-- White space that may match nothing, and comments in which separators stand. -/
theorem separators_maximal_nested :
    let g : Grammar := ⟨[.written "whitespace" .silent (.optional (.written " ")),
      .written "comment" .silent (.rule "remark"), .written "remark" .nonAtomic (.seq (.written "#") (.written "!"))],
      by decide, by decide, by decide⟩
    let x := Subject.ofOctets (ascii " #  !x")
    let call := g.caller x 5
    let t : State := {
      tokens := #[⟨.start, ascii "remark", 1, 1⟩, ⟨.stop, ascii "remark", 0, 5⟩]
      attempts := ⟨5, #[ascii "remark"], #[]⟩
      furthest := 5 }
    ¬g.Recalls whitespaceName ∧ ¬g.Recalls commentName ∧ 0 ≤ x.size ∧
      g.separators x call 0 {} = .done (.matched 5) t ∧ (call whitespaceName).Stays 5 t ∧
      (call commentName).Stays 5 t ∧ ∃ u, g.separators x call 5 t = .done (.matched 5) u := by
  intro g x call t
  have hw : ¬g.Recalls whitespaceName := not_recalls_of_closed [whitespaceName] (.head _) (by decide) (by decide)
  have hc : ¬g.Recalls commentName :=
    not_recalls_of_closed [commentName, ascii "remark"] (.head _) (by decide) (by decide)
  have hrun : g.separators x call 0 {} = .done (.matched 5) t := by decide +kernel
  obtain ⟨q, hm, -, -, -, hs, hu⟩ := ((separators_maximal hw hc x 5 (Nat.zero_le _) {}).2 rfl).1 _ _ hrun
  cases hm
  exact ⟨hw, hc, Nat.zero_le _, hrun, hs _ (by decide), hs _ (by decide), hu⟩

end Grammar

end Peg
