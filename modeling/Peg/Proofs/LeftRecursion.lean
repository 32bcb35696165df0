import Peg.Proofs.ActiveCalls
import Peg.Proofs.Adequacy
import Peg.Proofs.CallLimit
import Peg.Proofs.Tasks

namespace Peg

/-- Enough for each match of an expression to take an octet. -/
def Expr.advances : Expr → Bool
  | literal l => !l.text.isEmpty
  | folded l => !l.text.isEmpty
  | range _ => true
  | ref _ => false
  | look _ _ => false
  | seq d e => d.advances || e.advances
  | choice d e => d.advances && e.advances
  | optional _ => false
  | repeated count e => decide (count.min ≠ 0) && e.advances
  | capture e => e.advances
  | scan _ _ => false

/-- The names that an expression may call where it begins, given those that may be called in its gaps. -/
def Expr.leading (gaps : List Octets) : Expr → List Octets
  | literal _ => []
  | folded _ => []
  | range _ => []
  | ref name => [name]
  | look _ e => e.leading gaps
  | seq d e => d.leading gaps ++ if d.advances then [] else gaps ++ e.leading gaps
  | choice d e => d.leading gaps ++ e.leading gaps
  | optional e => e.leading gaps
  | repeated _ e => e.leading gaps ++ if e.advances then [] else gaps
  | capture e => e.leading gaps
  | scan _ _ => []

namespace Grammar

def gapNames (g : Grammar) : List Octets :=
  (if g.hasWhitespace then [whitespaceName] else []) ++ if g.hasComment then [commentName] else []

/-- No rule begins with itself, be it through others: what a rule may call where it begins ranks lower. -/
def Descends (g : Grammar) (rank : Octets → Nat) : Prop :=
  ∀ r ∈ g.rules, ∀ callee ∈ g.rules, callee.name ∈ r.body.leading g.gapNames → rank callee.name < rank r.name

instance (g : Grammar) (rank : Octets → Nat) : Decidable (g.Descends rank) :=
  inferInstanceAs (Decidable (∀ r ∈ g.rules, ∀ callee ∈ g.rules, _ → _))

end Grammar

namespace Subject

variable {x : Subject} {p q : Nat}

theorem lt_of_text {t : Octets} (ht : t ≠ []) (h : x.text t p = .matched q) : p < q := by
  simp only [text] at h
  split at h
  · cases h
    exact Nat.lt_add_of_pos_right (List.length_pos_of_ne_nil ht)
  · cases h

theorem lt_of_foldedText {t : Octets} (ht : t ≠ []) (h : x.foldedText t p = .matched q) : p < q := by
  obtain ⟨d, t, rfl⟩ := List.exists_cons_of_ne_nil ht
  simp only [foldedText] at h
  split at h
  · rename_i n hn
    cases h
    rw [Utf8.foldedPrefix?, List.length_cons] at hn
    cases hs : x.after p with
    | nil =>
        rw [hs] at hn
        cases hn
    | cons c s =>
        rw [hs] at hn
        simp only [Utf8.foldedPrefixAtMost] at hn
        split at hn
        · obtain ⟨k, -, rfl⟩ := Option.map_eq_some_iff.mp hn
          have hpos := Utf8.size_decode_pos (List.cons_ne_nil c s)
          omega
        · cases hn
  · cases h

theorem lt_of_runeIn {low high : Rune} (h : x.runeIn low high p = .matched q) : p < q := by
  simp only [runeIn] at h
  split at h
  · cases h
  · rename_i c s _
    split at h
    · cases h
      exact Nat.lt_add_of_pos_right (Utf8.size_decode_pos (List.cons_ne_nil c s))
    · cases h

end Subject

namespace Recogniser

def Advances (r : Recogniser) : Prop := ∀ ⦃p s q t⦄, r p s = .done (.matched q) t → p < q

variable {x : Subject} {r r' : Recogniser}

theorem advances_ofMatcher {w : Matcher} (h : ∀ {p q}, w p = .matched q → p < q) : (ofMatcher w).Advances := by
  intro p s q t hd
  injection hd with hw
  exact h hw

theorem Advances.noted (h : r.Advances) : r.noted.Advances := by
  intro p s q t hd
  obtain ⟨u, hu, -⟩ := Outcome.leave_eq_done.mp hd
  exact h hu

theorem Advances.andThen_left (h : r.Advances) (h' : r'.Framed x) : (r.andThen r').Advances := by
  intro p s q t hd
  rcases Outcome.andThen_eq_done.mp hd with ⟨k, u, hu, ht⟩ | ⟨k, hm, -⟩
  · exact Nat.lt_of_lt_of_le (h hu) ((h' ht).2 q rfl).1
  · cases hm

theorem Advances.andThen_right (h : r.Framed x) (h' : r'.Advances) : (r.andThen r').Advances := by
  intro p s q t hd
  rcases Outcome.andThen_eq_done.mp hd with ⟨k, u, hu, ht⟩ | ⟨k, hm, -⟩
  · exact Nat.lt_of_le_of_lt ((h hu).2 k rfl).1 (h' ht)
  · cases hm

theorem Advances.orElse (h : r.Advances) (h' : r'.Advances) : (r.orElse r').Advances := by
  intro p s q t hd
  rcases Outcome.orElse_eq_done.mp hd with ⟨k, u, hu, ht⟩ | ⟨k, hm, hu⟩
  · exact h' ht
  · cases hm
    exact h hu

theorem Advances.capture (h : r.Advances) : r.capture.Advances := by
  intro p s q t hd
  rcases Outcome.andThen_eq_done.mp hd with ⟨k, u, hu, ht⟩ | ⟨k, hm, -⟩
  · cases ht
    exact h hu
  · cases hm

theorem Advances.attempt (h : r.Advances) : r.attempt.Advances := by
  intro p s q t hd
  obtain ⟨m, hm, hw⟩ := Outcome.mapMatch_eq_done.mp hd
  obtain ⟨u, hu, -⟩ := Outcome.leave_eq_done.mp hm
  cases m with
  | matched k =>
      cases hw
      exact h hu
  | failed k => cases hw

end Recogniser

namespace Expr

variable {g : Grammar} {x : Subject} {call : Caller}

theorem advances_run (ht : ∀ name, (call name).Tidy x) {e : Expr} (h : e.advances = true) :
    (e.run g x call).Advances := by
  have hf := fun t => Task.framed_run (g := g) ht t
  induction e with
  | literal l =>
      have hl : l.text ≠ [] := by simpa [advances] using h
      exact (Recogniser.advances_ofMatcher (Subject.lt_of_text hl)).noted
  | folded l =>
      have hl : l.text ≠ [] := by simpa [advances] using h
      exact (Recogniser.advances_ofMatcher (Subject.lt_of_foldedText hl)).noted
  | range r => exact (Recogniser.advances_ofMatcher Subject.lt_of_runeIn).noted
  | seq d e ihd ihe =>
      rcases Bool.or_eq_true_iff.mp h with hd | he
      · exact ((ihd hd).andThen_left (hf (.both .skip (.expr e)))).attempt.noted
      · exact (Recogniser.Advances.andThen_right (hf (.expr d))
          (Recogniser.Advances.andThen_right (hf .skip) (ihe he))).attempt.noted
  | choice d e ihd ihe =>
      obtain ⟨hd, he⟩ := Bool.and_eq_true_iff.mp h
      exact ((ihd hd).orElse (ihe he)).noted
  | repeated count e ih =>
      obtain ⟨hmin, he⟩ := Bool.and_eq_true_iff.mp h
      have hmin : count.min ≠ 0 := of_decide_eq_true hmin
      have hmax : count.max? ≠ some 0 := fun hm => hmin (Nat.le_zero.mp (Count.min_le_of_max? hm))
      have ho := ((ih he).andThen_left (hf (Task.further e (count.min - 1)))).andThen_left
        (hf (.many (count.max?.map (· - max count.min 1)) (.both .skip (.expr e))))
      have hc := Task.counted_eq g x call count e hmax
      rw [if_neg hmin] at hc
      rw [run, hc]
      exact ho.attempt.noted
  | capture e ih => exact (ih h).capture.noted
  | ref | look | optional | scan => cases h

end Expr

section Stops

variable {g : Grammar} {x : Subject} {call : Caller} {P : Outcome State → Prop} {calls : List Call}
  {limit start next : Nat} (hP : Outcome.Lenient P) (hempty : ∀ name s, P (.raised (.emptyStack name) s))
  (hundefined : ∀ name s, P (.raised (.undefinedRule name) s))

include hP

theorem Grammar.stops_separators (ht : ∀ name, (call name).Tidy x)
    (h : ∀ name ∈ g.gapNames, (call name).Stops x P calls limit start) :
    (g.separators x call).Stops x P calls limit start := by
  rw [g.separators_eq]
  refine Recogniser.Stops.inGaps hP ?_
  have hloop : ∀ name, (call name).Stops x P calls limit start →
      (x.repeatedly (call name)).Stops x P calls limit start := by
    intro name hn
    rw [Recogniser.repeatedly_eq_loop (ht name)]
    exact hn.subjectLoop hP (ht name).framed none
  unfold Grammar.gap
  unfold Grammar.gapNames at h
  cases hw : g.hasWhitespace <;> cases hc : g.hasComment <;> rw [hw, hc] at h
  · exact Recogniser.stops_ofMatcher hP _
  · exact hloop _ (h _ (by simp))
  · exact hloop _ (h _ (by simp))
  · have hw := hloop _ (h whitespaceName (by simp))
    have hwf := (ht whitespaceName).repeatedly.tidy.framed
    have hround := ((ht commentName).framed.andThen hwf).attempt
    have hrounds := (((h commentName (by simp)).andThen hP (ht commentName).framed (ht commentName).framed.le
      hw).attempt hP).subjectLoop hP hround.framed none
    rw [← Recogniser.repeatedly_eq_loop hround] at hrounds
    exact (hw.andThen hP hwf hwf.le hrounds).attempt hP

include hempty hundefined

/-- Only the first occurrence is asked about the offsets before `next`. -/
theorem Recogniser.Stops.counted {skip r : Recogniser} (hr : r.Stops x P calls limit start) (ht : r.Tidy x)
    (hnext : ∀ ⦃p s q t⦄, start ≤ p → r p s = .done (.matched q) t → next ≤ q)
    (hskip : skip.Stops x P calls limit next) (hst : skip.Framed x) (hmore : r.Stops x P calls limit next)
    (min : Nat) (max? : Option Nat) : (x.counted skip r min max?).Stops x P calls limit start := by
  have hc := (congruence_stops hP hempty hundefined x calls limit next).congruence
  have hg := hc.operators.greedilyAfter ⟨hst, hst, hskip⟩ ⟨ht, ht, hmore⟩ max?
  unfold Subject.counted
  split
  · exact stops_ofMatcher hP _
  · cases min with
    | zero => exact ((hr.andThen hP ht.framed hnext (hg 1).2.2).optional hP).attempt hP
    | succ n =>
        have hf := hc.operators.further ⟨hst, hst, hskip⟩ ⟨ht, ht, hmore⟩ n
        have hfg := hc.andThen hf (hc.loosen (hg (n + 1)))
        dsimp only
        rw [andThen_assoc]
        exact (hr.andThen hP ht.framed hnext hfg.2.2).attempt hP

/-- An expression stops short as what it calls does: at its beginning these are its leading names only. -/
theorem Expr.stops_run (ht : ∀ name, (call name).Tidy x)
    (hany : ∀ name, (call name).Stops x P calls limit (start + 1)) (e : Expr)
    (hlead : ∀ name ∈ e.leading g.gapNames, (call name).Stops x P calls limit start) :
    (e.run g x call).Stops x P calls limit start := by
  have hf := fun t => Task.framed_run (g := g) ht t
  have hc := (Recogniser.congruence_stops hP hempty hundefined x calls limit (start + 1)).congruence
  have hlater : ∀ e : Expr, (e.run g x call).Stops x P calls limit (start + 1) :=
    fun e => (hc.expr (fun name => ⟨ht name, ht name, hany name⟩) e).2.2
  have hskip := Grammar.stops_separators (g := g) hP ht fun name _ => hany name
  have hadvance : ∀ e : Expr, e.advances = true → ∀ ⦃p s q t⦄, start ≤ p →
      e.run g x call p s = .done (.matched q) t → start + 1 ≤ q :=
    fun e he _ _ _ _ hs hd => Nat.lt_of_le_of_lt hs (e.advances_run ht he hd)
  induction e with
  | literal | folded | range | scan => exact (Recogniser.stops_ofMatcher hP _).noted hP
  | ref name => exact (hlead name (List.mem_singleton_self name)).noted hP
  | look polarity e ih => exact ((ih hlead).look hP polarity).noted hP
  | choice d e ihd ihe =>
      obtain ⟨hd, he⟩ := List.forall_mem_append.mp hlead
      exact ((ihd hd).orElse hP (hf (.expr d)) (ihe he)).noted hP
  | optional e ih => exact ((ih hlead).optional hP).noted hP
  | capture e ih => exact ((ih hlead).capture hP).noted hP
  | seq d e ihd ihe =>
      obtain ⟨hd, hrest⟩ := List.forall_mem_append.mp hlead
      by_cases ha : d.advances = true
      · have hrest := hskip.andThen hP (hf .skip) (hf .skip).le (hlater e)
        exact (((ihd hd).andThen hP (hf (.expr d)) (hadvance d ha) hrest).attempt hP).noted hP
      · rw [if_neg ha] at hrest
        obtain ⟨hgaps, he⟩ := List.forall_mem_append.mp hrest
        have hrest := (Grammar.stops_separators hP ht hgaps).andThen hP (hf .skip) (hf .skip).le (ihe he)
        exact (((ihd hd).andThen hP (hf (.expr d)) (hf (.expr d)).le hrest).attempt hP).noted hP
  | repeated count e ih =>
      obtain ⟨he, hrest⟩ := List.forall_mem_append.mp hlead
      by_cases ha : e.advances = true
      · exact (Recogniser.Stops.counted hP hempty hundefined (ih he) (Task.tidy_expr ht e) (hadvance e ha) hskip
          (hf .skip) (hlater e) _ _).noted hP
      · rw [if_neg ha] at hrest
        exact (Recogniser.Stops.counted hP hempty hundefined (ih he) (Task.tidy_expr ht e) (hf (.expr e)).le
          (Grammar.stops_separators hP ht hrest) (hf .skip) (ih he) _ _).noted hP

end Stops

/-- The call begins behind another one, or at the same offset with a lower rank. -/
def Call.Below (rank : Octets → Nat) (c d : Call) : Prop :=
  d.offset < c.offset ∨ d.offset = c.offset ∧ rank c.rule < rank d.rule

theorem Call.Below.trans {rank : Octets → Nat} {b c d : Call} (h : b.Below rank c) (h' : c.Below rank d) :
    b.Below rank d := by
  unfold Below at *
  omega

theorem Call.Below.ne {rank : Octets → Nat} {c d : Call} (h : c.Below rank d) : c ≠ d := by
  rintro rfl
  unfold Below at h
  omega

/-- Without left recursion no call is active twice, so that calls nest no deeper than there are rules and
offsets. -/
theorem Grammar.Descends.caller_ends {g : Grammar} {x : Subject} {rank : Octets → Nat} (hd : g.Descends rank)
    {depth p : Nat} (name : Octets) {s : State} (hp : p ≤ x.size) (hs : ∀ c ∈ s.calls, c.Ordinary g x)
    (hchain : s.calls.Pairwise (Call.Below rank))
    (hbelow : (∃ r ∈ g.rules, r.name = name) → ∀ c ∈ s.calls, Call.Below rank ⟨name, p⟩ c)
    (hlimit : s.callLimit = 0 ∨ g.rules.length * (x.size + 1) < s.callLimit)
    (hdepth : g.rules.length * (x.size + 1) < s.calls.length + depth) :
    g.caller x depth name p s ≠ .exhausted ∧ ∀ t, g.caller x depth name p s ≠ .raised .callDepth t := by
  let P (o : Outcome State) : Prop := o ≠ .exhausted ∧ ∀ t, o ≠ .raised .callDepth t
  have hP : Outcome.Lenient P := fun _ _ => ⟨nofun, fun _ => nofun⟩
  have hempty : ∀ name s, P (.raised (.emptyStack name) s) := fun _ _ => ⟨nofun, fun _ => nofun⟩
  have hundefined : ∀ name s, P (.raised (.undefinedRule name) s) := fun _ _ => ⟨nofun, fun _ => nofun⟩
  have hfew : ∀ {s : State}, (∀ c ∈ s.calls, c.Ordinary g x) → s.calls.Pairwise (Call.Below rank) →
      s.calls.length ≤ g.rules.length * (x.size + 1) :=
    fun hs hchain => Call.length_le_of_nodup hs (hchain.imp Call.Below.ne)
  suffices key : P (g.caller x depth name p s) from key
  induction depth generalizing name p s with
  | zero => exact absurd (hfew hs hchain) (Nat.not_le_of_lt hdepth)
  | succ depth ih =>
      have hlen := hfew hs hchain
      refine hP.call hp (fun ⟨hne, hle⟩ => ?_) fun _ => ?_
      · rcases hlimit with h0 | hlt
        · exact absurd h0 hne
        · omega
      · have hc := Recogniser.congruence_stops hP hempty hundefined x (⟨name, p⟩ :: s.calls) s.callLimit p
        unfold Grammar.resolve
        split
        · exact (hc.congruence.builtin _).2.2
        · split
          · rename_i r hr
            obtain ⟨hm, hn⟩ := Grammar.find?_eq_some hr
            have hcalls : ∀ c ∈ ⟨name, p⟩ :: s.calls, c.Ordinary g x :=
              List.forall_mem_cons.mpr ⟨⟨⟨r, hm, hn⟩, hp⟩, hs⟩
            have hlower := hbelow ⟨r, hm, hn⟩
            have hnew : (⟨name, p⟩ :: s.calls).Pairwise (Call.Below rank) := List.pairwise_cons.mpr ⟨hlower, hchain⟩
            -- A call from the body is below the call of the rule, and so below all the others.
            have hdeeper : ∀ callee start, ((∃ r ∈ g.rules, r.name = callee) →
                ∀ q ≥ start, Call.Below rank ⟨callee, q⟩ ⟨name, p⟩) →
                (g.caller x depth callee).Stops x P (⟨name, p⟩ :: s.calls) s.callLimit start := by
              intro callee start hunder q t hq hqx hcs hls
              refine ih callee hqx (hcs ▸ hcalls) (hcs ▸ hnew) (fun hcallee => ?_) (hls ▸ hlimit) ?_
              · have hfirst := hunder hcallee q hq
                rw [hcs]
                exact List.forall_mem_cons.mpr ⟨hfirst, fun c hc => hfirst.trans (hlower c hc)⟩
              · rw [hcs, List.length_cons]
                omega
            have hbody : (r.body.run g x (g.caller x depth)).Stops x P (⟨name, p⟩ :: s.calls) s.callLimit p := by
              refine Expr.stops_run hP hempty hundefined (g.tidy_caller x depth)
                (fun callee => hdeeper callee (p + 1) fun _ q hq => .inl hq) r.body fun callee hcallee => ?_
              refine hdeeper callee p ?_
              rintro ⟨r', hr', rfl⟩ q hq
              rcases Nat.lt_or_eq_of_le hq with hlt | heq
              · exact .inl hlt
              · exact .inr ⟨heq, hn ▸ hd r hm r' hr' hcallee⟩
            have ht := Task.tidy_expr (g := g) (g.tidy_caller x depth) r.body
            exact (hc.congruence.ruleOfBody ⟨ht, ht, hbody⟩).2.2
          · exact hc.undefinedRule name

/-- Without left recursion every parse comes to an end, and a generous call limit is never reached. -/
theorem Parser.parse_of_descends {p : Parser} {rank : Octets → Nat} (hd : p.grammar.Descends rank)
    (start text : Octets)
    (hlimit : p.callLimit = 0 ∨ p.grammar.rules.length * (text.length + 1) < p.callLimit) :
    ∃ v, v ≠ .error .callDepth ∧ p.parse start text = v ∧
      ∀ n ≥ p.grammar.ampleDepth text, p.parse? n start text = some v := by
  have hx : (Subject.ofOctets text).size = text.length := Subject.size_eq _
  have hdepth : ∀ n ≥ p.grammar.ampleDepth text, p.depth (p.grammar.ampleDepth text) ≤ p.depth n := by
    intro n hn
    unfold depth
    split
    · exact hn
    · exact Nat.le_refl _
  have hample : p.grammar.rules.length * (text.length + 1) < p.depth (p.grammar.ampleDepth text) := by
    unfold depth
    split
    · exact Nat.lt_succ_self _
    · omega
  obtain ⟨hends, hfree⟩ := hd.caller_ends (x := Subject.ofOctets text) start (p := 0)
    (s := { callLimit := p.callLimit }) (Nat.zero_le _) (List.forall_mem_nil _) .nil (fun _ => List.forall_mem_nil _)
    (hx ▸ hlimit) (by rw [hx]; exact Nat.lt_of_lt_of_le hample (Nat.le_add_left _ _))
  cases hv : p.parse? (p.grammar.ampleDepth text) start text with
  | none =>
      rw [parse?_eq_verdict?, Outcome.verdict?_eq_none] at hv
      exact absurd hv hends
  | some v =>
      have hne : v ≠ .error .callDepth := by
        rintro rfl
        rw [parse?_eq_verdict?, Outcome.verdict?_eq_error] at hv
        obtain ⟨t, ht⟩ := hv
        exact hfree t ht
      refine ⟨v, hne, by rw [parse, hv, Option.getD_some], fun n hn => ?_⟩
      refine p.parse?_eq_of_limited start text hv hne ?_ (hdepth n hn)
      by_cases h0 : p.callLimit = 0
      · exact .inl h0
      · exact .inr ⟨h0, Nat.le_refl _⟩

/-- Without left recursion and call limit, what is parsed is what the grammar means. -/
theorem Parser.parse_tells {p : Parser} {rank : Octets → Nat} (hd : p.grammar.Descends rank) (hl : p.callLimit = 0)
    (start text : Octets) : ∃ a, p.Means start text a ∧ a.Told (p.parse start text) := by
  obtain ⟨v, -, rfl, hn⟩ := parse_of_descends hd start text (.inl hl)
  rcases parse?_sound (hn _ (Nat.le_refl _)) with ⟨h, -⟩ | h
  · exact absurd hl h
  · exact h

end Peg
