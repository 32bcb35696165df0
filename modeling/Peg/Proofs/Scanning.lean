import Mathlib.Order.Bounds.Basic
import Peg.Proofs.Associativity
import Peg.Proofs.Endings
import Peg.Proofs.RuneBoundaries

namespace Peg

/-- Where a text stands, it has not occurred for the first time only later. -/
theorem exists_firstOccurrence?_le {t s : Octets} {k : Nat} (hk : k ≤ s.length) (h : t <+: s.drop k) :
    ∃ n ≤ k, firstOccurrence? t s = some n := by
  induction s generalizing k with
  | nil =>
      rw [List.drop_nil, List.prefix_nil] at h
      exact ⟨0, Nat.zero_le _, by rw [firstOccurrence?, if_pos (List.isEmpty_iff.mpr h)]⟩
  | cons c s ih =>
      rw [firstOccurrence?]
      split
      · exact ⟨0, Nat.zero_le _, rfl⟩
      · rename_i hn
        cases k with
        | zero => exact absurd (List.isPrefixOf_iff_prefix.mpr h) hn
        | succ k =>
            obtain ⟨n, hle, he⟩ := ih (Nat.le_of_succ_le_succ hk) h
            exact ⟨n + 1, Nat.succ_le_succ hle, by rw [he]; rfl⟩

namespace Subject

variable {x : Subject} {t : Octets} {ts : List Octets} {p q r : Nat}

/-- The text stands in the subject at the offset. -/
def TextAt (x : Subject) (t : Octets) (q : Nat) : Prop := ∃ u v, x.octets = u ++ (t ++ v) ∧ q = u.length

/-- The places from the offset on where one of the texts stands. -/
def occurrences (x : Subject) (ts : List Octets) (p : Nat) : Set Nat := {q | p ≤ q ∧ ∃ t ∈ ts, x.TextAt t q}

/-- One of the texts stands here, or nothing is left. -/
def HaltsAt (x : Subject) (ts : List Octets) (q : Nat) : Prop := q = x.size ∨ ∃ t ∈ ts, x.TextAt t q

theorem textAt_iff : x.TextAt t q ↔ q ≤ x.size ∧ t <+: x.after q := by
  rw [x.size_eq, x.after_eq]
  constructor
  · rintro ⟨u, v, hx, rfl⟩
    rw [hx, List.drop_left]
    exact ⟨by rw [List.length_append]; omega, List.prefix_append t v⟩
  · rintro ⟨hq, v, hv⟩
    refine ⟨x.octets.take q, v, ?_, (List.length_take_of_le hq).symm⟩
    rw [hv, List.take_append_drop]

theorem TextAt.le_size (h : x.TextAt t q) : q ≤ x.size := (textAt_iff.mp h).1

theorem HaltsAt.le_size (h : x.HaltsAt ts q) : q ≤ x.size := by
  rcases h with rfl | ⟨t, _, ht⟩
  · exact Nat.le_refl _
  · exact ht.le_size

/-- The search for a text finds the first place where it stands. -/
theorem skipUntil_cases (x : Subject) (t : Octets) (hp : p ≤ x.size) :
    (∃ q, x.skipUntil t p = .matched q ∧ IsLeast {q | p ≤ q ∧ x.TextAt t q} q) ∨
      x.skipUntil t p = .failed p ∧ ∀ q, p ≤ q → ¬x.TextAt t q := by
  have hfound : ∀ q, p ≤ q → x.TextAt t q → ∃ n, firstOccurrence? t (x.after p) = some n ∧ p + n ≤ q := by
    intro q hq ht
    obtain ⟨hle, hpre⟩ := textAt_iff.mp ht
    obtain ⟨k, rfl⟩ := Nat.exists_eq_add_of_le hq
    rw [x.after_eq, ← List.drop_drop, ← x.after_eq] at hpre
    obtain ⟨n, hn, he⟩ := exists_firstOccurrence?_le (by rw [x.length_after]; omega) hpre
    exact ⟨n, he, by omega⟩
  rw [skipUntil]
  cases hf : firstOccurrence? t (x.after p) with
  | some n =>
      refine .inl ⟨_, rfl, ⟨Nat.le_add_right p n, ?_⟩, ?_⟩
      · obtain ⟨u, v, ha, rfl⟩ := firstOccurrence?_eq_some hf
        refine ⟨x.octets.take p ++ u, v, ?_, ?_⟩
        · rw [x.after_eq] at ha
          rw [List.append_assoc, ← ha, List.take_append_drop]
        · rw [List.length_append, List.length_take_of_le (by rwa [← x.size_eq])]
      · rintro q ⟨hq, ht⟩
        obtain ⟨n', he, hle⟩ := hfound q hq ht
        rw [hf] at he
        cases he
        exact hle
  | none =>
      refine .inr ⟨rfl, fun q hq ht => ?_⟩
      obtain ⟨n, he, -⟩ := hfound q hq ht
      rw [hf] at he
      cases he

/-- So does the search for several texts at once. -/
theorem skipUntilAny_cases (x : Subject) (t : Octets) (ts : List Octets) (hp : p ≤ x.size) :
    (∃ q, x.skipUntilAny t ts p = .matched q ∧ IsLeast (x.occurrences (t :: ts) p) q) ∨
      x.skipUntilAny t ts p = .failed p ∧ x.occurrences (t :: ts) p = ∅ := by
  cases hs : x.skipUntilAny t ts p with
  | matched q =>
      obtain ⟨⟨u, hu, hq⟩, hleast⟩ := x.skipUntilAny_eq_matched.mp hs
      refine .inl ⟨q, rfl, ?_, ?_⟩
      · rcases x.skipUntil_cases u hp with ⟨r, hr, hmem, -⟩ | ⟨hr, -⟩ <;> rw [hq] at hr <;> cases hr
        exact ⟨hmem.1, u, hu, hmem.2⟩
      · rintro r ⟨hr, v, hv, ht⟩
        rcases x.skipUntil_cases v hp with ⟨r', hr', -, hlow⟩ | ⟨-, hnone⟩
        · exact Nat.le_trans (hleast v hv r' hr') (hlow ⟨hr, ht⟩)
        · exact absurd ht (hnone r hr)
  | failed q =>
      obtain rfl := (x.forward_skipUntilAny t ts).eq_of_failed hs
      refine .inr ⟨rfl, Set.eq_empty_iff_forall_notMem.mpr ?_⟩
      rintro r ⟨hr, u, hu, ht⟩
      obtain ⟨k, hk⟩ := x.skipUntilAny_eq_failed.mp hs u hu
      rcases x.skipUntil_cases u hp with ⟨r', hr', -⟩ | ⟨-, hnone⟩
      · rw [hk] at hr'
        cases hr'
      · exact hnone r hr ht

/-- Where a loop halts first one of the texts occurs first. It runs to the end only for want of them. -/
theorem isLeast_occurrences_or (h : IsLeast {r | p ≤ r ∧ x.HaltsAt ts r} r) :
    IsLeast (x.occurrences ts p) r ∨ x.occurrences ts p = ∅ ∧ r = x.size := by
  have hlow : ∀ k ∈ x.occurrences ts p, r ≤ k := fun k hk => h.2 ⟨hk.1, .inr hk.2⟩
  by_cases hocc : ∃ t ∈ ts, x.TextAt t r
  · exact .inl ⟨⟨h.1.1, hocc⟩, hlow⟩
  · have hend : r = x.size := h.1.2.resolve_right hocc
    refine .inr ⟨Set.eq_empty_iff_forall_notMem.mpr fun k hk => ?_, hend⟩
    obtain ⟨t, ht, hat⟩ := hk.2
    have hk' : k = r := Nat.le_antisymm (hend ▸ hat.le_size) (hlow k hk)
    exact hocc ⟨t, ht, hk' ▸ hat⟩

/-- Inside a character no other one begins, so no text stands there that begins with one. -/
theorem Holds.not_textAt {d : Char} {ds : List Char} {j : Nat} (h : x.Holds q (d :: ds)) (ht : Utf8.WellFormed t)
    (hne : t ≠ []) (hj : 0 < j) (hlt : j < (Utf8.ofChars [d]).length) : ¬x.TextAt t (q + j) := by
  intro hat
  obtain ⟨-, v, hv⟩ := textAt_iff.mp hat
  obtain ⟨_ | ⟨c, cs⟩, rfl⟩ := ht
  · exact hne rfl
  obtain ⟨b, bs, hb, -, -, hbs⟩ := Utf8.encodeChar_eq_cons d
  obtain ⟨o, os, ho, hfirst, -⟩ := Utf8.encodeChar_eq_cons c
  obtain ⟨i, rfl⟩ := Nat.exists_eq_succ_of_ne_zero (Nat.pos_iff_ne_zero.mp hj)
  rw [Utf8.ofChars_singleton, hb, List.length_cons] at hlt
  have hi : i < bs.length := Nat.lt_of_succ_lt_succ hlt
  rw [x.after_eq, ← List.drop_drop, ← x.after_eq, h.2, Utf8.ofChars_cons d, hb, Utf8.ofChars_cons c, ho] at hv
  have hhead := congrArg List.head? hv
  simp only [List.cons_append, List.head?_cons, List.head?_drop, Nat.succ_eq_add_one, List.getElem?_cons_succ,
    List.getElem?_append_left hi, List.getElem?_eq_getElem hi, Option.some.injEq] at hhead
  exact hfirst (hhead ▸ hbs _ (List.getElem_mem hi))

/-- Where a loop goes on behind a character, it has missed no place to stop. -/
theorem Holds.isLeast_haltsAt {d : Char} {ds : List Char} (h : x.Holds q (d :: ds))
    (hts : ∀ t ∈ ts, Utf8.WellFormed t) (hq : ¬x.HaltsAt ts q)
    (hr : IsLeast {r | q + (Utf8.ofChars [d]).length ≤ r ∧ x.HaltsAt ts r} r) :
    IsLeast {r | q ≤ r ∧ x.HaltsAt ts r} r := by
  refine ⟨⟨Nat.le_trans (Nat.le_add_right _ _) hr.1.1, hr.1.2⟩, ?_⟩
  rintro k ⟨hk, hhalt⟩
  by_cases hle : q + (Utf8.ofChars [d]).length ≤ k
  · exact hr.2 ⟨hle, hhalt⟩
  · exfalso
    have hsize := h.size_eq
    rw [Utf8.ofChars_cons, ← Utf8.ofChars_singleton, List.length_append] at hsize
    obtain ⟨j, rfl⟩ := Nat.exists_eq_add_of_le hk
    rcases hhalt with hend | ⟨t, ht, hat⟩
    · omega
    · by_cases hj : j = 0
      · subst hj
        exact hq (.inr ⟨t, ht, hat⟩)
      · refine h.not_textAt (hts t ht) ?_ (Nat.pos_of_ne_zero hj) (by omega) hat
        rintro rfl
        exact hq (.inr ⟨[], ht, textAt_iff.mpr ⟨h.1, List.nil_prefix⟩⟩)

end Subject

/-- One character, unless the expression matches where it stands. -/
def Expr.anyBut (e : Expr) : Expr := .seq (.look .negative e) (.ref Builtin.any.name)

/-- Neither separators nor a call limit get in the way. -/
structure State.Undisturbed (g : Grammar) (s : State) : Prop where
  callLimit : s.callLimit = 0
  gaps : s.atomicity ≠ .nonAtomic ∨ g.hasWhitespace = false ∧ g.hasComment = false

theorem State.Undisturbed.grows {g : Grammar} {s t : State} (h : s.Undisturbed g) (hg : s.Grows t) :
    t.Undisturbed g := by
  refine ⟨hg.callLimit.trans h.callLimit, ?_⟩
  rw [hg.atomicity]
  exact h.gaps

namespace Moment

variable {g : Grammar} {x : Subject} {n q : Nat} {s t : State} {l : Literal} {ls : List Literal} {d e : Expr}
  {k : Match}

theorem Ends.grows {task : Task} (h : Ends g x ⟨n, task, q, s⟩ k t) (hq : q ≤ x.size) : s.Grows t :=
  (framed_outcome g x n task (h.outcome_eq hq)).1

theorem ends_skip (h : s.Undisturbed g) : Ends g x ⟨n, .skip, q, s⟩ (.matched q) s := by
  by_cases hm : s.atomicity = .nonAtomic
  · obtain ⟨hw, hc⟩ := h.gaps.resolve_left (not_not_intro hm)
    have hgap : g.gapTask = .nothing := by rw [Grammar.gapTask, hw, hc]
    exact .skip hm (hgap ▸ .nothing)
  · exact .skip_nothing hm

theorem ends_any (h : s.Undisturbed g) :
    ∃ t, Ends g x ⟨n + 1, .expr (.ref Builtin.any.name), q, s⟩ (x.skip 1 q) t :=
  ⟨_, .ref (.builtin rfl (fun hl => hl.1 h.callLimit) rfl)⟩

theorem Ends.reassociated (h : Ends g x ⟨n, .expr d, q, s⟩ k t) (hde : d.Reassociates e) (hq : q ≤ x.size) :
    Ends g x ⟨n, .expr e, q, s⟩ k t := by
  have ho := h.outcome_eq hq
  have hrun := hde.run_eq (g := g) (g.tidy_caller x n)
  refine (ends_iff hq).mpr ?_
  rw [outcome, Task.run, ← hrun]
  exact ho

/-- A choice of texts ends. It matches where one of them stands. -/
theorem ends_choiceAll (g : Grammar) (x : Subject) (l : Literal) (ls : List Literal) (n q : Nat) (s : State) : ∃ k t,
    Ends g x ⟨n, .expr (.choiceAll (.literal l) (ls.map .literal)), q, s⟩ k t ∧
      (k.succeeded = true ↔ ∃ l' ∈ l :: ls, l'.text <+: x.after q) := by
  have hl : ∀ l : Literal, (x.text l.text q).succeeded = true ↔ l.text <+: x.after q := by
    intro l
    rw [Subject.text, ← List.isPrefixOf_iff_prefix]
    split
    · rename_i h
      simp [h, Match.succeeded]
    · rename_i h
      simp [h, Match.succeeded]
  induction ls generalizing l s with
  | nil => exact ⟨_, _, .test rfl, by simp [hl]⟩
  | cons l' ls ih =>
      have htest := Ends.test (g := g) (n := n) (p := q) (s := s) (rfl : (Expr.literal l).matcher? x = some _)
      have hfirst := hl l
      rcases hw : x.text l.text q with r | r <;> rw [hw] at htest hfirst
      · exact ⟨_, _, .choice_first htest, by simp [← hfirst, Match.succeeded]⟩
      · obtain ⟨k, u, hk, hiff⟩ := ih l' (s.note (.failed r))
        refine ⟨k, _, .choice_second htest hk, ?_⟩
        rw [hiff, List.exists_mem_cons_iff (l := l' :: ls), ← hfirst]
        simp [Match.succeeded]

section Loop

variable (he : (Expr.choiceAll (.literal l) (ls.map .literal)).Reassociates e)

include he

theorem ends_unless (n : Nat) (h : s.Undisturbed g) (hq : q ≤ x.size) : ∃ t, t.Undisturbed g ∧
    ((∃ u ∈ (l :: ls).map Literal.text, x.TextAt u q) ∧ Ends g x ⟨n, .expr (.look .negative e), q, s⟩ (.failed q) t ∨
      (¬∃ u ∈ (l :: ls).map Literal.text, x.TextAt u q) ∧
        Ends g x ⟨n, .expr (.look .negative e), q, s⟩ (.matched q) t) := by
  obtain ⟨k, t, hk, hiff⟩ := ends_choiceAll g x l ls n q (s.lookInto .negative)
  have hat : (∃ u ∈ (l :: ls).map Literal.text, x.TextAt u q) ↔ k.succeeded = true := by
    simp only [hiff, Subject.textAt_iff, hq, true_and, List.mem_map, exists_exists_and_eq_and]
  have hlook := Ends.look (hk.reassociated he hq)
  refine ⟨_, h.grows (hlook.grows hq), ?_⟩
  rw [hat]
  cases k with
  | matched r => exact .inl ⟨rfl, hlook⟩
  | failed r => exact .inr ⟨nofun, hlook⟩

theorem ends_anyBut_failed (n : Nat) (h : s.Undisturbed g) (hq : x.HaltsAt ((l :: ls).map Literal.text) q) :
    ∃ t, Ends g x ⟨n + 1, .expr (.anyBut e), q, s⟩ (.failed q) t := by
  obtain ⟨t, ht, ⟨-, hlook⟩ | ⟨hnone, hlook⟩⟩ := ends_unless he (n + 1) h hq.le_size
  · exact ⟨_, .seq (.both_first hlook)⟩
  · obtain rfl := hq.resolve_right hnone
    obtain ⟨u, hany⟩ := ends_any (x := x) (n := n) (q := x.size) ht
    have hd : x.Holds x.size [] := ⟨Nat.le_refl _, List.eq_nil_of_length_eq_zero (by rw [x.length_after, Nat.sub_self])⟩
    rw [hd.skip_one_nil] at hany
    exact ⟨_, .seq (.both hlook (.both (ends_skip ht) hany))⟩

theorem ends_anyBut_matched (n : Nat) (h : s.Undisturbed g) (hq : ¬x.HaltsAt ((l :: ls).map Literal.text) q)
    {c : Char} {cs : List Char} (hd : x.Holds q (c :: cs)) :
    ∃ t, Ends g x ⟨n + 1, .expr (.anyBut e), q, s⟩ (.matched (q + (Utf8.ofChars [c]).length)) t := by
  obtain ⟨t, ht, ⟨hat, -⟩ | ⟨-, hlook⟩⟩ := ends_unless he (n + 1) h hd.1
  · exact absurd (.inr hat) hq
  · obtain ⟨u, hany⟩ := ends_any (x := x) (n := n) (q := q) ht
    rw [hd.skip_one_cons] at hany
    exact ⟨_, .seq (.both hlook (.both (ends_skip ht) hany))⟩

/-- The rounds end where one of the texts stands, or else where the subject ends. -/
theorem ends_rounds (n : Nat) (hl : ∀ u ∈ (l :: ls).map Literal.text, Utf8.WellFormed u) {cs : List Char}
    (h : s.Undisturbed g) (hd : x.Holds q cs) :
    ∃ r t, IsLeast {r | q ≤ r ∧ x.HaltsAt ((l :: ls).map Literal.text) r} r ∧
      Ends g x ⟨n + 1, .many none (.both .skip (.expr (.anyBut e))), q, s⟩ (.matched r) t := by
  have hstop : ∀ {q s}, s.Undisturbed g → x.HaltsAt ((l :: ls).map Literal.text) q →
      ∃ r t, IsLeast {r | q ≤ r ∧ x.HaltsAt ((l :: ls).map Literal.text) r} r ∧
        Ends g x ⟨n + 1, .many none (.both .skip (.expr (.anyBut e))), q, s⟩ (.matched r) t := by
    intro q s h hq
    obtain ⟨t, ht⟩ := ends_anyBut_failed he n h hq
    exact ⟨q, _, ⟨⟨Nat.le_refl q, hq⟩, fun r hr => hr.1⟩, .many_failed nofun (.both (ends_skip h) ht)⟩
  induction cs generalizing q s with
  | nil => exact hstop h (.inl hd.size_eq.symm)
  | cons c cs ih =>
      by_cases hq : x.HaltsAt ((l :: ls).map Literal.text) q
      · exact hstop h hq
      · obtain ⟨t, ht⟩ := ends_anyBut_matched he n h hq hd
        have hpos := Utf8.length_encodeChar_pos c
        rw [← Utf8.ofChars_singleton] at hpos
        obtain ⟨r, u, hr, hu⟩ := ih (h.grows (ht.grows hd.1)) hd.next
        exact ⟨r, u, hd.isLeast_haltsAt hl hq hr, .many_more nofun (.both (ends_skip h) ht) (by omega) hu⟩

/-- The first round is made before the others, and no separators stand behind it. -/
theorem ends_loop (n : Nat) (hl : ∀ u ∈ (l :: ls).map Literal.text, Utf8.WellFormed u) {cs : List Char}
    (h : s.Undisturbed g) (hd : x.Holds q cs) :
    ∃ r t, IsLeast {r | q ≤ r ∧ x.HaltsAt ((l :: ls).map Literal.text) r} r ∧
      Ends g x ⟨n + 1, .expr (.zeroOrMore (.anyBut e)), q, s⟩ (.matched r) t := by
  have hmax : Count.zeroOrMore.max? ≠ some 0 := by decide
  by_cases hq : x.HaltsAt ((l :: ls).map Literal.text) q
  · obtain ⟨t, ht⟩ := ends_anyBut_failed he n h hq
    have hocc : Ends g x ⟨n + 1, .occurrences .zeroOrMore (.anyBut e), q, s⟩ (.failed q) t :=
      .both_first (.both_first ht)
    exact ⟨q, t, ⟨⟨Nat.le_refl q, hq⟩, fun r hr => hr.1⟩, .repeated_optional hmax rfl hocc⟩
  · cases cs with
    | nil => exact absurd (.inl hd.size_eq.symm) hq
    | cons c cs =>
        obtain ⟨t, ht⟩ := ends_anyBut_matched he n h hq hd
        obtain ⟨r, u, hr, hu⟩ := ends_rounds he n hl (h.grows (ht.grows hd.1)) hd.next
        have hocc : Ends g x ⟨n + 1, .occurrences .zeroOrMore (.anyBut e), q, s⟩ (.matched r) u :=
          .both (.both ht .nothing) hu
        exact ⟨r, u, hd.isLeast_haltsAt hl hq hr, .repeated_optional hmax rfl hocc⟩

end Loop

end Moment

namespace Expr

variable {g : Grammar} {x : Subject} {l : Literal} {ls : List Literal} {e : Expr}

/-- A scan matches if one of its texts occurs at all. It ends at the first place where one does, and so does the loop
that it is short for, however the choice in it is nested. If none occurs, the scan fails and the loop runs to the end
of the subject. -/
theorem scan_agrees_with_loop (hl : ∀ l' ∈ l :: ls, Utf8.WellFormed l'.text)
    (he : (choiceAll (.literal l) (ls.map .literal)).Reassociates e) {p : Nat} (hp : x.IsBoundary p) {s : State}
    (hlimit : s.callLimit = 0) (hgaps : s.atomicity ≠ .nonAtomic ∨ g.hasWhitespace = false ∧ g.hasComment = false)
    (depth : Nat) :
    ((∃ q t, (scan l ls).run g x (g.caller x (depth + 1)) p s = .done (.matched q) t) ↔
      (x.occurrences ((l :: ls).map Literal.text) p).Nonempty) ∧
    (∀ q t, (scan l ls).run g x (g.caller x (depth + 1)) p s = .done (.matched q) t →
      IsLeast (x.occurrences ((l :: ls).map Literal.text) p) q ∧
        ∃ u, (zeroOrMore (anyBut e)).run g x (g.caller x (depth + 1)) p s = .done (.matched q) u) ∧
    (x.occurrences ((l :: ls).map Literal.text) p = ∅ →
      (∃ t, (scan l ls).run g x (g.caller x (depth + 1)) p s = .done (.failed p) t) ∧
        ∃ u, (zeroOrMore (anyBut e)).run g x (g.caller x (depth + 1)) p s = .done (.matched x.size) u) := by
  obtain ⟨cs, hd⟩ := hp.holds
  obtain ⟨r, u, hr, hloop⟩ := Moment.ends_loop he depth (List.forall_mem_map.mpr hl) ⟨hlimit, hgaps⟩ hd
  have hend := hloop.outcome_eq hd.1
  rw [Moment.outcome, Task.run] at hend
  have hscan : (scan l ls).run g x (g.caller x (depth + 1)) p s =
      .done (x.skipUntilAny l.text (ls.map Literal.text) p)
        (s.note (x.skipUntilAny l.text (ls.map Literal.text) p)) := rfl
  rw [hscan, List.map_cons]
  rcases x.skipUntilAny_cases l.text (ls.map Literal.text) hd.1 with ⟨q, hq, hleast⟩ | ⟨hq, hnone⟩ <;> rw [hq]
  · have hne := hleast.nonempty
    rcases Subject.isLeast_occurrences_or hr with hr | ⟨hempty, -⟩
    · obtain rfl := hleast.unique hr
      refine ⟨⟨fun _ => hne, fun _ => ⟨_, _, rfl⟩⟩, ?_, fun h => absurd h hne.ne_empty⟩
      rintro q t ⟨⟩
      exact ⟨hleast, u, hend⟩
    · exact absurd hempty hne.ne_empty
  · rcases Subject.isLeast_occurrences_or hr with hr | ⟨-, rfl⟩
    · exact absurd hnone hr.nonempty.ne_empty
    · refine ⟨⟨?_, fun h => absurd hnone h.ne_empty⟩, ?_, fun _ => ⟨⟨_, rfl⟩, u, hend⟩⟩
      · rintro ⟨q, t, ⟨⟩⟩
      · rintro q t ⟨⟩

/-- The loop passes an accent that it is not to stop at before it stops at one. -/
theorem scan_agrees_with_loop_accents :
    let g : Grammar := ⟨[.written "whitespace" .silent (.written " ")], by decide, by decide, by decide⟩
    let x := Subject.ofOctets [0x78, 0xC3, 0xA9, 0x79, 0xC3, 0xA9, 0x62, 0x61]
    let a : Literal := ⟨ascii "ba", ascii "ba", by decide⟩
    let b : Literal := ⟨ascii "a", ascii "a", by decide⟩
    let c : Literal := ⟨ascii "\\xE9b", [0xC3, 0xA9, 0x62], by decide⟩
    let e : Expr := .choice (.choice (.literal a) (.literal b)) (.literal c)
    let s : State := { atomicity := .atomic }
    (∀ l ∈ [a, b, c], Utf8.WellFormed l.text) ∧
      (choiceAll (.literal a) ([b, c].map .literal)).Reassociates e ∧ x.IsBoundary 1 ∧ s.callLimit = 0 ∧
      (s.atomicity ≠ .nonAtomic ∨ g.hasWhitespace = false ∧ g.hasComment = false) ∧ g.hasWhitespace = true ∧
      (∃ t, (scan a [b, c]).run g x (g.caller x 1) 1 s = .done (.matched 4) t) ∧
      IsLeast (x.occurrences [ascii "ba", ascii "a", [0xC3, 0xA9, 0x62]] 1) 4 ∧
      ∃ u, (zeroOrMore (anyBut e)).run g x (g.caller x 1) 1 s = .done (.matched 4) u := by
  intro g x a b c e s
  have hl : ∀ l ∈ [a, b, c], Utf8.WellFormed l.text := by
    simp only [List.forall_mem_cons, List.not_mem_nil, false_implies, implies_true, and_true]
    exact ⟨⟨['b', 'a'], by decide⟩, ⟨['a'], by decide⟩, ⟨['é', 'b'], by decide⟩⟩
  have he : (choiceAll (.literal a) ([b, c].map .literal)).Reassociates e := .symm (.choice_assoc _ _ _)
  have hp : x.IsBoundary 1 := ⟨['x'], ['é', 'y', 'é', 'b', 'a'], by decide, by decide⟩
  have hgaps : s.atomicity ≠ .nonAtomic ∨ g.hasWhitespace = false ∧ g.hasComment = false := .inl (by decide)
  obtain ⟨hleast, hloop⟩ := (scan_agrees_with_loop hl he hp rfl hgaps 0).2.1 4 _ rfl
  exact ⟨hl, he, hp, rfl, hgaps, rfl, ⟨_, rfl⟩, hleast, hloop⟩

end Expr

end Peg
