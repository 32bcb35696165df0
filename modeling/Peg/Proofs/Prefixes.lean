import Mathlib.Computability.Language
import Peg.Grammar.Written
import Peg.Proofs.Semantics
import Peg.Proofs.Utf8

/-! What a grammar matches at the front of a text of characters, and what has to follow there. -/

namespace Peg

open Computability

section Openings

variable {cs ds s t : List Char}

/-- Nothing, or a text that begins with one of some characters. -/
def OpensIn (cs s : List Char) : Prop := ∀ c ∈ s.head?, c ∈ cs

/-- Nothing, or a text that begins with none of some characters. -/
def Avoids (cs s : List Char) : Prop := ∀ c ∈ s.head?, c ∉ cs

theorem OpensIn.nil : OpensIn cs [] := nofun

theorem OpensIn.cons {c : Char} (h : c ∈ cs) (s : List Char) : OpensIn cs (c :: s) := by
  rintro _ ⟨⟩
  exact h

theorem OpensIn.mono (h : OpensIn cs s) (hs : cs ⊆ ds) : OpensIn ds s := fun c hc => hs (h c hc)

theorem OpensIn.append (hs : OpensIn cs s) (ht : OpensIn ds t) : OpensIn (cs ++ ds) (s ++ t) := by
  cases s with
  | nil => exact ht.mono (List.subset_append_right cs ds)
  | cons c s => exact .cons (List.mem_append_left ds (hs c rfl)) (s ++ t)

theorem OpensIn.avoids (h : OpensIn cs s) (hd : cs ∩ ds = []) : Avoids ds s := by
  intro c hc hm
  have hboth : c ∈ cs ∩ ds := List.mem_inter_iff.mpr ⟨h c hc, hm⟩
  exact List.ne_nil_of_mem hboth hd

theorem Avoids.nil : Avoids cs [] := nofun

theorem Avoids.cons {c : Char} (h : c ∉ cs) (s : List Char) : Avoids cs (c :: s) := by
  rintro _ ⟨⟩
  exact h

theorem Avoids.mono (h : Avoids ds s) (hs : cs ⊆ ds) : Avoids cs s := fun c hc hm => h c hc (hs hm)

end Openings

namespace Task

/-- In front of `rest` the task matches `taken`. -/
def Takes (g : Grammar) (m : Atomicity) (t : Task) (taken rest : List Char) : Prop :=
  ∀ ⦃x p⦄ c, x.Holds p (taken ++ rest) → ∃ f, Eval g x m t p c (.ok (p + (Utf8.ofChars taken).length) c f)

def Misses (g : Grammar) (m : Atomicity) (t : Task) (s : List Char) : Prop :=
  ∀ ⦃x p⦄ c, x.Holds p s → Eval g x m t p c .fail

/-- What begins with none of these characters is missed. -/
def Needs (g : Grammar) (m : Atomicity) (t : Task) (cs : List Char) : Prop := ∀ ⦃s⦄, Avoids cs s → t.Misses g m s

variable {g : Grammar} {m : Atomicity} {t u : Task} {d e : Expr} {l : Literal} {r : RuneRange} {name : Octets}
  {a c : Char} {v w rest s cs ds : List Char}

section Terminals

theorem Takes.literal (hl : l.text = Utf8.ofChars v) : (Task.expr (.literal l)).Takes g m v rest := by
  intro x p c hs
  have he : Eval g x m (.expr (.literal l)) p c _ := .literal
  rw [hl, hs.text, if_pos (List.prefix_append v rest)] at he
  exact ⟨_, he⟩

theorem Misses.literal (hl : l.text = Utf8.ofChars v) (hv : ¬v <+: s) : (Task.expr (.literal l)).Misses g m s := by
  intro x p c hx
  have he : Eval g x m (.expr (.literal l)) p c _ := .literal
  rwa [hl, hx.text, if_neg hv] at he

theorem Needs.literal (a : Char) (v : List Char) (hl : l.text = Utf8.ofChars (a :: v)) :
    (Task.expr (.literal l)).Needs g m [a] := by
  intro s hs
  refine .literal hl ?_
  rintro ⟨w, rfl⟩
  exact hs a rfl (List.mem_singleton_self a)

theorem Takes.folded (hl : l.text = Utf8.ofChars w) (h : v.map (Utf8.fold ·.toNat) = w.map (Utf8.fold ·.toNat)) :
    (Task.expr (.folded l)).Takes g m v rest := by
  intro x p c hs
  have hlen : w.length = v.length := by simpa only [List.length_map] using congrArg List.length h.symm
  have he : Eval g x m (.expr (.folded l)) p c _ := .folded
  rw [hl, hs.foldedText, hlen, List.take_left, if_pos h] at he
  exact ⟨_, he⟩

theorem Misses.folded (hl : l.text = Utf8.ofChars w)
    (h : (s.take w.length).map (Utf8.fold ·.toNat) ≠ w.map (Utf8.fold ·.toNat)) :
    (Task.expr (.folded l)).Misses g m s := by
  intro x p c hs
  have he : Eval g x m (.expr (.folded l)) p c _ := .folded
  rwa [hl, hs.foldedText, if_neg h] at he

theorem Takes.range (h : r.low ≤ a.toNat ∧ a.toNat ≤ r.high) : (Task.expr (.range r)).Takes g m [a] rest := by
  intro x p c hs
  have he : Eval g x m (.expr (.range r)) p c _ := .range
  rw [hs.runeIn_cons, if_pos h] at he
  exact ⟨_, he⟩

theorem Misses.range (h : ∀ a ∈ s.head?, ¬(r.low ≤ a.toNat ∧ a.toNat ≤ r.high)) :
    (Task.expr (.range r)).Misses g m s := by
  intro x p c hx
  have he : Eval g x m (.expr (.range r)) p c _ := .range
  cases s with
  | nil => rwa [hx.runeIn_nil] at he
  | cons a s => rwa [hx.runeIn_cons, if_neg (h a rfl)] at he

theorem Needs.range (h : ∀ a : Char, r.low ≤ a.toNat ∧ a.toNat ≤ r.high → a ∈ cs) :
    (Task.expr (.range r)).Needs g m cs :=
  fun _ hs => .range fun a ha hr => hs a ha (h a hr)

theorem Takes.endOfInput : (Task.call Builtin.endOfInput.name).Takes g m [] [] := by
  intro x p c h
  have hend : x.atEnd p = .matched p := if_pos h.size_eq.symm
  have he : Eval g x m (.call Builtin.endOfInput.name) p c _ := .endOfInput
  rw [hend] at he
  exact ⟨_, he⟩

end Terminals

section Calls

variable {body : Rule} (hb : Builtin.ofName? name = none) (hf : g.find? name = some body)

include hb hf

theorem Takes.call (h : (Task.expr body.body).Takes g (body.modeInside m) v rest) :
    (Task.call name).Takes g m v rest := by
  intro x p c hs
  obtain ⟨f, he⟩ := h c hs
  exact ⟨_, .rule hb hf he⟩

/-- A match of a rule that has nodes is told by a node, and the text of the node is what was taken. -/
theorem Takes.node (hn : body.hasNode m = true) (h : (Task.expr body.body).Takes g (body.modeInside m) v rest)
    {x : Subject} {p : Nat} (c : List Span) (hx : x.Holds p (v ++ rest)) :
    ∃ q f, q = p + (Utf8.ofChars v).length ∧ x.Holds q rest ∧ x.slice ⟨p, q⟩ = Utf8.ofChars v ∧
      Eval g x m (.call name) p c (.ok q c (.node name ⟨p, q⟩ f)) := by
  obtain ⟨f, he⟩ := h c hx
  have hcall := Eval.rule hb hf he
  rw [hn, (Grammar.find?_eq_some hf).2] at hcall
  exact ⟨_, f, rfl, hx.drop, hx.slice, hcall⟩

theorem Misses.call (h : (Task.expr body.body).Misses g (body.modeInside m) s) : (Task.call name).Misses g m s :=
  fun _ _ c hs => .rule hb hf (h c hs)

theorem Needs.call (h : (Task.expr body.body).Needs g (body.modeInside m) cs) : (Task.call name).Needs g m cs :=
  fun _ hs => .call hb hf (h hs)

end Calls

theorem Takes.ref (h : (Task.call name).Takes g m v rest) : (Task.expr (.ref name)).Takes g m v rest := by
  intro x p c hs
  obtain ⟨f, he⟩ := h c hs
  exact ⟨f, .ref he⟩

theorem Misses.ref (h : (Task.call name).Misses g m s) : (Task.expr (.ref name)).Misses g m s :=
  fun _ _ c hs => .ref (h c hs)

section Choices

theorem Takes.choice_first (h : (Task.expr d).Takes g m v rest) : (Task.expr (.choice d e)).Takes g m v rest := by
  intro x p c hs
  obtain ⟨f, he⟩ := h c hs
  exact ⟨f, .choice_first he nofun⟩

theorem Takes.choice_second (hd : (Task.expr d).Misses g m (v ++ rest)) (he : (Task.expr e).Takes g m v rest) :
    (Task.expr (.choice d e)).Takes g m v rest := by
  intro x p c hs
  obtain ⟨f, he⟩ := he c hs
  exact ⟨f, .choice_second (hd c hs) he⟩

theorem Takes.choice_char (hl : l.text = Utf8.ofChars [a]) (h : c ≠ a → (Task.expr e).Takes g m [c] rest) :
    (Task.expr (.choice (.literal l) e)).Takes g m [c] rest := by
  by_cases hc : c = a
  · subst hc
    exact .choice_first (.literal hl)
  · have ha : c ∉ [a] := fun hm => hc (List.mem_singleton.mp hm)
    have hmiss : (Task.expr (.literal l)).Misses g m (c :: rest) := Needs.literal a [] hl (.cons ha rest)
    exact .choice_second hmiss (h hc)

theorem Misses.choice (hd : (Task.expr d).Misses g m s) (he : (Task.expr e).Misses g m s) :
    (Task.expr (.choice d e)).Misses g m s :=
  fun _ _ c hs => .choice_second (hd c hs) (he c hs)

theorem Needs.choice (hd : (Task.expr d).Needs g m cs) (he : (Task.expr e).Needs g m ds) :
    (Task.expr (.choice d e)).Needs g m (cs ++ ds) :=
  fun _ hs => .choice (hd (hs.mono (List.subset_append_left cs ds))) (he (hs.mono (List.subset_append_right cs ds)))

theorem Takes.optional (h : (Task.expr e).Takes g m v rest) : (Task.expr (.optional e)).Takes g m v rest := by
  intro x p c hs
  obtain ⟨f, he⟩ := h c hs
  exact ⟨f, .optional he⟩

theorem Takes.optional_nil (h : (Task.expr e).Misses g m rest) : (Task.expr (.optional e)).Takes g m [] rest :=
  fun _ _ c hs => ⟨_, .optional (h c hs)⟩

theorem Takes.look_negative (h : (Task.expr e).Misses g m rest) :
    (Task.expr (.look .negative e)).Takes g m [] rest :=
  fun _ _ c hs => ⟨_, .look .negative (h c hs)⟩

theorem Misses.look_negative (h : (Task.expr e).Takes g m v rest) :
    (Task.expr (.look .negative e)).Misses g m (v ++ rest) := by
  intro x p c hs
  obtain ⟨f, he⟩ := h c hs
  exact .look .negative he

end Choices

section Sequences

theorem Takes.nothing : Task.nothing.Takes g m [] rest := fun _ _ _ _ => ⟨_, .nothing⟩

theorem Takes.both (ht : t.Takes g m v (w ++ rest)) (hu : u.Takes g m w rest) :
    (Task.both t u).Takes g m (v ++ w) rest := by
  intro x p c hs
  rw [List.append_assoc] at hs
  obtain ⟨f, hf⟩ := ht c hs
  obtain ⟨f', hf'⟩ := hu c hs.drop
  rw [Utf8.ofChars_append, List.length_append, ← Nat.add_assoc]
  exact ⟨_, .both hf hf'⟩

theorem Misses.both_first (h : t.Misses g m s) : (Task.both t u).Misses g m s :=
  fun _ _ c hs => .both_first (h c hs) trivial

theorem Misses.both_second (ht : t.Takes g m v s) (hu : u.Misses g m s) : (Task.both t u).Misses g m (v ++ s) := by
  intro x p c hs
  obtain ⟨f, he⟩ := ht c hs
  exact .both he (hu c hs.drop)

theorem Takes.skip (h : g.gapTask.Takes g .nonAtomic v rest) : Task.skip.Takes g .nonAtomic v rest := by
  intro x p c hs
  obtain ⟨f, he⟩ := h c hs
  exact ⟨f, .skip he⟩

theorem Takes.skip_nothing (hm : m ≠ .nonAtomic) : Task.skip.Takes g m [] rest :=
  fun _ _ _ _ => ⟨_, .skip_nothing hm⟩

/-- The second part is matched behind a gap. -/
theorem Takes.seq (hd : (Task.expr d).Takes g m v (w ++ rest)) (he : (Task.both .skip (.expr e)).Takes g m w rest) :
    (Task.expr (.seq d e)).Takes g m (v ++ w) rest := by
  intro x p c hs
  obtain ⟨f, hf⟩ := Takes.both hd he c hs
  exact ⟨f, .seq hf⟩

theorem Misses.seq_first (h : (Task.expr d).Misses g m s) : (Task.expr (.seq d e)).Misses g m s :=
  fun _ _ c hs => .seq (h.both_first c hs)

theorem Misses.seq_second (hd : (Task.expr d).Takes g m v s) (he : (Task.both .skip (.expr e)).Misses g m s) :
    (Task.expr (.seq d e)).Misses g m (v ++ s) :=
  fun _ _ c hs => .seq (Misses.both_second hd he c hs)

theorem Needs.seq (h : (Task.expr d).Needs g m cs) : (Task.expr (.seq d e)).Needs g m cs :=
  fun _ hs => (h hs).seq_first

end Sequences

section Repetitions

variable {L : Language Char}

/-- As many matches as there are, if each is found in front of whatever may follow it. -/
theorem Takes.many {F : List Char → Prop} (hv : v ∈ L∗) (hne : [] ∉ L) (ht : ∀ u ∈ L, ∀ r, F r → t.Takes g m u r)
    (hF : ∀ u ∈ L, ∀ r, F r → F (u ++ r)) (hrest : F rest) (hmiss : t.Misses g m rest) :
    (Task.many none t).Takes g m v rest := by
  have hroom : (none : Option Nat) ≠ some 0 := nofun
  have hnext : ∀ l : List (List Char), (∀ u ∈ l, u ∈ L) → F (l.flatten ++ rest) := by
    intro l hl
    induction l with
    | nil => exact hrest
    | cons u l ih =>
        obtain ⟨hu, hl⟩ := List.forall_mem_cons.mp hl
        rw [List.flatten_cons, List.append_assoc]
        exact hF u hu _ (ih hl)
  obtain ⟨l, rfl, hl⟩ := hv
  induction l with
  | nil => exact fun x p c hs => ⟨_, .many_failed hroom (hmiss c hs)⟩
  | cons u l ih =>
      obtain ⟨hu, hl⟩ := List.forall_mem_cons.mp hl
      intro x p c hs
      rw [List.flatten_cons, List.append_assoc] at hs
      obtain ⟨f, hf⟩ := ht u hu _ (hnext l hl) c hs
      obtain ⟨f', hf'⟩ := ih hl c hs.drop
      have hpos : 0 < (Utf8.ofChars u).length :=
        List.length_pos_of_ne_nil fun hn => hne (Utf8.ofChars_eq_nil.mp hn ▸ hu)
      rw [List.flatten_cons, Utf8.ofChars_append, List.length_append, ← Nat.add_assoc]
      exact ⟨_, .many_more hroom hf (Nat.lt_add_of_pos_right hpos) hf'⟩

theorem takes_many_full : (Task.many (some 0) t).Takes g m [] rest := fun _ _ _ _ => ⟨_, .many_full⟩

theorem Takes.repeated {count : Count} (hc : count.max? ≠ some 0)
    (h : (Task.occurrences count e).Takes g m v rest) : (Task.expr (.repeated count e)).Takes g m v rest := by
  intro x p c hs
  obtain ⟨f, he⟩ := h c hs
  have hr := Eval.repeated hc he
  simp only [Answer.orNothing, ite_self] at hr
  exact ⟨f, hr⟩

/-- An occurrence, and then as many as come behind gaps. -/
theorem Takes.occurrences (he : (Task.expr e).Takes g m v (w ++ rest))
    (hmany : (Task.many none (.both .skip (.expr e))).Takes g m w rest) :
    (Task.occurrences .oneOrMore e).Takes g m (v ++ w) rest := by
  have hone : (Task.both (.expr e) .nothing).Takes g m (v ++ []) (w ++ rest) := .both he .nothing
  rw [List.append_nil] at hone
  exact .both hone hmany

theorem Takes.oneOrMore (he : (Task.expr e).Takes g m v (w ++ rest))
    (hmany : (Task.many none (.both .skip (.expr e))).Takes g m w rest) :
    (Task.expr (.oneOrMore e)).Takes g m (v ++ w) rest := by
  have hc : Count.oneOrMore.max? ≠ some 0 := nofun
  exact .repeated hc (he.occurrences hmany)

theorem Needs.oneOrMore (h : (Task.expr e).Needs g m cs) : (Task.expr (.oneOrMore e)).Needs g m cs := by
  intro s hs x p c hx
  have hc : Count.oneOrMore.max? ≠ some 0 := nofun
  have hmiss : (Task.occurrences .oneOrMore e).Misses g m s := (h hs).both_first.both_first
  exact .repeated hc (hmiss c hx)

theorem Takes.zeroOrMore_cons (he : (Task.expr e).Takes g m v (w ++ rest))
    (hmany : (Task.many none (.both .skip (.expr e))).Takes g m w rest) :
    (Task.expr (.zeroOrMore e)).Takes g m (v ++ w) rest := by
  have hc : Count.zeroOrMore.max? ≠ some 0 := nofun
  exact .repeated hc (he.occurrences hmany)

theorem Takes.zeroOrMore_nil (h : (Task.expr e).Misses g m rest) :
    (Task.expr (.zeroOrMore e)).Takes g m [] rest := by
  have hc : Count.zeroOrMore.max? ≠ some 0 := nofun
  have hmiss : (Task.occurrences .zeroOrMore e).Misses g m rest := h.both_first.both_first
  exact fun x p c hs => ⟨_, .repeated hc (hmiss c hs)⟩

end Repetitions

/-! Where no separators are skipped there are no gaps. -/

section Atomic

variable {L : Language Char} (hm : m ≠ .nonAtomic)

include hm

theorem Takes.next_atomic (h : (Task.expr e).Takes g m v rest) : (Task.both .skip (.expr e)).Takes g m v rest :=
  .both (v := []) (.skip_nothing hm) h

theorem Misses.next_atomic (h : (Task.expr e).Misses g m s) : (Task.both .skip (.expr e)).Misses g m s :=
  .both_second (v := []) (.skip_nothing hm) h

theorem Takes.seq_atomic (hd : (Task.expr d).Takes g m v (w ++ rest)) (he : (Task.expr e).Takes g m w rest) :
    (Task.expr (.seq d e)).Takes g m (v ++ w) rest :=
  .seq hd (he.next_atomic hm)

theorem Misses.seq_atomic (hd : (Task.expr d).Takes g m v s) (he : (Task.expr e).Misses g m s) :
    (Task.expr (.seq d e)).Misses g m (v ++ s) :=
  .seq_second hd (he.next_atomic hm)

theorem Needs.seq_optional (hd : (Task.expr d).Needs g m cs) (he : (Task.expr e).Needs g m ds) :
    (Task.expr (.seq (.optional d) e)).Needs g m (cs ++ ds) := by
  intro s hs
  have hd := hd (hs.mono (List.subset_append_left cs ds))
  have he := he (hs.mono (List.subset_append_right cs ds))
  exact .seq_atomic (v := []) hm (.optional_nil hd) he

variable (he : ∀ u ∈ L, ∀ r, (Task.expr e).Takes g m u r)

include he

theorem Takes.many_atomic (hne : [] ∉ L) (hmiss : (Task.expr e).Misses g m rest) (hv : v ∈ L∗) :
    (Task.many none (.both .skip (.expr e))).Takes g m v rest := by
  have hnext : ∀ u ∈ L, ∀ r, True → (Task.both .skip (.expr e)).Takes g m u r :=
    fun u hu r _ => (he u hu r).next_atomic hm
  exact .many hv hne hnext (fun _ _ _ _ => trivial) trivial (hmiss.next_atomic hm)

theorem Takes.oneOrMore_atomic (hne : [] ∉ L) (hmiss : (Task.expr e).Misses g m rest) (hv : v ∈ L * L∗) :
    (Task.expr (.oneOrMore e)).Takes g m v rest := by
  obtain ⟨u, hu, w, hw, rfl⟩ := Language.mem_mul.mp hv
  exact (he u hu _).oneOrMore (.many_atomic hm he hne hmiss hw)

theorem Takes.zeroOrMore_atomic (hne : [] ∉ L) (hmiss : (Task.expr e).Misses g m rest) (hv : v ∈ L∗) :
    (Task.expr (.zeroOrMore e)).Takes g m v rest := by
  rw [← one_add_mul_kstar] at hv
  rcases hv with rfl | hv
  · exact .zeroOrMore_nil hmiss
  · obtain ⟨u, hu, w, hw, rfl⟩ := Language.mem_mul.mp hv
    exact (he u hu _).zeroOrMore_cons (.many_atomic hm he hne hmiss hw)

theorem Takes.further_atomic {n : Nat} (hv : v ∈ L ^ n) : (Task.further e n).Takes g m v rest := by
  induction n generalizing v with
  | zero =>
      cases hv
      exact .nothing
  | succ n ih =>
      rw [pow_succ'] at hv
      obtain ⟨u, hu, w, hw, rfl⟩ := Language.mem_mul.mp hv
      exact .both ((he u hu _).next_atomic hm) (ih hw)

theorem Takes.exactly_atomic {n : Nat} (hv : v ∈ L ^ (n + 1)) :
    (Task.expr (.repeated (.exactly (n + 1)) e)).Takes g m v rest := by
  have hc : (Count.exactly (n + 1)).max? ≠ some 0 := nofun
  have hroom : (Count.exactly (n + 1)).max?.map (· - max (n + 1) 1) = some 0 := by simp [Count.max?]
  rw [pow_succ'] at hv
  obtain ⟨u, hu, w, hw, rfl⟩ := Language.mem_mul.mp hv
  have hfull : (Task.many (some 0) (.both .skip (.expr e))).Takes g m [] rest := takes_many_full
  have hall := ((he u hu _).both (.further_atomic hm he hw)).both hfull
  rw [List.append_nil, ← hroom] at hall
  exact .repeated hc hall

end Atomic

end Task

end Peg
