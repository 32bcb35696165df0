import Peg.Proofs.Calc.Renderings
import Peg.Proofs.Calc.Soundness

/-! The grammar matches every expression, however it is written. -/

namespace Peg.Calc

open Computability Peg.Expr

variable {x : Subject} {m : Atomicity} {p q r : Nat} {c : List Span} {b s rest : List Char} {f g : Forest} {l : Level}
  {t : Tree} {role : Role}

section Gaps

theorem takes_blank {a : Char} (ha : a ∈ blanks) : (Task.call whitespaceName).Takes grammar m [a] rest := by
  refine .call rfl rfl (.choice_char (a := ' ') rfl fun h => ?_)
  obtain rfl : a = '\t' := by simpa [blanks, h] using ha
  exact .literal rfl

theorem takes_gap (hb : Gap b) (hrest : Avoids blanks rest) : Task.skip.Takes grammar .nonAtomic b rest := by
  let L : Language Char := {v | ∃ a ∈ blanks, v = [a]}
  have hflat : b = (b.map ([·])).flatten := by rw [← List.flatMap_def, List.flatMap_singleton']
  have hstar : b ∈ L∗ := ⟨b.map ([·]), hflat, List.forall_mem_map.mpr fun a ha => ⟨a, hb a ha, rfl⟩⟩
  have hne : [] ∉ L := by
    rintro ⟨a, -, ha⟩
    cases ha
  have hblank : ∀ u ∈ L, ∀ r, True → (Task.call whitespaceName).Takes grammar .nonAtomic u r := by
    rintro _ ⟨a, ha, rfl⟩ r -
    exact takes_blank ha
  have hmiss : (Task.call whitespaceName).Needs grammar .nonAtomic blanks :=
    .call rfl rfl (.choice (.literal ' ' [] rfl) (.literal '\t' [] rfl))
  exact .skip (.many hstar hne hblank (fun _ _ _ _ => trivial) trivial (hmiss hrest))

/-- At a text, or in the gap that it begins with. -/
def Near (x : Subject) (q : Nat) (s : List Char) : Prop := ∃ b s', s = b ++ s' ∧ Gap b ∧ x.Holds q s'

theorem Near.of_holds (h : x.Holds q s) : Near x q s := ⟨[], s, rfl, nofun, h⟩

/-- Wherever it is in a gap, skipping leads to the end of the gap. -/
theorem Near.skip (h : Near x q (b ++ s)) (hb : Gap b) (hs : Avoids blanks s) (c : List Span) :
    ∃ r, x.Holds r s ∧ q ≤ r ∧ Eval grammar x .nonAtomic .skip q c (.ok r c .nil) := by
  obtain ⟨d, s', he, hd, hx⟩ := h
  have hin : ∃ u, s' = u ++ s ∧ Gap u := by
    rcases List.append_eq_append_iff.mp he with ⟨u, rfl, rfl⟩ | ⟨u, rfl, rfl⟩
    · cases u with
      | nil => exact ⟨[], rfl, nofun⟩
      | cons a u => exact absurd (hd a (by simp)) (hs a rfl)
    · exact ⟨u, rfl, fun a ha => hb a (List.mem_append_right d ha)⟩
  obtain ⟨u, rfl, hu⟩ := hin
  obtain ⟨f, hf⟩ := takes_gap hu hs c hx
  cases forest_skip hf hx.1
  exact ⟨_, hx.drop, Nat.le_add_right _ _, hf⟩

end Gaps

section Rounds

theorem needs_operator (l : Level) : (Task.call l.operatorName).Needs grammar m l.operators := by
  cases l with
  | sum => exact .call rfl rfl (.choice (.literal '+' [] rfl) (.literal '-' [] rfl))
  | product => exact .call rfl rfl (.choice (.literal '*' [] rfl) (.literal '/' [] rfl))

theorem needs_round (l : Level) : (Task.expr l.round).Needs grammar .nonAtomic l.operators :=
  .seq fun _ hs => .ref (needs_operator l hs)

/-- Rounds of a level lead to a text. The first try of a round keeps the gap that was skipped for it, further ones
give it back if they fail, so the two need not end in the same place. -/
structure Goes (x : Subject) (l : Level) (q : Nat) (c : List Span) (f : Forest) (s : List Char) : Prop where
  further : ∃ r, Near x r s ∧
    Eval grammar x .nonAtomic (.many none (.both .skip (.expr l.round))) q c (.ok r c f)
  any : ∃ r, Near x r s ∧ Eval grammar x .nonAtomic (.both .skip (.expr (zeroOrMore l.round))) q c (.ok r c f)

/-- Before anything but an operator of the level there are no rounds. -/
theorem Goes.stop (h : Near x q (b ++ s)) (hb : Gap b) (hs : Avoids (blanks ++ l.operators) s) (c : List Span) :
    Goes x l q c .nil (b ++ s) := by
  obtain ⟨r, hr, -, hskip⟩ := h.skip hb (hs.mono (List.subset_append_left _ _)) c
  have hmiss := needs_round l (hs.mono (List.subset_append_right _ _)) c hr
  have hcount : Count.zeroOrMore.max? ≠ some 0 := nofun
  have hnone : Eval grammar x .nonAtomic (.expr (zeroOrMore l.round)) r c _ :=
    .repeated hcount (.both_first (.both_first hmiss trivial) trivial)
  exact ⟨⟨q, h, .many_failed nofun (.both hskip hmiss)⟩, r, ⟨b, s, rfl, hb, hr⟩, .both hskip hnone⟩

theorem Goes.cons {q' : Nat} (hskip : Eval grammar x .nonAtomic .skip q c (.ok r c .nil))
    (hround : Eval grammar x .nonAtomic (.expr l.round) r c (.ok q' c f)) (hq : q < q') (h : Goes x l q' c g s) :
    Goes x l q c (f ++ g) s := by
  obtain ⟨r', hr', hmore⟩ := h.further
  have hcount : Count.zeroOrMore.max? ≠ some 0 := nofun
  have hany : Eval grammar x .nonAtomic (.expr (zeroOrMore l.round)) r c (.ok r' c (f ++ .nil ++ g)) :=
    .repeated hcount (.both (.both hround .nothing) hmore)
  rw [Forest.append_nil] at hany
  have hroom : (none : Option Nat) ≠ some 0 := nofun
  exact ⟨⟨r', hr', .many_more hroom (.both hskip hround) hq hmore⟩, r', hr', .both hskip hany⟩

theorem takes_operator (op : Operator) :
    ∃ r, grammar.find? op.level.operatorName = some r ∧ r.hasNode .nonAtomic = true ∧
      (Task.expr r.body).Takes grammar (r.modeInside .nonAtomic) [op.char] rest := by
  cases op with
  | add | mul => exact ⟨_, rfl, rfl, .choice_first (.literal rfl)⟩
  | sub => exact ⟨_, rfl, rfl, .choice_second (Task.Needs.literal '+' [] rfl (.cons (by decide) rest)) (.literal rfl)⟩
  | div => exact ⟨_, rfl, rfl, .choice_second (Task.Needs.literal '*' [] rfl (.cons (by decide) rest)) (.literal rfl)⟩

theorem eval_operator (op : Operator) (hx : x.Holds r ([op.char] ++ rest)) (c : List Span) :
    ∃ q inner, x.Holds q rest ∧ r < q ∧ x.slice ⟨r, q⟩ = op.text ∧ Eval grammar x .nonAtomic
      (.call op.level.operatorName) r c (.ok q c (.node op.level.operatorName ⟨r, q⟩ inner)) := by
  have htext : Utf8.ofChars [op.char] = op.text := by cases op <;> rfl
  have hb : Builtin.ofName? op.level.operatorName = none := by cases op <;> rfl
  obtain ⟨body, hf, hn, htakes⟩ := takes_operator op
  obtain ⟨q, inner, hq, hdrop, hslice, hcall⟩ := htakes.node hb hf hn c hx
  rw [htext] at hq hslice
  exact ⟨q, inner, hdrop, hq ▸ Nat.lt_succ_self r, hslice, hcall⟩

end Rounds

section Lexemes

theorem find?_number : grammar.find? (ascii "number") = some (.written "number" .atomic number) := rfl

theorem needs_number : (Task.expr (rule "number")).Needs grammar .nonAtomic digits := by
  have hnumber : (Task.expr number).Needs grammar .atomic digits := .seq (.oneOrMore needs_digit)
  exact fun s hs => .ref (Task.Needs.call rfl rfl hnumber hs)

theorem takes_number (hs : s ∈ numeral) (hrest : Ends Level.product.stops rest) :
    (Task.expr number).Takes grammar .atomic s rest := by
  obtain ⟨ds, hds, fs, hfs, rfl⟩ := Language.mem_mul.mp hs
  have hrest := hrest.opensIn
  have hbehind := (opensIn_frac hfs).append hrest
  exact .seq_atomic nofun (takes_digits hds (hbehind.avoids (by decide))) (takes_frac hfs (hrest.avoids (by decide)))

def letter : Expr := choice (writtenRange "a" "z") (writtenRange "A" "Z")

theorem find?_ident : grammar.find? (ascii "ident") = some (.written "ident" .atomic letter) := rfl

theorem takes_letter {i : Letter} {a : Char} (ha : a ∈ i.chars) : (Task.expr letter).Takes grammar m [a] rest := by
  rcases Letter.toNat_of_mem ha with h | h
  · exact .choice_first (.range h)
  · refine .choice_second (.range ?_) (.range h)
    rintro _ ⟨⟩ hsmall
    exact absurd (Nat.le_trans hsmall.1 h.2) (by decide)

theorem misses_ident {a : Char} (ha : a ∈ '(' :: digits) :
    (Task.expr (rule "ident")).Misses grammar .nonAtomic (a :: rest) := by
  have hlt := toNat_lt_of_mem_signs a (List.mem_append_left _ ha)
  have hrange : ∀ low high, 0x41 ≤ low → ∀ b ∈ (a :: rest).head?, ¬(low ≤ b.toNat ∧ b.toNat ≤ high) := by
    rintro low high hlow _ ⟨⟩ h
    omega
  have hletter : (Task.expr letter).Misses grammar .atomic (a :: rest) :=
    .choice (.range (hrange _ _ (by decide))) (.range (hrange _ _ (by decide)))
  exact .ref (.call rfl rfl hletter)

theorem needs_equals : (Task.expr (written "=")).Needs grammar .nonAtomic ['='] := .literal '=' [] rfl

theorem Opening.avoids (h : Opening s) : Avoids blanks s := by
  cases h with
  | other hc =>
      have hother : ∀ a ∈ '(' :: digits, a ∉ blanks := by simp [digits, blanks]
      exact .cons (hother _ hc) _
  | letter hc =>
      have hsub : blanks ⊆ signs := by decide
      exact .cons (fun h => Letter.notMem_signs hc (hsub h)) _

end Lexemes

section Parts

/-- The grammar matches a part, wherever it may end. Behind a chain it goes on with whatever rounds there are. -/
def Reads (role : Role) (s : List Char) (t : Tree) : Prop :=
  match role with
  | .operand l => ∀ {x p rest} (c : List Span), x.Holds p (s ++ rest) → Ends l.stops rest →
      ∃ q f, Near x q rest ∧ Shows x (.operand l) f t ∧
        Eval grammar x .nonAtomic (.call l.operandName) p c (.ok q c f)
  | .chain l => ∀ {x p rest} (c : List Span), x.Holds p (s ++ rest) → Ends l.stops rest →
      ∃ q f, Near x q rest ∧ Shows x (.chain l) f t ∧ ∀ {g s}, Goes x l q c g s →
        ∃ r, Near x r s ∧ Eval grammar x .nonAtomic (.expr l.body) p c (.ok r c (f ++ g))

theorem eval_factor (h : Eval grammar x .nonAtomic (.expr (choiceAll (rule "number") [
      seq (rule "ident") (look .negative (written "=")), seqAll (written "(") [rule "expr", written ")"]])) p c
        (.ok q c f)) :
    Eval grammar x .nonAtomic (.call (ascii "factor")) p c (.ok q c f) := by
  have hcall : Eval grammar x .nonAtomic (.call (ascii "factor")) p c _ := .rule rfl rfl h
  exact hcall

theorem reads_number (hs : s ∈ numeral) : Reads (.operand .product) s (.number (Utf8.ofChars s)) := by
  intro x p rest c hx hrest
  obtain ⟨q, inner, -, hq, hslice, hnode⟩ := (takes_number hs hrest).node (m := .nonAtomic) rfl find?_number rfl c hx
  rw [← hslice]
  exact ⟨q, _, .of_holds hq, .number ⟨p, q⟩ inner, eval_factor (.choice_first (.ref hnode) nofun)⟩

/-- The look behind a letter is behind the gap that follows it. -/
theorem reads_letter {i : Letter} {a : Char} (ha : a ∈ i.chars) : Reads (.operand .product) [a] (.letter i) := by
  intro x p rest c hx hrest
  obtain ⟨q, inner, -, hq, hslice, hnode⟩ := (takes_letter ha).node (m := .nonAtomic) rfl find?_ident rfl c hx
  have hletter : Letter.ofText? (x.slice ⟨p, q⟩) = some i := by
    rw [hslice]
    exact Letter.ofText?_of_mem ha
  have hsub : digits ⊆ signs := by decide
  have hnumber := needs_number (.cons (fun h => Letter.notMem_signs ha (hsub h)) rest) c hx
  obtain ⟨b, u, rfl, hb, hu⟩ := hrest
  obtain ⟨r, hr, -, hskip⟩ := (Near.of_holds hq).skip hb (hu.avoids (by decide)) c
  have hlook := Eval.look .negative (needs_equals (hu.avoids (by decide)) c hr)
  exact ⟨r, _, ⟨b, u, rfl, hb, hr⟩, .letter ⟨p, q⟩ inner hletter,
    eval_factor (.choice_second hnumber (.choice_first (.seq (.both (.ref hnode) (.both hskip hlook))) nofun))⟩

theorem Reads.first (h : Reads (.operand l) s t) : Reads (.chain l) s t := by
  intro x p rest c hx hrest
  obtain ⟨q, f, hq, hf, hoperand⟩ := h c hx hrest
  refine ⟨q, f, hq, .first hf, fun hgo => ?_⟩
  obtain ⟨r, hr, hany⟩ := hgo.any
  have hbody : Eval grammar x .nonAtomic (.expr l.body) p c _ := .seq (.both (.ref hoperand) hany)
  exact ⟨r, hr, hbody⟩

/-- An operator and its right operand make one more round. -/
theorem Reads.next {op : Operator} {b b' s' : List Char} {t' : Tree} (h : Reads (.chain op.level) s t) (hb : Gap b)
    (hb' : Gap b') (h' : Reads (.operand op.level) s' t')
    (hopen : ∀ {rest}, Ends Level.product.stops rest → Opening (s' ++ rest)) :
    Reads (.chain op.level) (s ++ b ++ [op.char] ++ b' ++ s') (.binary op t t') := by
  intro x p rest c hx hrest
  simp only [List.append_assoc] at hx
  have hblank : op.char ∉ blanks := by cases op <;> decide
  obtain ⟨q, f, hq, hf, hmore⟩ := h c hx ⟨b, _, rfl, hb, .cons op.char_mem_stops _⟩
  obtain ⟨r, hr, hqr, hskip⟩ := hq.skip hb (.cons hblank _) c
  obtain ⟨r', inner, hr', hrr', htext, hop⟩ := eval_operator op hr c
  have hopening := hopen (hrest.mono op.level.stops_subset)
  obtain ⟨u, hu, hru, hskip'⟩ := (Near.of_holds hr').skip hb' hopening.avoids c
  obtain ⟨v, g, hv, hg, hoperand⟩ := h' c hu hrest
  have huv := hoperand.spans.1.1
  have hround : Eval grammar x .nonAtomic (.expr op.level.round) r c _ :=
    .seq (.both (.ref hop) (.both hskip' (.ref hoperand)))
  refine ⟨v, _, hv, .next op ⟨r, r'⟩ inner hf htext hg, fun hgo => ?_⟩
  obtain ⟨w, hw, hbody⟩ := hmore (hgo.cons hskip hround (by omega))
  exact ⟨w, hw, by rwa [Forest.append_assoc]⟩

/-- Where no more rounds can come, a chain is all that there is. -/
theorem Reads.whole (h : Reads (.chain l) s t) (hx : x.Holds p (s ++ rest)) {cs : List Char} (hrest : Ends cs rest)
    (hcs : cs ⊆ l.stops) (hd : cs ∩ (blanks ++ l.operators) = []) (c : List Span) :
    ∃ q f, Near x q rest ∧ Shows x (.chain l) f t ∧ Eval grammar x .nonAtomic (.expr l.body) p c (.ok q c f) := by
  obtain ⟨q, f, hq, hf, hmore⟩ := h c hx (hrest.mono hcs)
  obtain ⟨b, u, rfl, hb, hu⟩ := hrest
  obtain ⟨r, hr, hbody⟩ := hmore (Goes.stop hq hb (hu.avoids hd) c)
  rw [Forest.append_nil] at hbody
  exact ⟨r, f, hr, hf, hbody⟩

theorem Reads.term (h : Reads (.chain .product) s t) : Reads (.operand .sum) s t := by
  intro x p rest c hx hrest
  obtain ⟨q, f, hq, hf, hbody⟩ := h.whole hx hrest (by decide) (by decide) c
  have hterm : Eval grammar x .nonAtomic (.call (ascii "term")) p c _ := .rule rfl rfl hbody
  exact ⟨q, _, hq, .term ⟨p, q⟩ hf, hterm⟩

theorem Reads.expr (h : Reads (.chain .sum) s t) (hx : x.Holds p (s ++ rest)) (hrest : Ends closers rest)
    (c : List Span) : ∃ q f, Near x q rest ∧ Shows x (.chain .sum) f t ∧
      Eval grammar x .nonAtomic (.call (ascii "expr")) p c (.ok q c (.node (ascii "expr") ⟨p, q⟩ f)) := by
  obtain ⟨q, f, hq, hf, hbody⟩ := h.whole hx hrest (by decide) (by decide) c
  have hexpr : Eval grammar x .nonAtomic (.call (ascii "expr")) p c _ := .rule rfl rfl hbody
  exact ⟨q, f, hq, hf, hexpr⟩

theorem eval_literal {k : Literal} {v : List Char} (hk : k.text = Utf8.ofChars v) (hx : x.Holds p (v ++ rest))
    (c : List Span) :
    Eval grammar x m (.expr (.literal k)) p c (.ok (p + (Utf8.ofChars v).length) c .nil) := by
  obtain ⟨f, hf⟩ := Task.Takes.literal hk c hx
  obtain rfl := hf.of_literal.2
  exact hf

theorem Reads.parens {b b' : List Char} (hb : Gap b) (hb' : Gap b') (h : Reads (.chain .sum) s t)
    (hopen : ∀ {rest}, Ends Level.product.stops rest → Opening (s ++ rest)) :
    Reads (.operand .product) (['('] ++ b ++ s ++ b' ++ [')']) t := by
  intro x p rest c hx _
  simp only [List.append_assoc] at hx
  have hrest : Ends closers (b' ++ ([')'] ++ rest)) := ⟨b', _, rfl, hb', .cons (by decide) rest⟩
  have hleft : Eval grammar x .nonAtomic (.expr (written "(")) p c _ := eval_literal rfl hx c
  obtain ⟨r, hr, -, hskip⟩ := (Near.of_holds hx.drop).skip hb (hopen (hrest.mono (by decide))).avoids c
  obtain ⟨q, f, hq, hf, hexpr⟩ := h.expr hr hrest c
  obtain ⟨u, hu, -, hskip'⟩ := hq.skip hb' (.cons (by decide) rest) c
  have hright : Eval grammar x .nonAtomic (.expr (written ")")) u c _ := eval_literal rfl hu c
  have hnumber := needs_number (.cons (by decide) _) c hx
  have hident : (Task.expr (seq (rule "ident") (look .negative (written "=")))).Misses grammar .nonAtomic
      ('(' :: (b ++ (s ++ (b' ++ ([')'] ++ rest))))) := .seq_first (misses_ident List.mem_cons_self)
  exact ⟨_, _, .of_holds hu.drop, .parens ⟨r, q⟩ hf,
    eval_factor (.choice_second hnumber (.choice_second (hident c hx)
      (.seq (.both hleft (.both hskip (.seq (.both (.ref hexpr) (.both hskip' hright))))))))⟩

theorem Writes.reads (h : Writes role s t) : Reads role s t := by
  induction h with
  | number hs => exact reads_number hs
  | letter hi => exact reads_letter hi
  | parens hb hb' h ih => exact ih.parens hb hb' h.opening
  | term _ ih => exact ih.term
  | first _ ih => exact ih.first
  | next op hb hb' _ h' ih ih' => exact ih.next hb hb' ih' h'.opening

end Parts

section Lines

theorem Opening.exists_mem_signs (h : Opening s) (hs : 2 ≤ s.length) : ∃ a ∈ s.take 2, a ∈ signs := by
  cases h with
  | @other a ha s => exact ⟨a, by simp, List.mem_append_left _ ha⟩
  | @letter i a s ha hrest =>
      cases s with
      | nil => exact absurd hs (Nat.not_succ_le_self 1)
      | cons d s => exact ⟨d, by simp, List.mem_append_right _ (hrest.opensIn d rfl)⟩

/-- No expression begins with a word of letters. -/
theorem Opening.misses_word (h : Opening s) {k : Literal} {w : List Char} (hk : k.text = Utf8.ofChars w)
    (hlen : 2 ≤ w.length) (hw : ∀ a ∈ w, 0x41 ≤ Utf8.fold a.toNat) : (Task.expr (.folded k)).Misses grammar m s := by
  refine .folded hk fun he => ?_
  have hl := congrArg List.length he
  rw [List.length_map, List.length_map, List.length_take] at hl
  obtain ⟨a, ha, hsign⟩ := h.exists_mem_signs (by omega)
  have hlt := toNat_lt_of_mem_signs a hsign
  have hfold : Utf8.fold a.toNat = a.toNat := by
    simp only [Utf8.fold]
    grind
  have hmem : Utf8.fold a.toNat ∈ w.map (Utf8.fold ·.toNat) := by
    rw [← he]
    exact List.mem_map_of_mem (f := (Utf8.fold ·.toNat)) ((List.take_subset_take_left s hlen) ha)
  obtain ⟨d, hd, hda⟩ := List.mem_map.mp hmem
  have hle := hw d hd
  rw [hda, hfold] at hle
  exact absurd hlt (Nat.not_lt.mpr hle)

theorem Opening.misses_quit (h : Opening s) : (Task.call (ascii "quit")).Misses grammar .nonAtomic s :=
  .call rfl rfl (.choice (h.misses_word (w := ['e', 'x', 'i', 't']) rfl (by decide) (by simp [Utf8.fold]))
    (h.misses_word (w := ['q', 'u', 'i', 't']) rfl (by decide) (by simp [Utf8.fold])))

theorem Opening.misses_assignment (h : Opening s) : (Task.call (ascii "assignment")).Misses grammar .nonAtomic s := by
  cases h with
  | other hc => exact .call rfl rfl (.seq_first (misses_ident hc))
  | @letter i a _ ha hrest =>
      obtain ⟨b, s, rfl, hb, hs⟩ := hrest
      have hident : (Task.expr (rule "ident")).Takes grammar .nonAtomic [a] (b ++ s) :=
        .ref (.call rfl rfl (takes_letter ha))
      have hmiss : (Task.expr (seqAll (written "=") [rule "expr"])).Misses grammar .nonAtomic s :=
        .seq_first (needs_equals (hs.avoids (by decide)))
      exact .call rfl rfl (.seq_second (v := [a]) hident (.both_second (takes_gap hb (hs.avoids (by decide))) hmiss))

theorem takes_eol {e : List Char} (he : e ∈ endings) :
    (Task.expr (optional (rule "eol"))).Takes grammar .nonAtomic e [] := by
  have hfeed : (Task.expr (written "\\n")).Needs grammar .nonAtomic ['\n'] := .literal '\n' [] rfl
  have hboth : (Task.expr (written "\\r\\n")).Needs grammar .nonAtomic ['\r'] := .literal '\r' ['\n'] rfl
  have hreturn : (Task.expr (written "\\r")).Needs grammar .nonAtomic ['\r'] := .literal '\r' [] rfl
  simp only [endings, List.mem_cons, List.not_mem_nil, or_false] at he
  rcases he with rfl | rfl | rfl | rfl
  · exact .optional_nil (.ref (.call rfl rfl (.choice (hfeed .nil) (.choice (hboth .nil) (hreturn .nil)))))
  · exact .optional (.ref (.call rfl rfl (.choice_first (.literal rfl))))
  · have hnext : (Task.expr (written "\\n")).Misses grammar .nonAtomic ['\r', '\n'] := hfeed (.cons (by decide) _)
    exact .optional (.ref (.call rfl rfl (.choice_second hnext (.choice_first (.literal rfl)))))
  · have hnext : (Task.expr (written "\\n")).Misses grammar .nonAtomic ['\r'] := hfeed (.cons (by decide) _)
    have hshort : (Task.expr (written "\\r\\n")).Misses grammar .nonAtomic ['\r'] :=
      .literal (v := ['\r', '\n']) rfl (by decide)
    exact .optional (.ref (.call rfl rfl (.choice_second hnext (.choice_second hshort (.literal rfl)))))

/-- A line that asks for a value is a statement, and its first pair shows the tree. -/
theorem eval_statement {line : List Char} (h : WritesLine line t) (hx : x.Holds 0 line) :
    ∃ q span inner next, Shows x (.chain .sum) inner t ∧ Eval grammar x .nonAtomic (.call (ascii "statement")) 0 []
      (.ok q [] (.cons (ascii "expr") span inner next)) := by
  obtain ⟨b, s, b', e, rfl, hb, hs, hb', he⟩ := h
  simp only [List.append_assoc] at hx
  have hopens : OpensIn closers e := by
    simp only [endings, List.mem_cons, List.not_mem_nil, or_false] at he
    rcases he with rfl | rfl | rfl | rfl
    · exact .nil
    all_goals exact .cons (by decide) _
  have hrest : Ends closers (b' ++ e) := ⟨b', e, rfl, hb', hopens⟩
  have hopening := hs.opening (hrest.mono (by decide))
  have hstart : Eval grammar x .nonAtomic (.call Builtin.startOfInput.name) 0 [] (.ok 0 [] .nil) := .startOfInput
  obtain ⟨r, hr, -, hskip⟩ := (Near.of_holds hx).skip hb hopening.avoids []
  obtain ⟨q, f, hq, hf, hexpr⟩ := Reads.expr hs.reads hr hrest []
  obtain ⟨u, hu, -, hskip'⟩ := hq.skip hb' (hopens.avoids (by decide)) []
  have hend : (Task.expr (seq (optional (rule "eol")) Expr.endOfInput)).Takes grammar .nonAtomic (e ++ []) [] :=
    .seq (takes_eol he) (.both (v := []) (takes_gap nofun .nil) (.ref .endOfInput))
  rw [← List.append_nil e, ← List.append_nil (e ++ [])] at hu
  obtain ⟨g, hg⟩ := hend [] hu
  have hchoice : Eval grammar x .nonAtomic (.expr (choiceAll (rule "quit") [rule "assignment", rule "expr"]))
      r [] _ :=
    .choice_second (.ref (hopening.misses_quit [] hr))
      (.choice_second (.ref (hopening.misses_assignment [] hr)) (.ref hexpr))
  have hstatement : Eval grammar x .nonAtomic (.call (ascii "statement")) 0 [] _ :=
    .rule rfl rfl (.seq (.both (.ref hstart) (.both hskip (.seq (.both hchoice (.both hskip' hg))))))
  exact ⟨_, ⟨r, q⟩, f, g, hf, hstatement⟩

end Lines

end Peg.Calc
