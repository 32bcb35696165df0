import Peg.Proofs.Json.Blanks
import Peg.Proofs.Json.Lexemes

/-! The grammar matches every JSON text, and each part of it as far as it goes. -/

namespace Peg.JsonCheck

open Computability Peg.Expr

variable {m : Atomicity} {v rest s : List Char}

/-- Parts that do not begin with a blank or a closing bracket and are matched wherever a part may end. -/
def Part (part : Expr) : Language Char :=
  {u | (∃ c s, u = c :: s ∧ c ∉ blanks ++ [']', '\x7d']) ∧
    ∀ rest, OpensIn enders rest → (Task.expr part).Takes grammar .nonAtomic u rest}

section Brackets

variable {part : Expr} {l : Literal} {a b : Char}

theorem Part.avoids {u : List Char} (hu : u ∈ Part part) : Avoids (blanks ++ [']', '\x7d']) (u ++ s) := by
  obtain ⟨⟨c, t, rfl, hc⟩, -⟩ := hu
  exact .cons hc (t ++ s)

/-- A comma and another part. -/
def further (part : Language Char) : Language Char := {[',']} * (Json.ws * part)

theorem takes_further (hv : v ∈ further (Part part)) (hrest : OpensIn enders rest) :
    (Task.expr (seq (written ",") part)).Takes grammar .nonAtomic v rest := by
  obtain ⟨_, rfl, _, hpart, rfl⟩ := Language.mem_mul.mp hv
  obtain ⟨w, hw, u, hu, rfl⟩ := Language.mem_mul.mp hpart
  exact .seq (.literal rfl) (.both (takes_ws hw ((Part.avoids hu).mono (by decide))) (hu.2 rest hrest))

theorem nil_notMem_round {L : Language Char} : [] ∉ Json.ws * further L := by
  intro h
  obtain ⟨w, -, _, hfurther, h⟩ := Language.mem_mul.mp h
  obtain ⟨_, rfl, u, -, rfl⟩ := Language.mem_mul.mp hfurther
  exact List.append_ne_nil_of_right_ne_nil w (List.cons_ne_nil ',' u) h

theorem opensIn_round {L : Language Char} (hv : v ∈ Json.ws * further L) : OpensIn enders v := by
  obtain ⟨w, hw, _, hfurther, rfl⟩ := Language.mem_mul.mp hv
  obtain ⟨_, rfl, u, -, rfl⟩ := Language.mem_mul.mp hfurther
  exact ((opensIn_ws hw).append (.cons (List.mem_singleton_self ',') u)).mono (by decide)

theorem avoids_further {L : Language Char} (hv : v ∈ further L) : Avoids blanks (v ++ s) := by
  obtain ⟨_, rfl, u, -, rfl⟩ := Language.mem_mul.mp hv
  exact .cons (by decide) (u ++ s)

theorem takes_round (hv : v ∈ Json.ws * further (Part part)) (hrest : OpensIn enders rest) :
    (Task.both .skip (.expr (seq (written ",") part))).Takes grammar .nonAtomic v rest := by
  obtain ⟨w, hw, k, hk, rfl⟩ := Language.mem_mul.mp hv
  exact .both (takes_ws hw (avoids_further hk)) (takes_further hk hrest)

theorem opensIn_rounds {L : Language Char} (hv : v ∈ (Json.ws * further L)∗) : OpensIn enders v := by
  obtain ⟨l, rfl, hl⟩ := hv
  induction l with
  | nil => exact .nil
  | cons r l ih =>
      obtain ⟨hr, hl⟩ := List.forall_mem_cons.mp hl
      exact ((opensIn_round hr).append (ih hl)).mono (by simp)

theorem opensIn_closing {L : Language Char} (hb : b ∈ [']', '\x7d'])
    (hv : v ∈ (Json.ws * further L)∗ * (Json.ws * {[b]})) : OpensIn enders (v ++ s) := by
  obtain ⟨rounds, hrounds, _, hclosing, rfl⟩ := Language.mem_mul.mp hv
  obtain ⟨w, hw, _, rfl, rfl⟩ := Language.mem_mul.mp hclosing
  have hbrace : OpensIn [']', '\x7d'] ([b] ++ s) := .cons hb s
  rw [List.append_assoc, List.append_assoc]
  exact ((opensIn_rounds hrounds).append ((opensIn_ws hw).append hbrace)).mono (by decide)

/-- The gap in front of the first round is not part of the repetition. -/
theorem takes_more {k more : List Char} (hk : k ∈ further (Part part))
    (hmore : more ∈ (Json.ws * further (Part part))∗) (hrest : OpensIn enders rest)
    (hmiss : (Task.both .skip (.expr (seq (written ",") part))).Misses grammar .nonAtomic rest) :
    (Task.expr (zeroOrMore (seq (written ",") part))).Takes grammar .nonAtomic (k ++ more) rest := by
  have hnext : ∀ u ∈ Json.ws * further (Part part), ∀ s, OpensIn enders s → OpensIn enders (u ++ s) :=
    fun u hu _ hs => ((opensIn_round hu).append hs).mono (by simp)
  have hmany : (Task.many none (.both .skip (.expr (seq (written ",") part)))).Takes grammar .nonAtomic more rest :=
    .many hmore nil_notMem_round (fun _ hu _ hs => takes_round hu hs) hnext hrest hmiss
  exact .zeroOrMore_cons (takes_further hk (((opensIn_rounds hmore).append hrest).mono (by simp))) hmany

/-- Rounds of a comma and a part, and the closing bracket. -/
theorem takes_rounds (hl : l.text = Utf8.ofChars [b]) (hb : b ∈ [']', '\x7d'])
    (hv : v ∈ (Json.ws * further (Part part))∗ * (Json.ws * {[b]})) :
    (Task.both .skip (.expr (seq (zeroOrMore (seq (written ",") part)) (literal l)))).Takes grammar .nonAtomic
      v rest := by
  obtain ⟨rounds, hrounds, _, hclosing, rfl⟩ := Language.mem_mul.mp hv
  obtain ⟨w, hw, _, rfl, rfl⟩ := Language.mem_mul.mp hclosing
  have hbrace : OpensIn [']', '\x7d'] ([b] ++ rest) := .cons hb rest
  have hws : Task.skip.Takes grammar .nonAtomic w ([b] ++ rest) := takes_ws hw (hbrace.avoids (by decide))
  have hmiss : (Task.expr (seq (written ",") part)).Misses grammar .nonAtomic ([b] ++ rest) :=
    Task.Needs.seq (.literal ',' [] rfl) (hbrace.avoids (by decide))
  rw [← one_add_mul_kstar] at hrounds
  rcases hrounds with rfl | hrounds
  · have hclose : (Task.both .skip (.expr (literal l))).Takes grammar .nonAtomic [b] rest :=
      .both (v := []) (takes_ws (Language.nil_mem_kstar _) (hbrace.avoids (by decide))) (.literal hl)
    have hnone : (Task.expr (zeroOrMore (seq (written ",") part))).Takes grammar .nonAtomic [] ([b] ++ rest) :=
      .zeroOrMore_nil hmiss
    exact Task.Takes.both (v := w) hws (.seq hnone hclose)
  · obtain ⟨_, hround, more, hmore, rfl⟩ := Language.mem_mul.mp hrounds
    obtain ⟨gap, hgap, k, hk, rfl⟩ := Language.mem_mul.mp hround
    have hends : OpensIn enders (w ++ [b] ++ rest) := by
      rw [List.append_assoc]
      exact ((opensIn_ws hw).append hbrace).mono (by decide)
    have hlast : (Task.both .skip (.expr (seq (written ",") part))).Misses grammar .nonAtomic
        (w ++ [b] ++ rest) := by
      rw [List.append_assoc]
      exact .both_second hws hmiss
    have hclose : (Task.both .skip (.expr (literal l))).Takes grammar .nonAtomic (w ++ [b]) rest :=
      .both hws (.literal hl)
    have hhead : Avoids blanks (k ++ more ++ (w ++ [b]) ++ rest) := by
      rw [List.append_assoc, List.append_assoc]
      exact avoids_further hk
    have hall := Task.Takes.both (takes_ws hgap hhead) (.seq (takes_more hk hmore hends hlast) hclose)
    simpa only [List.append_assoc] using hall

theorem takes_bracketed {opening : Literal} (ha : opening.text = Utf8.ofChars [a]) (hl : l.text = Utf8.ofChars [b])
    (hb : b ∈ [']', '\x7d']) (hv : v ∈ Json.bare a b (Part part)) :
    (Task.expr (bracketed (literal opening) (literal l) part)).Takes grammar .nonAtomic v rest := by
  have hbare : Json.bare a b (Part part) = {[a]} * (Json.ws * {[b]} +
      Json.ws * (Part part * ((Json.ws * further (Part part))∗ * (Json.ws * {[b]})))) := by
    simp only [Json.bare, further, mul_assoc, add_mul, one_mul]
  rw [hbare] at hv
  obtain ⟨_, rfl, inner, hinner, rfl⟩ := Language.mem_mul.mp hv
  rcases hinner with hempty | hfull
  · obtain ⟨w, hw, _, rfl, rfl⟩ := Language.mem_mul.mp hempty
    have hbrace : OpensIn [']', '\x7d'] ([b] ++ rest) := .cons hb rest
    exact .choice_first (.seq (.literal ha) (.both (takes_ws hw (hbrace.avoids (by decide))) (.literal hl)))
  · obtain ⟨w, hw, _, hparts, rfl⟩ := Language.mem_mul.mp hfull
    obtain ⟨u, hu, tail, htail, rfl⟩ := Language.mem_mul.mp hparts
    have hhead : Avoids (blanks ++ [']', '\x7d']) (u ++ tail ++ rest) := by
      rw [List.append_assoc]
      exact Part.avoids hu
    have hws : Task.skip.Takes grammar .nonAtomic w (u ++ tail ++ rest) := takes_ws hw (hhead.mono (by decide))
    have hclosed : Avoids [b] (u ++ tail ++ rest) :=
      hhead.mono (List.cons_subset.mpr ⟨List.mem_append_right blanks hb, List.nil_subset _⟩)
    have hempty : (Task.expr (seq (literal opening) (literal l))).Misses grammar .nonAtomic
        ([a] ++ (w ++ (u ++ tail ++ rest))) :=
      .seq_second (.literal ha) (.both_second hws (Task.Needs.literal b [] hl hclosed))
    have hfirst : (Task.expr part).Takes grammar .nonAtomic u (tail ++ rest) := hu.2 _ (opensIn_closing hb htail)
    have hall := Task.Takes.both hws (.seq hfirst (takes_rounds hl hb htail))
    refine .choice_second ?_ (.seq (.literal ha) hall)
    simpa only [List.append_assoc] using hempty

end Brackets

theorem needs_bracketed {l : Literal} {a : Char} {closing part : Expr} (hl : l.text = Utf8.ofChars [a]) :
    (Task.expr (bracketed (literal l) closing part)).Needs grammar m [a] := by
  intro s hs
  have hopening : (Task.expr (literal l)).Misses grammar m s := Task.Needs.literal a [] hl hs
  exact .choice (.seq_first hopening) (.seq_first hopening)

theorem needs_object : (Task.call (ascii "object")).Needs grammar m ['\x7b'] := .call rfl rfl (needs_bracketed rfl)

theorem needs_array : (Task.call (ascii "array")).Needs grammar m ['['] := .call rfl rfl (needs_bracketed rfl)

theorem bareMember_le : Json.bareMember (Part (rule "value")) ≤ Part (rule "member") := by
  intro v hv
  obtain ⟨name, hname, _, hcolon, rfl⟩ := Language.mem_mul.mp hv
  obtain ⟨w, hw, _, hvalue, rfl⟩ := Language.mem_mul.mp hcolon
  obtain ⟨_, rfl, _, hpadded, rfl⟩ := Language.mem_mul.mp hvalue
  obtain ⟨w', hw', u, hu, rfl⟩ := Language.mem_mul.mp hpadded
  refine ⟨?_, fun rest hrest => ?_⟩
  · obtain ⟨s, rfl⟩ := string_head hname
    exact ⟨'"', _, rfl, by decide⟩
  · have hcolon : Avoids blanks ([':'] ++ (w' ++ u) ++ rest) := .cons (by decide) (w' ++ u ++ rest)
    have hvalue : (Task.both .skip (.expr (rule "value"))).Takes grammar .nonAtomic (w' ++ u) rest :=
      .both (takes_ws hw' ((Part.avoids hu).mono (by decide))) (hu.2 rest hrest)
    exact .ref (.call rfl rfl (.seq (.ref (takes_string hname))
      (.both (takes_ws hw hcolon) (.seq (.literal rfl) hvalue))))

theorem bareObject_le : Json.bare '\x7b' '\x7d' (Part (rule "member")) ≤ Part (rule "value") := by
  intro v hv
  obtain ⟨s, rfl⟩ := Json.bare_head '\x7b' '\x7d' _ hv
  refine ⟨⟨'\x7b', s, rfl, by decide⟩, fun rest _ => ?_⟩
  have hobject : (Task.call (ascii "object")).Takes grammar .nonAtomic ('\x7b' :: s) rest :=
    .call rfl rfl (takes_bracketed rfl rfl (by decide) hv)
  exact .ref (.call rfl rfl (.choice_first (.ref hobject)))

theorem bareArray_le : Json.bare '[' ']' (Part (rule "value")) ≤ Part (rule "value") := by
  intro v hv
  obtain ⟨s, rfl⟩ := Json.bare_head '[' ']' _ hv
  refine ⟨⟨'[', s, rfl, by decide⟩, fun rest _ => ?_⟩
  have harray : (Task.call (ascii "array")).Takes grammar .nonAtomic ('[' :: s) rest :=
    .call rfl rfl (takes_bracketed rfl rfl (by decide) hv)
  exact .ref (.call rfl rfl (.choice_second (.ref (needs_object (.cons (by decide) (s ++ rest))))
    (.choice_first (.ref harray))))

theorem string_le : Json.string ≤ Part (rule "value") := by
  intro v hv
  obtain ⟨s, rfl⟩ := string_head hv
  refine ⟨⟨'"', s, rfl, by decide⟩, fun rest _ => ?_⟩
  have hhead : OpensIn ['"'] ('"' :: s ++ rest) := .cons (by decide) (s ++ rest)
  exact .ref (.call rfl rfl (.choice_second (.ref (needs_object (hhead.avoids (by decide))))
    (.choice_second (.ref (needs_array (hhead.avoids (by decide)))) (.choice_first (.ref (takes_string hv))))))

theorem number_le : Json.number ≤ Part (rule "value") := by
  intro v hv
  obtain ⟨c, s, rfl, hc⟩ := number_head hv
  have hnumber : OpensIn ('-' :: digits) (c :: s) := .cons hc s
  have hpart : Avoids (blanks ++ [']', '\x7d']) (c :: s) := hnumber.avoids (by decide)
  refine ⟨⟨c, s, rfl, hpart c rfl⟩, fun rest hrest => ?_⟩
  have hhead : OpensIn ('-' :: digits) (c :: s ++ rest) := .cons hc (s ++ rest)
  exact .ref (.call rfl rfl (.choice_second (.ref (needs_object (hhead.avoids (by decide))))
    (.choice_second (.ref (needs_array (hhead.avoids (by decide))))
      (.choice_second (.ref (needs_string (hhead.avoids (by decide))))
        (.choice_first (.ref (takes_number hv hrest)))))))

/-- The words are tried last, when nothing else begins so. -/
theorem takes_word (hs : OpensIn ['t', 'f', 'n'] (v ++ rest))
    (h : (Task.expr (choice (rule "boolean") (rule "null"))).Takes grammar .nonAtomic v rest) :
    (Task.expr (rule "value")).Takes grammar .nonAtomic v rest :=
  .ref (.call rfl rfl (.choice_second (.ref (needs_object (hs.avoids (by decide))))
    (.choice_second (.ref (needs_array (hs.avoids (by decide))))
      (.choice_second (.ref (needs_string (hs.avoids (by decide))))
        (.choice_second (.ref (needs_number (hs.avoids (by decide)))) h)))))

theorem needs_boolean : (Task.call (ascii "boolean")).Needs grammar m ['t', 'f'] :=
  .call rfl rfl (.choice (.literal 't' "rue".toList rfl) (.literal 'f' "alse".toList rfl))

theorem true_le : {"true".toList} ≤ Part (rule "value") := by
  rintro _ rfl
  refine ⟨⟨'t', "rue".toList, rfl, by decide⟩, fun rest _ => ?_⟩
  refine takes_word (.cons (by decide) ("rue".toList ++ rest)) (.choice_first ?_)
  exact .ref (.call rfl rfl (.choice_first (.literal rfl)))

theorem false_le : {"false".toList} ≤ Part (rule "value") := by
  rintro _ rfl
  refine ⟨⟨'f', "alse".toList, rfl, by decide⟩, fun rest _ => ?_⟩
  have hhead : Avoids ['t'] ("false".toList ++ rest) := .cons (by decide) ("alse".toList ++ rest)
  have htrue : (Task.expr (written "true")).Misses grammar .nonAtomic ("false".toList ++ rest) :=
    Task.Needs.literal 't' "rue".toList rfl hhead
  refine takes_word (.cons (by decide) ("alse".toList ++ rest)) (.choice_first ?_)
  exact .ref (.call rfl rfl (.choice_second htrue (.literal rfl)))

theorem null_le : {"null".toList} ≤ Part (rule "value") := by
  rintro _ rfl
  refine ⟨⟨'n', "ull".toList, rfl, by decide⟩, fun rest _ => ?_⟩
  have hhead : OpensIn ['n'] ("null".toList ++ rest) := .cons (by decide) ("ull".toList ++ rest)
  refine takes_word (hhead.mono (by decide)) (.choice_second (.ref (needs_boolean (hhead.avoids (by decide)))) ?_)
  exact .ref (.call rfl rfl (.literal rfl))

theorem object_le :
    Json.object (Json.ws * Part (rule "value") * Json.ws) ≤ Json.ws * Part (rule "value") * Json.ws :=
  calc Json.object (Json.ws * Part (rule "value") * Json.ws)
      ≤ Json.enclosed '\x7b' '\x7d' (Json.ws * Json.bareMember (Part (rule "value")) * Json.ws) :=
        Json.enclosed_mono '\x7b' '\x7d' (Json.member_le_bareMember _)
    _ ≤ Json.enclosed '\x7b' '\x7d' (Json.ws * Part (rule "member") * Json.ws) := by
        refine Json.enclosed_mono '\x7b' '\x7d' ?_
        gcongr
        exact bareMember_le
    _ ≤ Json.ws * Json.bare '\x7b' '\x7d' (Part (rule "member")) * Json.ws := Json.enclosed_le_bare _ _ _
    _ ≤ Json.ws * Part (rule "value") * Json.ws := by
        gcongr
        exact bareObject_le

theorem array_le : Json.array (Json.ws * Part (rule "value") * Json.ws) ≤ Json.ws * Part (rule "value") * Json.ws :=
  calc Json.array (Json.ws * Part (rule "value") * Json.ws)
      ≤ Json.ws * Json.bare '[' ']' (Part (rule "value")) * Json.ws := Json.enclosed_le_bare _ _ _
    _ ≤ Json.ws * Part (rule "value") * Json.ws := by
        gcongr
        exact bareArray_le

/-- Apart from the blanks around it, a value is matched as one. -/
theorem value_le : Json.value ≤ Json.ws * Part (rule "value") * Json.ws := by
  have hpad : Part (rule "value") ≤ Json.ws * Part (rule "value") * Json.ws := Json.le_padded _
  refine Json.value_le ?_
  unfold Json.forms
  exact add_le (add_le (add_le (add_le (add_le (add_le (false_le.trans hpad) (null_le.trans hpad))
    (true_le.trans hpad)) object_le) array_le) (number_le.trans hpad)) (string_le.trans hpad)

end Peg.JsonCheck
