import Peg.JsonCheck.Grammar
import Peg.Proofs.Json.Blanks
import Peg.Proofs.Languages

/-! Whatever the grammar matches in a well-formed text is JSON. -/

namespace Peg.JsonCheck

open Computability Peg.Expr

variable {m : Atomicity} {n : Nat}

theorem spells_blank : (Task.call whitespaceName).Spells grammar m n Json.blank := by
  have h : (Task.call whitespaceName).Spells grammar m n ({[' ']} + ({['\t']} + ({['\r']} + {['\n']}))) :=
    .call rfl rfl (.choice (.literal rfl) (.choice (.literal rfl) (.choice (.literal rfl) (.literal rfl))))
  refine h.mono (le_of_eq ?_)
  rw [Json.blank, add_comm {['\r']}]
  simp only [add_assoc]

theorem spells_ws : Task.skip.Spells grammar .nonAtomic n Json.ws := .skip (spells_blank.many none)

theorem spells_digit : (Task.expr digit).Spells grammar m n Json.digit := .range

theorem spells_hexDigit : (Task.expr hexDigit).Spells grammar m n Json.hexDigit := by
  rw [Json.hexDigit, add_assoc]
  exact .choice .range (.choice .range .range)

theorem spells_exponent : (Task.expr (writtenFolded "e")).Spells grammar m n ({['e']} + {['E']}) := by
  have h : (Task.expr (writtenFolded "e")).Spells grammar m n _ := .folded (w := ['e']) rfl
  refine h.mono fun v hv => ?_
  obtain ⟨c, rfl, hc⟩ := List.map_eq_singleton_iff.mp hv
  rcases Utf8.fold_eq_e hc with hc | hc
  · exact .inl (congrArg ([·]) (Char.toNat_inj.mp hc))
  · exact .inr (congrArg ([·]) (Char.toNat_inj.mp hc))

theorem spells_digits : (Task.expr (oneOrMore digit)).Spells grammar .atomic n (Json.digit * Json.digit∗) :=
  .oneOrMore_atomic spells_digit nofun

theorem spells_number : (Task.call (ascii "number")).Spells grammar m n Json.number := by
  have hm : Atomicity.atomic ≠ .nonAtomic := nofun
  have hint : (Task.expr (choice (written "0") (seq (writtenRange "1" "9") (zeroOrMore digit)))).Spells
      grammar .atomic n Json.int :=
    .choice (.literal rfl) (.seq_atomic hm .range (.zeroOrMore_atomic spells_digit hm))
  have hfrac : (Task.expr (seq (written ".") (oneOrMore digit))).Spells grammar .atomic n Json.frac :=
    .seq_atomic hm (.literal rfl) spells_digits
  have hexp : (Task.expr (seqAll (writtenFolded "e")
      [optional (choice (written "+") (written "-")), oneOrMore digit])).Spells grammar .atomic n Json.exp := by
    rw [Json.exp, mul_assoc, add_comm {['-']}]
    exact .seq_atomic hm spells_exponent
      (.seq_atomic hm (.optional (.choice (.literal rfl) (.literal rfl))) spells_digits)
  refine .call rfl rfl ?_
  rw [Json.number, mul_assoc, mul_assoc]
  exact .seq_atomic hm (.optional (.literal rfl))
    (.seq_atomic hm hint (.seq_atomic hm (.optional hfrac) (.optional hexp)))

theorem spells_char : (Task.call (ascii "char")).Spells grammar .atomic n Json.char := by
  have hm : Atomicity.atomic ≠ .nonAtomic := nofun
  have hplain : (Task.expr (seq (look .negative (choice (written "\\\"") (written "\\\\")))
      (writtenRange "\\u\x7b20\x7d" "\\u\x7b10FFFF\x7d"))).Spells grammar .atomic n Json.unescaped := by
    refine .seq_unless hm .range ?_
    rintro _ ⟨c, rfl, hl, hh⟩ hc w
    by_cases hq : c = '"'
    · subst hq
      exact .choice_first (.literal rfl)
    · by_cases hb : c = '\\'
      · subst hb
        exact .choice_second (Task.Needs.literal '"' [] rfl (.cons (by decide) w)) (.literal rfl)
      · exact absurd (Json.mem_unescaped.mpr ⟨c, rfl, hl, hq, hb⟩) hc
  have hletter : (Task.expr (seq (written "\\\\") (choiceAll (written "\\\"") [
      written "\\\\", written "/", written "b", written "f", written "n", written "r", written "t"]))).Spells
      grammar .atomic n ({['\\']} * ({['"']} + ({['\\']} + ({['/']} + ({['b']} + ({['f']} + ({['n']} +
        ({['r']} + {['t']})))))))) :=
    .seq_atomic hm (.literal rfl) (.choice (.literal rfl) (.choice (.literal rfl) (.choice (.literal rfl)
      (.choice (.literal rfl) (.choice (.literal rfl) (.choice (.literal rfl) (.choice (.literal rfl)
        (.literal rfl))))))))
  have hcode : (Task.expr (seq (written "\\\\u") (repeated (.exactly 4) hexDigit))).Spells grammar .atomic n
      ({['\\'] ++ ['u']} * Json.hexDigit ^ 4) :=
    .seq_atomic hm (.literal rfl) (.exactly_atomic spells_hexDigit hm 3)
  refine .call rfl rfl ((hplain.choice (hletter.choice hcode)).mono (le_of_eq ?_))
  rw [Json.singleton_append ['\\'] ['u'], mul_assoc, ← mul_add]
  simp only [Json.char, Json.escaped, add_assoc]

theorem spells_string : (Task.call (ascii "string")).Spells grammar m n Json.string := by
  have hm : Atomicity.compoundAtomic ≠ .nonAtomic := nofun
  have htext : (Task.call (ascii "text")).Spells grammar .compoundAtomic n Json.char∗ :=
    .call rfl rfl (.zeroOrMore_atomic (.ref spells_char) nofun)
  refine .call rfl rfl ?_
  rw [Json.string, mul_assoc]
  exact .seq_atomic hm (.literal rfl) (.seq_atomic hm (.ref htext) (.literal rfl))

/-- The brackets take a character, so that there is less text for the parts between them. -/
theorem spells_bracketed {opening closing part : Expr} {a b : Char} {L : Language Char}
    (ha : (Task.expr opening).Spells grammar .nonAtomic (n + 1) {[a]})
    (hb : (Task.expr closing).Spells grammar .nonAtomic n {[b]})
    (hpart : (Task.expr part).Spells grammar .nonAtomic n L) :
    (Task.expr (bracketed opening closing part)).Spells grammar .nonAtomic (n + 1) (Json.enclosed a b L) := by
  have hne : [] ∉ ({[a]} : Language Char) := nofun
  have hcomma : (Task.expr (seq (written ",") part)).Spells grammar .nonAtomic n ({[',']} * (Json.ws * L)) :=
    .seq (.literal rfl) spells_ws hpart
  have hempty : (Task.expr (seq opening closing)).Spells grammar .nonAtomic (n + 1) ({[a]} * (Json.ws * {[b]})) :=
    .seq_behind ha hne spells_ws hb
  have hparts : (Task.expr (seqAll opening [part, zeroOrMore (seq (written ",") part), closing])).Spells grammar
      .nonAtomic (n + 1) _ :=
    .seq_behind ha hne spells_ws
      (.seq hpart spells_ws (.seq (.zeroOrMore spells_ws hcomma) spells_ws hb))
  exact (hempty.choice hparts).mono ((Json.brackets_le_bare a b L).trans (Json.bare_le_enclosed a b L))

theorem spells_member {L : Language Char} (h : (Task.call (ascii "value")).Spells grammar .nonAtomic n L) :
    (Task.call (ascii "member")).Spells grammar .nonAtomic n (Json.member L) := by
  have hm : (Task.call (ascii "member")).Spells grammar .nonAtomic n (Json.bareMember L) :=
    .call rfl rfl (.seq (.ref spells_string) spells_ws (.seq (.literal rfl) spells_ws (.ref h)))
  exact hm.mono (Json.bareMember_eq_member L).le

theorem spells_value (n : Nat) : (Task.call (ascii "value")).Spells grammar .nonAtomic n Json.value := by
  induction n with
  | zero => exact fun _ _ _ _ _ _ _ _ hn _ => absurd hn (Nat.not_lt_zero _)
  | succ n ih =>
      have hobject : (Task.call (ascii "object")).Spells grammar .nonAtomic (n + 1) (Json.object Json.value) :=
        .call rfl rfl (spells_bracketed (.literal rfl) (.literal rfl) (.ref (spells_member ih)))
      have harray : (Task.call (ascii "array")).Spells grammar .nonAtomic (n + 1) (Json.array Json.value) :=
        .call rfl rfl (spells_bracketed (.literal rfl) (.literal rfl) (.ref ih))
      have hboolean : (Task.call (ascii "boolean")).Spells grammar .nonAtomic (n + 1)
          ({"true".toList} + {"false".toList}) :=
        .call rfl rfl (.choice (.literal rfl) (.literal rfl))
      have hnull : (Task.call (ascii "null")).Spells grammar .nonAtomic (n + 1) {"null".toList} :=
        .call rfl rfl (.literal rfl)
      have h : (Task.call (ascii "value")).Spells grammar .nonAtomic (n + 1) _ :=
        .call rfl rfl (.choice (.ref hobject) (.choice (.ref harray) (.choice (.ref spells_string)
          (.choice (.ref spells_number) (.choice (.ref hboolean) (.ref hnull))))))
      refine h.mono ((le_of_eq ?_).trans Json.forms_value.le)
      unfold Json.forms
      ac_rfl

end Peg.JsonCheck
