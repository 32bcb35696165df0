import Peg.JsonCheck.Grammar
import Peg.Proofs.Digits

/-! Blanks, numbers and strings are matched as far as they go. -/

namespace Peg.JsonCheck

open Computability Peg.Expr

variable {m : Atomicity} {v rest s : List Char} {c : Char}

section Blanks

def blanks : List Char := [' ', '\t', '\n', '\r']

/-- What may stand behind a value in a text, besides the end. -/
def enders : List Char := blanks ++ [',', ']', '\x7d']

theorem exists_of_mem_blank (hv : v ∈ Json.blank) : ∃ c ∈ blanks, v = [c] := by
  rcases hv with ((rfl | rfl) | rfl) | rfl <;> exact ⟨_, by decide, rfl⟩

theorem takes_blank (hv : v ∈ Json.blank) : (Task.call whitespaceName).Takes grammar m v rest := by
  obtain ⟨c, hc, rfl⟩ := exists_of_mem_blank hv
  refine .call rfl rfl (.choice_char (a := ' ') rfl fun h₁ => .choice_char (a := '\t') rfl fun h₂ =>
    .choice_char (a := '\r') rfl fun h₃ => ?_)
  obtain rfl : c = '\n' := by simpa [blanks, h₁, h₂, h₃] using hc
  exact .literal rfl

theorem needs_blank : (Task.call whitespaceName).Needs grammar m [' ', '\t', '\r', '\n'] :=
  .call rfl rfl (.choice (.literal ' ' [] rfl) (.choice (.literal '\t' [] rfl)
    (.choice (.literal '\r' [] rfl) (.literal '\n' [] rfl))))

theorem takes_ws (hv : v ∈ Json.ws) (hrest : Avoids blanks rest) : Task.skip.Takes grammar .nonAtomic v rest := by
  have hne : [] ∉ Json.blank := by
    intro h
    obtain ⟨c, -, hc⟩ := exists_of_mem_blank h
    cases hc
  have hblank : ∀ u ∈ Json.blank, ∀ r, True → (Task.call whitespaceName).Takes grammar .nonAtomic u r :=
    fun _ hu _ _ => takes_blank hu
  exact .skip (.many hv hne hblank (fun _ _ _ _ => trivial) trivial (needs_blank (hrest.mono (by decide))))

theorem opensIn_ws (hv : v ∈ Json.ws) : OpensIn blanks v := by
  rw [Json.ws, ← one_add_mul_kstar] at hv
  rcases hv with rfl | hv
  · exact .nil
  · obtain ⟨_, hb, w, -, rfl⟩ := Language.mem_mul.mp hv
    obtain ⟨c, hc, rfl⟩ := exists_of_mem_blank hb
    exact .cons hc w

end Blanks

section Numbers

theorem takes_int (hv : v ∈ Json.int) (hrest : Avoids digits rest) :
    (Task.expr (choice (written "0") (seq (writtenRange "1" "9") (zeroOrMore digit)))).Takes grammar .atomic
      v rest := by
  rcases hv with rfl | hv
  · exact .choice_first (.literal rfl)
  · obtain ⟨_, ⟨c, rfl, hc⟩, ds, hds, rfl⟩ := Language.mem_mul.mp hv
    have hzero : c ∉ ['0'] := by
      intro h
      obtain rfl := List.mem_singleton.mp h
      exact absurd hc.1 (by decide)
    have hds : (Task.expr (zeroOrMore digit)).Takes grammar .atomic ds rest :=
      .zeroOrMore_atomic nofun (fun _ hu _ => takes_digit hu) nil_notMem_codePoints (needs_digit hrest) hds
    exact .choice_second (Task.Needs.literal '0' [] rfl (.cons hzero _)) (.seq_atomic nofun (.range hc) hds)

theorem int_head (hv : v ∈ Json.int) : ∃ c s, v = c :: s ∧ c ∈ digits := by
  rcases hv with rfl | hv
  · exact ⟨'0', [], rfl, by decide⟩
  · obtain ⟨_, ⟨c, rfl, hl, hh⟩, w, -, rfl⟩ := Language.mem_mul.mp hv
    exact ⟨c, w, rfl, mem_digits ⟨by omega, hh⟩⟩

theorem needs_exponent : (Task.expr (writtenFolded "e")).Needs grammar m ['e', 'E'] := by
  intro s hs
  refine .folded (w := ['e']) rfl fun h => ?_
  cases s with
  | nil => cases h
  | cons c s =>
      refine hs c rfl ?_
      rcases Utf8.fold_eq_e (List.singleton_inj.mp h) with hc | hc
      · obtain rfl : c = 'e' := Char.toNat_inj.mp hc
        decide
      · obtain rfl : c = 'E' := Char.toNat_inj.mp hc
        decide

theorem takes_sign (hv : v ∈ 1 + ({['-']} + {['+']} : Language Char)) (hrest : Avoids ['+', '-'] rest) :
    (Task.expr (optional (choice (written "+") (written "-")))).Takes grammar m v rest := by
  have hplus : (Task.expr (written "+")).Needs grammar m ['+'] := .literal '+' [] rfl
  rcases hv with rfl | rfl | rfl
  · exact .optional_nil (Task.Needs.choice hplus (.literal '-' [] rfl) hrest)
  · exact .optional (.choice_second (hplus (.cons (by decide) rest)) (.literal rfl))
  · exact .optional (.choice_first (.literal rfl))

theorem takes_exp (hv : v ∈ 1 + Json.exp) (hrest : OpensIn enders rest) :
    (Task.expr (optional (seqAll (writtenFolded "e")
      [optional (choice (written "+") (written "-")), oneOrMore digit]))).Takes grammar .atomic v rest := by
  have hm : Atomicity.atomic ≠ .nonAtomic := nofun
  rcases hv with rfl | hv
  · exact .optional_nil (.seq_first (needs_exponent (hrest.avoids (by decide))))
  · rw [Json.exp, mul_assoc] at hv
    obtain ⟨e, he, _, hpower, rfl⟩ := Language.mem_mul.mp hv
    obtain ⟨sign, hsign, ds, hds, rfl⟩ := Language.mem_mul.mp hpower
    have he : (Task.expr (writtenFolded "e")).Takes grammar .atomic e (sign ++ ds ++ rest) := by
      rcases he with rfl | rfl <;> exact .folded (w := ['e']) rfl rfl
    have hbehind : Avoids ['+', '-'] (ds ++ rest) := ((opensIn_digits hds).append hrest).avoids (by decide)
    have hds := takes_digits (g := grammar) hds (hrest.avoids (by decide))
    exact .optional (.seq_atomic hm he (.seq_atomic hm (takes_sign hsign hbehind) hds))

theorem opensIn_exp (hv : v ∈ 1 + Json.exp) : OpensIn ['e', 'E'] v := by
  rcases hv with rfl | hv
  · exact .nil
  · rw [Json.exp, mul_assoc] at hv
    obtain ⟨_, he, w, -, rfl⟩ := Language.mem_mul.mp hv
    rcases he with rfl | rfl <;> exact .cons (by decide) w

theorem takes_number (hv : v ∈ Json.number) (hrest : OpensIn enders rest) :
    (Task.call (ascii "number")).Takes grammar m v rest := by
  have hm : Atomicity.atomic ≠ .nonAtomic := nofun
  rw [Json.number, mul_assoc, mul_assoc] at hv
  obtain ⟨sign, hsign, _, hint, rfl⟩ := Language.mem_mul.mp hv
  obtain ⟨i, hi, _, hfrac, rfl⟩ := Language.mem_mul.mp hint
  obtain ⟨f, hf, e, he, rfl⟩ := Language.mem_mul.mp hfrac
  -- What each part is behind, from the last one on.
  have hexp := (opensIn_exp he).append hrest
  have hfrac := (opensIn_frac hf).append hexp
  have hint : OpensIn digits (i ++ (f ++ (e ++ rest))) := by
    obtain ⟨c, i, rfl, hc⟩ := int_head hi
    exact .cons hc (i ++ (f ++ (e ++ rest)))
  have hsign : (Task.expr (optional (written "-"))).Takes grammar .atomic sign (i ++ (f ++ (e ++ rest))) := by
    rcases hsign with rfl | rfl
    · exact .optional_nil (Task.Needs.literal '-' [] rfl (hint.avoids (by decide)))
    · exact .optional (.literal rfl)
  have hint := takes_int hi (hfrac.avoids (by decide))
  rw [← List.append_assoc f] at hsign hint
  rw [← List.append_assoc i] at hsign
  exact .call rfl rfl (.seq_atomic hm hsign (.seq_atomic hm hint
    (.seq_atomic hm (takes_frac hf (hexp.avoids (by decide))) (takes_exp he hrest))))

theorem number_head (hv : v ∈ Json.number) : ∃ c s, v = c :: s ∧ c ∈ '-' :: digits := by
  rw [Json.number, mul_assoc, mul_assoc] at hv
  obtain ⟨sign, hsign, w, hw, rfl⟩ := Language.mem_mul.mp hv
  rcases hsign with rfl | rfl
  · obtain ⟨i, hi, w, -, rfl⟩ := Language.mem_mul.mp hw
    obtain ⟨c, i, rfl, hc⟩ := int_head hi
    exact ⟨c, i ++ w, rfl, List.mem_cons_of_mem '-' hc⟩
  · exact ⟨'-', w, rfl, List.mem_cons_self⟩

theorem needs_number : (Task.call (ascii "number")).Needs grammar m ('-' :: digits) := by
  have hfirst : (Task.expr (writtenRange "1" "9")).Needs grammar .atomic digits :=
    .range fun c h => mem_digits ⟨Nat.le_of_succ_le h.1, h.2⟩
  have h : (Task.call (ascii "number")).Needs grammar m (['-'] ++ (['0'] ++ digits)) :=
    .call rfl rfl (.seq_optional nofun (.literal '-' [] rfl) (.seq (.choice (.literal '0' [] rfl) (.seq hfirst))))
  exact fun s hs => h (hs.mono (by decide))

end Numbers

section Strings

theorem takes_hexDigit (hv : v ∈ Json.hexDigit) : (Task.expr hexDigit).Takes grammar m v rest := by
  rcases hv with (hv | ⟨c, rfl, hc⟩) | ⟨c, rfl, hc⟩
  · exact .choice_first (takes_digit hv)
  · have hdigit : ∀ a ∈ (c :: rest).head?, ¬(0x30 ≤ a.toNat ∧ a.toNat ≤ 0x39) := by
      rintro _ ⟨⟩
      omega
    exact .choice_second (.range hdigit) (.choice_first (.range hc))
  · have hdigit : ∀ a ∈ (c :: rest).head?, ¬(0x30 ≤ a.toNat ∧ a.toNat ≤ 0x39) := by
      rintro _ ⟨⟩
      omega
    have hlower : ∀ a ∈ (c :: rest).head?, ¬(0x61 ≤ a.toNat ∧ a.toNat ≤ 0x66) := by
      rintro _ ⟨⟩
      omega
    exact .choice_second (.range hdigit) (.choice_second (.range hlower) (.range hc))

/-- The characters that a backslash may stand before, besides the one for code points. -/
def letter : Expr := choiceAll (written "\\\"") [
  written "\\\\", written "/", written "b", written "f", written "n", written "r", written "t"]

def letters : List Char := ['"', '\\', '/', 'b', 'f', 'n', 'r', 't']

theorem takes_letter (hc : c ∈ letters) : (Task.expr letter).Takes grammar m [c] rest := by
  refine .choice_char (a := '"') rfl fun h₁ => .choice_char (a := '\\') rfl fun h₂ =>
    .choice_char (a := '/') rfl fun h₃ => .choice_char (a := 'b') rfl fun h₄ => .choice_char (a := 'f') rfl fun h₅ =>
    .choice_char (a := 'n') rfl fun h₆ => .choice_char (a := 'r') rfl fun h₇ => ?_
  obtain rfl : c = 't' := by simpa [letters, h₁, h₂, h₃, h₄, h₅, h₆, h₇] using hc
  exact .literal rfl

theorem needs_letter : (Task.expr letter).Needs grammar m letters :=
  .choice (.literal '"' [] rfl) (.choice (.literal '\\' [] rfl) (.choice (.literal '/' [] rfl)
    (.choice (.literal 'b' [] rfl) (.choice (.literal 'f' [] rfl) (.choice (.literal 'n' [] rfl)
      (.choice (.literal 'r' [] rfl) (.literal 't' [] rfl)))))))

/-- What ends a plain run of characters in a string. -/
def marks : List Char := ['"', '\\']

def mark : Expr := choice (written "\\\"") (written "\\\\")

theorem needs_mark : (Task.expr mark).Needs grammar m marks := .choice (.literal '"' [] rfl) (.literal '\\' [] rfl)

theorem takes_mark (hc : c ∈ marks) : (Task.expr mark).Takes grammar m [c] rest := by
  refine .choice_char (a := '"') rfl fun h => ?_
  obtain rfl : c = '\\' := by simpa [marks, h] using hc
  exact .literal rfl

theorem takes_char (hv : v ∈ Json.char) : (Task.call (ascii "char")).Takes grammar .atomic v rest := by
  have hm : Atomicity.atomic ≠ .nonAtomic := nofun
  refine .call rfl rfl ?_
  rcases hv with hv | hv
  · obtain ⟨c, rfl, hl, hq, hb⟩ := Json.mem_unescaped.mp hv
    have hmark : c ∉ marks := by simp [marks, hq, hb]
    have hlook : (Task.expr (look .negative mark)).Takes grammar .atomic [] (c :: rest) :=
      .look_negative (needs_mark (.cons hmark rest))
    exact .choice_first (.seq_atomic (v := []) hm hlook (.range ⟨hl, Json.toNat_le c⟩))
  · obtain ⟨_, rfl, w, hw, rfl⟩ := Language.mem_mul.mp hv
    have hlook : (Task.expr (look .negative mark)).Misses grammar .atomic (['\\'] ++ (w ++ rest)) :=
      .look_negative (takes_mark (by decide))
    refine .choice_second (.seq_first hlook) ?_
    rcases hw with hw | hw
    · have hletter : ∃ c ∈ letters, w = [c] := by
        rcases hw with ((((((rfl | rfl) | rfl) | rfl) | rfl) | rfl) | rfl) | rfl <;> exact ⟨_, by decide, rfl⟩
      obtain ⟨c, hc, rfl⟩ := hletter
      exact .choice_first (.seq_atomic hm (.literal rfl) (takes_letter hc))
    · obtain ⟨_, rfl, h, hh, rfl⟩ := Language.mem_mul.mp hw
      have hu : (Task.expr letter).Misses grammar .atomic ('u' :: (h ++ rest)) := needs_letter (.cons (by decide) _)
      exact .choice_second (.seq_atomic (v := ['\\']) hm (.literal rfl) hu)
        (.seq_atomic (v := ['\\', 'u']) hm (.literal rfl) (.exactly_atomic hm (fun _ hd _ => takes_hexDigit hd) hh))

theorem nil_notMem_char : [] ∉ Json.char := by
  rintro (hv | hv)
  · obtain ⟨c, hc, -⟩ := Json.mem_unescaped.mp hv
    cases hc
  · obtain ⟨_, rfl, w, -, hw⟩ := Language.mem_mul.mp hv
    cases hw

theorem misses_char : (Task.call (ascii "char")).Misses grammar .atomic (['"'] ++ s) := by
  have hlook : (Task.expr (look .negative mark)).Misses grammar .atomic (['"'] ++ s) :=
    .look_negative (takes_mark (by decide))
  have hquote : Avoids ['\\'] (['"'] ++ s) := .cons (by decide) s
  exact .call rfl rfl (.choice (.seq_first hlook) (Task.Needs.choice (.seq (.literal '\\' [] rfl))
    (.seq (.literal '\\' ['u'] rfl)) (hquote.mono (by decide))))

theorem takes_string (hv : v ∈ Json.string) : (Task.call (ascii "string")).Takes grammar m v rest := by
  have hm : Atomicity.compoundAtomic ≠ .nonAtomic := nofun
  rw [Json.string, mul_assoc] at hv
  obtain ⟨_, rfl, _, hinner, rfl⟩ := Language.mem_mul.mp hv
  obtain ⟨t, ht, _, rfl, rfl⟩ := Language.mem_mul.mp hinner
  have htext : (Task.call (ascii "text")).Takes grammar .compoundAtomic t (['"'] ++ rest) :=
    .call rfl rfl (.zeroOrMore_atomic nofun (fun _ hu _ => .ref (takes_char hu)) nil_notMem_char
      (.ref misses_char) ht)
  exact .call rfl rfl (.seq_atomic hm (.literal rfl) (.seq_atomic hm (.ref htext) (.literal rfl)))

theorem string_head (hv : v ∈ Json.string) : ∃ s, v = '"' :: s := by
  rw [Json.string, mul_assoc] at hv
  obtain ⟨_, rfl, w, -, rfl⟩ := Language.mem_mul.mp hv
  exact ⟨w, rfl⟩

theorem needs_string : (Task.call (ascii "string")).Needs grammar m ['"'] :=
  .call rfl rfl (.seq (.literal '"' [] rfl))

end Strings

end Peg.JsonCheck
