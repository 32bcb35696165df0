import Mathlib

/-!
The grammar of RFC 7159, section by section. A rule is the language of the texts that it derives, and
the values, the only rule that needs itself, are the least language that its right side allows.
-/

namespace Peg.Json

open Computability

/-- A single character, given by the range of its code point. -/
def codePoints (low high : Nat) : Language Char := {s | ∃ c : Char, s = [c] ∧ low ≤ c.toNat ∧ c.toNat ≤ high}

section Grammar

def blank : Language Char := {[' ']} + {['\t']} + {['\n']} + {['\r']}

def ws : Language Char := blank∗

/-- One of the six structural characters. Blanks are allowed on both sides. -/
def structural (c : Char) : Language Char := ws * {[c]} * ws

end Grammar

section Numbers

def digit : Language Char := codePoints 0x30 0x39

def int : Language Char := {['0']} + codePoints 0x31 0x39 * digit∗

def frac : Language Char := {['.']} * (digit * digit∗)

def exp : Language Char := ({['e']} + {['E']}) * (1 + ({['-']} + {['+']})) * (digit * digit∗)

def number : Language Char := (1 + {['-']}) * int * (1 + frac) * (1 + exp)

end Numbers

section Strings

def hexDigit : Language Char := digit + codePoints 0x61 0x66 + codePoints 0x41 0x46

def unescaped : Language Char := codePoints 0x20 0x21 + codePoints 0x23 0x5B + codePoints 0x5D 0x10FFFF

theorem toNat_le (c : Char) : c.toNat ≤ 0x10FFFF := by
  have hc : c.toNat < 0xD800 ∨ 0xDFFF < c.toNat ∧ c.toNat < 0x110000 := c.valid
  omega

theorem mem_unescaped {s : List Char} :
    s ∈ unescaped ↔ ∃ c : Char, s = [c] ∧ 0x20 ≤ c.toNat ∧ c ≠ '"' ∧ c ≠ '\\' := by
  constructor
  · rintro ((⟨c, rfl, hl, hh⟩ | ⟨c, rfl, hl, hh⟩) | ⟨c, rfl, hl, hh⟩) <;> refine ⟨c, rfl, by omega, ?_, ?_⟩
    all_goals
      rintro rfl
      simp at hl hh
  · rintro ⟨c, rfl, hl, hq, hb⟩
    have hq : c.toNat ≠ 0x22 := fun h => hq (Char.toNat_inj.mp h)
    have hb : c.toNat ≠ 0x5C := fun h => hb (Char.toNat_inj.mp h)
    have hh := toNat_le c
    have hcases : c.toNat ≤ 0x21 ∨ (0x23 ≤ c.toNat ∧ c.toNat ≤ 0x5B) ∨ 0x5D ≤ c.toNat := by omega
    rcases hcases with h | h | h
    · exact .inl (.inl ⟨c, rfl, hl, h⟩)
    · exact .inl (.inr ⟨c, rfl, h⟩)
    · exact .inr ⟨c, rfl, h, hh⟩

def escaped : Language Char :=
  {['\\']} * ({['"']} + {['\\']} + {['/']} + {['b']} + {['f']} + {['n']} + {['r']} + {['t']} +
    {['u']} * hexDigit ^ 4)

def char : Language Char := unescaped + escaped

def string : Language Char := {['"']} * char∗ * {['"']}

end Strings

section Values

variable (value : Language Char)

/-- Parts between commas, or nothing, between two structural characters. -/
def enclosed (opening closing : Char) (part : Language Char) : Language Char :=
  structural opening * (1 + part * (structural ',' * part)∗) * structural closing

def member : Language Char := string * structural ':' * value

def object : Language Char := enclosed '\x7b' '\x7d' (member value)

def array : Language Char := enclosed '[' ']' value

/-- What a value may be, given what is a value inside it. -/
def forms : Language Char :=
  {"false".toList} + {"null".toList} + {"true".toList} + object value + array value + number + string

end Values

theorem enclosed_mono (opening closing : Char) : Monotone (enclosed opening closing) := by
  intro V W h
  unfold enclosed
  gcongr

theorem forms_mono : Monotone forms := by
  intro V W h
  unfold forms object array member enclosed
  gcongr

def value : Language Char := OrderHom.lfp ⟨forms, forms_mono⟩

def text : Language Char := ws * value * ws

theorem forms_value : forms value = value := OrderHom.map_lfp ⟨forms, forms_mono⟩

theorem value_le {L : Language Char} (h : forms L ≤ L) : value ≤ L := OrderHom.lfp_le ⟨forms, forms_mono⟩ h

end Peg.Json
