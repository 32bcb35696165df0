import Peg.Proofs.Json.Completeness
import Peg.Proofs.Json.Soundness
import Peg.Proofs.LeftRecursion

/-! The grammar accepts the JSON texts and no others. -/

namespace Peg.JsonCheck

open Computability Peg.Expr

variable {x : Subject} {cs : List Char}

theorem eval_json (hx : x.Holds 0 cs) (h : cs ∈ Json.text) :
    ∃ q f, Eval grammar x .nonAtomic (.call (ascii "json")) 0 [] (.ok q [] f) := by
  have hpadded : Json.text ≤ Json.ws * (Part (rule "value") * Json.ws) := by
    calc Json.text ≤ Json.ws * (Json.ws * Part (rule "value") * Json.ws) * Json.ws := by
          unfold Json.text
          gcongr
          exact value_le
      _ = Json.ws * Json.ws * (Part (rule "value") * (Json.ws * Json.ws)) := by simp only [mul_assoc]
      _ = Json.ws * (Part (rule "value") * Json.ws) := by rw [Json.ws_mul_ws]
  obtain ⟨w, hw, _, hvalue, rfl⟩ := Language.mem_mul.mp (hpadded h)
  obtain ⟨u, hu, w', hw', rfl⟩ := Language.mem_mul.mp hvalue
  have hvalue : (Task.expr (rule "value")).Takes grammar .nonAtomic u w' :=
    hu.2 w' ((opensIn_ws hw').mono (by decide))
  have hend : (Task.both .skip (.expr Expr.endOfInput)).Takes grammar .nonAtomic (w' ++ []) [] :=
    .both (takes_ws hw' .nil) (.ref .endOfInput)
  rw [List.append_nil] at hend
  have hrest : (Task.expr (seq (rule "value") Expr.endOfInput)).Takes grammar .nonAtomic (u ++ w') [] :=
    .seq (by rwa [List.append_nil]) hend
  have hblank : Task.skip.Takes grammar .nonAtomic w (u ++ w' ++ []) := by
    rw [List.append_nil]
    exact takes_ws hw ((Part.avoids hu).mono (by decide))
  rw [← List.append_nil (w ++ (u ++ w'))] at hx
  obtain ⟨f, hf⟩ := Task.Takes.both hblank hrest [] hx
  have hstart : Eval grammar x .nonAtomic (.call Builtin.startOfInput.name) 0 [] (.ok 0 [] .nil) := .startOfInput
  have hbody : Eval grammar x .nonAtomic (.expr (seqAll Expr.startOfInput [rule "value", Expr.endOfInput])) 0 [] _ :=
    .seq (.both (.ref hstart) hf)
  have hjson : Eval grammar x .nonAtomic (.call (ascii "json")) 0 [] _ := .rule rfl rfl hbody
  exact ⟨_, _, hjson⟩

theorem mem_text (hx : x.Holds 0 cs) {q c f}
    (h : Eval grammar x .nonAtomic (.call (ascii "json")) 0 [] (.ok q c f)) : cs ∈ Json.text := by
  obtain ⟨_, -, h⟩ := h.of_call rfl rfl
  change Eval grammar x .nonAtomic _ _ _ _ at h
  obtain ⟨_, _, _, _, _, _, _, -, hstart, hblank, h⟩ := h.of_seq
  obtain ⟨_, _, _, _, _, _, _, -, hvalue, hblank', hend⟩ := h.of_seq
  cases hstart.of_ref.det .startOfInput hx.1
  obtain ⟨w, hw, s₁, rfl, hx₁⟩ := spells_ws hx (Nat.lt_succ_self _) hblank
  obtain ⟨v, hv, s₂, rfl, hx₂⟩ := spells_value _ hx₁ (Nat.lt_succ_self _) hvalue.of_ref
  obtain ⟨w', hw', s, rfl, hx₃⟩ := spells_ws hx₂ (Nat.lt_succ_self _) hblank'
  obtain rfl : s = [] := by
    have hsize := hx₃.size_eq
    rw [← hend.of_ref.of_endOfInput hx₃.1] at hsize
    exact Utf8.ofChars_eq_nil.mp (List.eq_nil_of_length_eq_zero (by omega))
  rw [List.append_nil, ← List.append_assoc]
  exact Language.append_mem_mul (Language.append_mem_mul hw hv) hw'

/-- The rules, each behind those that it may begin with. -/
def ranking : List Octets :=
  [whitespaceName, ascii "char", ascii "number", ascii "boolean", ascii "null", ascii "text", ascii "string",
    ascii "member", ascii "object", ascii "array", ascii "value", ascii "json"]

theorem descends : grammar.Descends ranking.idxOf := by decide

/-- A text in well-formed UTF-8 is accepted exactly if it is JSON. -/
theorem accepts_iff_json (tabs : TabStops) (cs : List Char) :
    (∃ tokens, ({ grammar := grammar, tabs := tabs } : Parser).parse (ascii "json") (Utf8.ofChars cs) =
      .ok (.accepted tokens)) ↔ cs ∈ Json.text := by
  let p : Parser := { grammar := grammar, tabs := tabs }
  have hx := Subject.Holds.ofChars cs
  obtain ⟨v, -, hv, hn⟩ := Parser.parse_of_descends (p := p) descends (ascii "json") (Utf8.ofChars cs) (.inl rfl)
  have hsound : ∃ a, p.Means (ascii "json") (Utf8.ofChars cs) a ∧ a.Told v := by
    rcases Parser.parse?_sound (hn _ (Nat.le_refl _)) with ⟨h, -⟩ | h
    · exact absurd rfl h
    · exact h
  obtain ⟨a, ha, ht⟩ := hsound
  change (∃ tokens, p.parse _ _ = _) ↔ _
  rw [hv]
  constructor
  · rintro ⟨tokens, rfl⟩
    cases ht
    exact mem_text hx ha
  · intro h
    obtain ⟨q, f, he⟩ := eval_json hx h
    cases ha.det he
    cases ht
    exact ⟨_, rfl⟩

end Peg.JsonCheck
