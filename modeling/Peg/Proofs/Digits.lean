import Peg.Proofs.Json.Syntax
import Peg.Proofs.Prefixes

/-! Digits and fractions are matched as far as they go. -/

namespace Peg

open Computability Peg.Expr

variable {g : Grammar} {m : Atomicity} {v rest : List Char} {c : Char}

def digits : List Char := ['0', '1', '2', '3', '4', '5', '6', '7', '8', '9']

theorem mem_digits (h : 0x30 ≤ c.toNat ∧ c.toNat ≤ 0x39) : c ∈ digits := by
  have hd : ∀ n ∈ List.range' 0x30 10, Char.ofNat n ∈ digits := by decide
  have hc := hd c.toNat (List.mem_range'_1.mpr (by omega))
  rwa [Char.ofNat_toNat] at hc

theorem nil_notMem_codePoints {low high : Nat} : [] ∉ Json.codePoints low high := by
  rintro ⟨c, hc, -⟩
  cases hc

theorem takes_digit (hv : v ∈ Json.digit) : (Task.expr (writtenRange "0" "9")).Takes g m v rest := by
  obtain ⟨c, rfl, hc⟩ := hv
  exact .range hc

theorem needs_digit : (Task.expr (writtenRange "0" "9")).Needs g m digits := .range fun _ h => mem_digits h

theorem takes_digits (hv : v ∈ Json.digit * Json.digit∗) (hrest : Avoids digits rest) :
    (Task.expr (oneOrMore (writtenRange "0" "9"))).Takes g .atomic v rest :=
  .oneOrMore_atomic nofun (fun _ hu _ => takes_digit hu) nil_notMem_codePoints (needs_digit hrest) hv

theorem digits_head (hv : v ∈ Json.digit * Json.digit∗) : ∃ c s, v = c :: s ∧ c ∈ digits := by
  obtain ⟨_, ⟨c, rfl, hc⟩, w, -, rfl⟩ := Language.mem_mul.mp hv
  exact ⟨c, w, rfl, mem_digits hc⟩

theorem opensIn_digits (hv : v ∈ Json.digit * Json.digit∗) : OpensIn digits v := by
  obtain ⟨c, s, rfl, hc⟩ := digits_head hv
  exact .cons hc s

/-- Where there is no point there is no fraction. -/
theorem takes_frac (hv : v ∈ 1 + Json.frac) (hrest : Avoids ('.' :: digits) rest) :
    (Task.expr (optional (seq (written ".") (oneOrMore (writtenRange "0" "9"))))).Takes g .atomic v rest := by
  have hneeds : (Task.expr (seq (written ".") (oneOrMore (writtenRange "0" "9")))).Needs g .atomic ['.'] :=
    .seq (.literal '.' [] rfl)
  rcases hv with rfl | hv
  · exact .optional_nil (hneeds (hrest.mono (by decide)))
  · obtain ⟨_, rfl, ds, hds, rfl⟩ := Language.mem_mul.mp hv
    exact .optional (.seq_atomic nofun (.literal rfl) (takes_digits hds (hrest.mono (by decide))))

theorem opensIn_frac (hv : v ∈ 1 + Json.frac) : OpensIn ['.'] v := by
  rcases hv with rfl | hv
  · exact .nil
  · obtain ⟨_, rfl, w, -, rfl⟩ := Language.mem_mul.mp hv
    exact .cons (by decide) w

end Peg
