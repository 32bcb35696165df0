import Peg.Proofs.Json.Syntax

/-!
Blanks around a text and blanks inside it. A grammar that skips blanks between its parts matches texts
without the outer ones.
-/

namespace Peg.Json

open Computability

theorem singleton_append (v w : List Char) : ({v ++ w} : Language Char) = {v} * {w} :=
  (Set.image2_singleton (f := (· ++ ·)) (a := v) (b := w)).symm

theorem one_le_ws : 1 ≤ ws := one_le_kstar

theorem ws_mul_ws : ws * ws = ws := kstar_mul_kstar _

/-- Parts in brackets, with blanks only between the brackets. -/
def bare (opening closing : Char) (part : Language Char) : Language Char :=
  {[opening]} * (1 + ws * part * (ws * {[',']} * ws * part)∗) * (ws * {[closing]})

variable (opening closing : Char) (part : Language Char)

theorem bare_head {s : List Char} (hs : s ∈ bare opening closing part) : ∃ t, s = opening :: t := by
  rw [bare, mul_assoc] at hs
  obtain ⟨_, rfl, t, -, rfl⟩ := Language.mem_mul.mp hs
  exact ⟨t, rfl⟩

theorem bare_le_enclosed : bare opening closing part ≤ enclosed opening closing part := by
  have hparts : 1 + ws * part * (ws * {[',']} * ws * part)∗ ≤ ws * (1 + part * (structural ',' * part)∗) := by
    rw [mul_add, mul_one, structural, mul_assoc ws part]
    gcongr
    exact one_le_ws
  calc bare opening closing part
      ≤ {[opening]} * (ws * (1 + part * (structural ',' * part)∗)) * (ws * {[closing]}) := by
        unfold bare
        gcongr
    _ = 1 * {[opening]} * ws * (1 + part * (structural ',' * part)∗) * (ws * {[closing]} * 1) := by
        simp only [one_mul, mul_one, mul_assoc]
    _ ≤ ws * {[opening]} * ws * (1 + part * (structural ',' * part)∗) * (ws * {[closing]} * ws) := by
        gcongr <;> exact one_le_ws
    _ = enclosed opening closing part := rfl

/-- The blanks in front of each round may as well be put behind the round before. -/
theorem ws_mul_rounds_le (round : Language Char) :
    ws * (1 + round * (ws * round)∗) ≤ (ws * round)∗ * ws := by
  rw [mul_add, mul_one, ← mul_assoc]
  refine add_le ?_ ?_
  · calc ws = 1 * ws := (one_mul ws).symm
      _ ≤ (ws * round)∗ * ws := by
          gcongr
          exact one_le_kstar
  · calc ws * round * (ws * round)∗ ≤ (ws * round)∗ := mul_kstar_le_kstar
      _ = (ws * round)∗ * 1 := (mul_one _).symm
      _ ≤ (ws * round)∗ * ws := by
          gcongr
          exact one_le_ws

/-- Brackets as a grammar reads them: empty, or a first part, rounds of a comma and a part, and the end. -/
theorem brackets_le_bare :
    {[opening]} * (ws * {[closing]}) +
      {[opening]} * (ws * (part * (ws * ((1 + {[',']} * (ws * part) * (ws * ({[',']} * (ws * part)))∗) *
        (ws * {[closing]}))))) ≤ bare opening closing part := by
  refine add_le ?_ ?_
  · calc {[opening]} * (ws * {[closing]}) = {[opening]} * 1 * (ws * {[closing]}) := by rw [mul_one]
      _ ≤ bare opening closing part := by
          unfold bare
          gcongr
          exact le_self_add
  · calc _ = {[opening]} * (ws * part * (ws * (1 + {[',']} * (ws * part) * (ws * ({[',']} * (ws * part)))∗))) *
          (ws * {[closing]}) := by simp only [mul_assoc]
      _ ≤ {[opening]} * (ws * part * ((ws * ({[',']} * (ws * part)))∗ * ws)) * (ws * {[closing]}) := by
          gcongr {[opening]} * (ws * part * ?_) * _
          exact ws_mul_rounds_le _
      _ = {[opening]} * (ws * part * (ws * {[',']} * ws * part)∗) * (ws * ws * {[closing]}) := by
          simp only [mul_assoc]
      _ ≤ bare opening closing part := by
          rw [ws_mul_ws, bare]
          gcongr
          exact le_add_self

theorem ws_mul_kstar_le (round : Language Char) : ws * (round * ws)∗ ≤ (ws * round)∗ * ws := by
  refine mul_kstar_le ?_ ?_
  · calc ws = 1 * ws := (one_mul ws).symm
      _ ≤ (ws * round)∗ * ws := by
          gcongr
          exact one_le_kstar
  · calc (ws * round)∗ * ws * (round * ws) = (ws * round)∗ * (ws * round) * ws := by simp only [mul_assoc]
      _ ≤ (ws * round)∗ * ws := by
          gcongr
          exact kstar_mul_le_kstar

/-- Blanks around the parts belong to the brackets. -/
theorem enclosed_le_bare :
    enclosed opening closing (ws * part * ws) ≤ ws * bare opening closing part * ws := by
  have hround : structural ',' * (ws * part * ws) = ws * {[',']} * ws * part * ws := by
    calc structural ',' * (ws * part * ws) = ws * {[',']} * (ws * ws) * part * ws := by
          simp only [structural, mul_assoc]
      _ = ws * {[',']} * ws * part * ws := by rw [ws_mul_ws]
  have hrounds : ws * (ws * {[',']} * ws * part * ws)∗ ≤ (ws * {[',']} * ws * part)∗ * ws := by
    have h := ws_mul_kstar_le (ws * {[',']} * ws * part)
    simp only [← mul_assoc, ws_mul_ws] at h
    simpa only [← mul_assoc] using h
  have hparts : ws * (1 + ws * part * ws * (ws * {[',']} * ws * part * ws)∗) * ws ≤
      (1 + ws * part * (ws * {[',']} * ws * part)∗) * ws := by
    rw [mul_add, add_mul, add_mul, mul_one, one_mul, ws_mul_ws]
    gcongr ws + ?_
    calc ws * (ws * part * ws * (ws * {[',']} * ws * part * ws)∗) * ws
        = ws * ws * part * (ws * (ws * {[',']} * ws * part * ws)∗) * ws := by simp only [mul_assoc]
      _ ≤ ws * ws * part * ((ws * {[',']} * ws * part)∗ * ws) * ws := by
          gcongr ws * ws * part * ?_ * ws
      _ = ws * ws * part * (ws * {[',']} * ws * part)∗ * (ws * ws) := by simp only [mul_assoc]
      _ = ws * part * (ws * {[',']} * ws * part)∗ * ws := by rw [ws_mul_ws]
  calc enclosed opening closing (ws * part * ws)
      = ws * {[opening]} * (ws * (1 + ws * part * ws * (ws * {[',']} * ws * part * ws)∗) * ws) *
          {[closing]} * ws := by
        rw [enclosed, hround]
        simp only [structural, mul_assoc]
    _ ≤ ws * {[opening]} * ((1 + ws * part * (ws * {[',']} * ws * part)∗) * ws) * {[closing]} * ws := by
        gcongr ws * _ * ?_ * _ * ws
    _ = ws * bare opening closing part * ws := by simp only [bare, mul_assoc]

/-- A name and its value, with blanks only between them. -/
def bareMember (value : Language Char) : Language Char := string * (ws * ({[':']} * (ws * value)))

theorem le_padded (L : Language Char) : L ≤ ws * L * ws := by
  calc L = 1 * L * 1 := by rw [one_mul, mul_one]
    _ ≤ ws * L * ws := by gcongr <;> exact one_le_ws

theorem bareMember_eq_member (value : Language Char) : bareMember value = member value := by
  simp only [bareMember, member, structural, mul_assoc]

theorem member_le_bareMember (value : Language Char) : member (ws * value * ws) ≤ ws * bareMember value * ws := by
  calc member (ws * value * ws) = string * (ws * ({[':']} * (ws * ws * value))) * ws := by
        simp only [member, structural, mul_assoc]
    _ = bareMember value * ws := by rw [ws_mul_ws, bareMember]
    _ = 1 * bareMember value * ws := by rw [one_mul]
    _ ≤ ws * bareMember value * ws := by
        gcongr
        exact one_le_ws

end Peg.Json
