import Mathlib.Data.Nat.Bitwise
import Peg.Proofs.Utf8
import Peg.Utf8.Automaton

namespace Peg.Utf8.Automaton

variable {rune : UInt32} {state n size : Nat} {c low high : UInt8}

/-- In such a state so many continuation octets are due, the first of them in this range. -/
inductive Waits : Nat → UInt8 → UInt8 → Nat → Prop where
  | one : Waits 24 0x80 0xBF 1
  | two : Waits 36 0x80 0xBF 2
  | twoRaised : Waits 48 0xA0 0xBF 2
  | twoLowered : Waits 60 0x80 0x9F 2
  | three : Waits 84 0x80 0xBF 3
  | threeRaised : Waits 72 0x90 0xBF 3
  | threeLowered : Waits 96 0x80 0x8F 3

/-- The state in which so many continuation octets are due behind another one. -/
def due : Nat → Nat
  | 0 => accept
  | n + 1 => 24 + 12 * n

namespace Waits

theorem ne_accept (h : Waits state low high n) : state ≠ accept := by
  cases h <;> decide

theorem ne_reject (h : Waits state low high n) : state ≠ reject := by
  cases h <;> decide

theorem le_three (h : Waits state low high n) : n ≤ 3 := by
  cases h <;> decide

theorem exists_eq_succ (h : Waits state low high n) : ∃ k, n = k + 1 := by
  cases h <;> exact ⟨_, rfl⟩

theorem isContinuation (h : Waits state low high n) (hc : low ≤ c ∧ c ≤ high) : IsContinuation c := by
  refine ⟨UInt8.le_trans ?_ hc.1, UInt8.le_trans hc.2 ?_⟩ <;> cases h <;> decide

theorem due (h : Waits state low high (n + 2)) : Waits (due (n + 1)) 0x80 0xBF (n + 1) := by
  cases h with
  | two | twoRaised | twoLowered => exact .one
  | three | threeRaised | threeLowered => exact .two

theorem next_eq (h : Waits state low high (n + 1)) (c : UInt8) :
    next state c = if low ≤ c ∧ c ≤ high then Automaton.due n else reject := by
  refine forall_octet (p := fun c => next state c = if low ≤ c ∧ c ≤ high then Automaton.due n else reject) ?_ c
  cases h <;> decide +kernel

end Waits

theorem next_accept_of_none (h : Lead.ofOctet? c = none) : next accept c = reject := by
  have hall : ∀ i < 256, (Lead.ofOctet? (UInt8.ofNat i)).isNone → next accept (UInt8.ofNat i) = reject := by
    decide +kernel
  exact forall_octet (p := fun c => (Lead.ofOctet? c).isNone → next accept c = reject) hall c
    (Option.isNone_iff_eq_none.mpr h)

/-- A first octet, as the tables read it and as a lead. -/
theorem accept_of_lead {lead : Lead} (h : Lead.ofOctet? c = some lead) : (gather 0 accept c).toNat = lead.bits ∧
    (lead.following = 0 ∧ next accept c = accept ∨
      Waits (next accept c) lead.low lead.high lead.following ∧ lead.bits < 0x20) := by
  have hk : ∀ m k, c.toNat = k + m → c = UInt8.ofNat (k + m) := fun m k hk => by rw [← hk, UInt8.ofNat_toNat]
  rcases Lead.exists_of_ofOctet? h with ⟨hc, rfl⟩ | ⟨k, hc, hl, hh, rfl⟩ | ⟨k, hc, hh, rfl⟩ | ⟨k, hc, hh, rfl⟩
  · have hall : ∀ i < 0x80, (gather 0 accept (UInt8.ofNat i)).toNat = i ∧ next accept (UInt8.ofNat i) = accept := by
      decide +kernel
    obtain ⟨hg, hn⟩ := hall _ hc
    rw [UInt8.ofNat_toNat] at hg hn
    exact ⟨hg, .inl ⟨rfl, hn⟩⟩
  · have hall : ∀ i < 0x20, 2 ≤ i → (gather 0 accept (UInt8.ofNat (i + 0xC0))).toNat = i ∧
        next accept (UInt8.ofNat (i + 0xC0)) = 24 := by decide +kernel
    obtain ⟨hg, hn⟩ := hall k hh hl
    rw [hk _ k hc]
    exact ⟨hg, .inr ⟨hn ▸ .one, hh⟩⟩
  · have hall : ∀ i < 0x10, (gather 0 accept (UInt8.ofNat (i + 0xE0))).toNat = i ∧
        next accept (UInt8.ofNat (i + 0xE0)) = if i = 0 then 48 else if i = 0xD then 60 else 36 := by decide +kernel
    obtain ⟨hg, hn⟩ := hall k hh
    rw [hk _ k hc]
    refine ⟨hg, .inr ⟨?_, Nat.lt_trans hh (by decide)⟩⟩
    rw [hn]
    dsimp only
    split
    · subst k
      exact .twoRaised
    · split
      · exact .twoLowered
      · exact .two
  · have hall : ∀ i < 5, (gather 0 accept (UInt8.ofNat (i + 0xF0))).toNat = i ∧
        next accept (UInt8.ofNat (i + 0xF0)) = if i = 0 then 72 else if i = 4 then 96 else 84 := by decide +kernel
    obtain ⟨hg, hn⟩ := hall k hh
    rw [hk _ k hc]
    refine ⟨hg, .inr ⟨?_, Nat.lt_trans hh (by decide)⟩⟩
    rw [hn]
    dsimp only
    split
    · subst k
      exact .threeRaised
    · split
      · exact .threeLowered
      · exact .three

/-- The bits of a continuation octet fill the six that the shift has cleared. -/
theorem toNat_gather (hs : state ≠ accept) (hr : rune.toNat < 0x4000000) (hc : IsContinuation c) :
    (gather rune state c).toNat = rune.toNat * 0x40 + (c.toNat - 0x80) := by
  simp only [IsContinuation, UInt8.le_iff_toNat_le, UInt8.reduceToNat] at hc
  have hshift : (rune <<< (6 : UInt32)).toNat = rune.toNat <<< 6 := by
    rw [UInt32.toNat_shiftLeft]
    refine Nat.mod_eq_of_lt ?_
    change rune.toNat <<< 6 < 2 ^ 32
    rw [Nat.shiftLeft_eq]
    omega
  have hand : (c.toUInt32 &&& 0x3F).toNat = c.toNat - 0x80 := by
    rw [UInt32.toNat_and, UInt8.toNat_toUInt32]
    have hmod : c.toNat &&& 0x3F = c.toNat % 0x40 := Nat.and_two_pow_sub_one_eq_mod c.toNat 6
    exact hmod.trans (by omega)
  rw [gather, if_neg hs, UInt32.toNat_or, hshift, hand, Nat.lor_comm, ← Nat.shiftLeft_add_eq_or_of_lt (by omega),
    Nat.shiftLeft_eq]

/-- While octets are due the tables read on as the ranges tell. The bound keeps every bit of the rune. -/
theorem run_of_waits {s : Octets} (h : Waits state low high n) (hr : (rune.toNat + 1) * 0x40 ^ n ≤ 0x100000000) :
    run rune state size s = decodeTail low high n rune.toNat size s := by
  induction s generalizing state low high n rune size with
  | nil =>
      obtain ⟨n, rfl⟩ := h.exists_eq_succ
      rfl
  | cons c s ih =>
      obtain ⟨n, rfl⟩ := h.exists_eq_succ
      rw [run, h.next_eq, decodeTail]
      by_cases hc : low ≤ c ∧ c ≤ high
      · have hr' : rune.toNat < 0x4000000 := by
          have hpow : 0x40 ^ 1 ≤ 0x40 ^ (n + 1) := Nat.pow_le_pow_right (by decide) (Nat.le_add_left 1 n)
          have hmul := Nat.mul_le_mul_left (rune.toNat + 1) hpow
          omega
        have hg : (gather rune state c).toNat = _ := toNat_gather h.ne_accept hr' (h.isContinuation hc)
        rw [if_pos hc, if_pos hc]
        cases n with
        | zero => rw [due, if_pos rfl, hg, decodeTail]
        | succ n =>
            have hw := h.due
            rw [if_neg hw.ne_accept, if_neg hw.ne_reject, ← hg]
            refine ih hw ?_
            have hle : c.toNat ≤ 0xBF := UInt8.le_iff_toNat_le.mp (h.isContinuation hc).2
            calc ((gather rune state c).toNat + 1) * 0x40 ^ (n + 1)
                ≤ (rune.toNat + 1) * 0x40 * 0x40 ^ (n + 1) := Nat.mul_le_mul_right _ (by omega)
              _ = (rune.toNat + 1) * 0x40 ^ (n + 2) := by rw [Nat.pow_succ' (n := n + 1), Nat.mul_assoc]
              _ ≤ 0x100000000 := hr
      · rw [if_neg hc, if_neg hc, if_neg (by decide), if_pos rfl]

/-- The tables and the ranges read alike. -/
theorem decode_eq (s : Octets) : decode s = Utf8.decode s := by
  cases s with
  | nil => rfl
  | cons c s =>
      rw [decode, run, Utf8.decode]
      cases hl : Lead.ofOctet? c with
      | none => rw [next_accept_of_none hl, if_neg (by decide), if_pos rfl]
      | some lead =>
          obtain ⟨hg, ⟨hn, ha⟩ | ⟨hw, hb⟩⟩ := accept_of_lead hl
          · rw [ha, if_pos rfl, hg]
            dsimp only
            rw [hn, decodeTail]
          · have hr : ((gather 0 accept c).toNat + 1) * 0x40 ^ lead.following ≤ 0x20 * 0x40 ^ 3 := by
              rw [hg]
              exact Nat.mul_le_mul hb (Nat.pow_le_pow_right (by decide) hw.le_three)
            rw [if_neg hw.ne_accept, if_neg hw.ne_reject, run_of_waits hw (Nat.le_trans hr (by decide)), hg]

end Peg.Utf8.Automaton
