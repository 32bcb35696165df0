import Peg.Proofs.Scope

namespace Peg

namespace Attempts

def names (a : Attempts) : Polarity → Array Octets
  | .positive => a.expected
  | .negative => a.unexpected

/-- The names on record for an offset. There are none but for the offset of the record. -/
def namesAt (p : Nat) (polarity : Polarity) (a : Attempts) : List Octets :=
  if p = a.offset then (a.names polarity).toList else []

/-- The later record has gone further, or it says what the earlier one says and more. -/
structure Precedes (early late : Attempts) : Prop where
  offset_le : early.offset ≤ late.offset
  names_prefix : ∀ polarity, early.namesAt late.offset polarity <+: late.namesAt late.offset polarity

/-- The later record has gone beyond `p`, or it says about `p` what the earlier one says, and one name more. -/
def GainsOne (p : Nat) (early late : Attempts) : Prop :=
  p < late.offset ∨ late.offset = p ∧ (∀ polarity, early.namesAt p polarity <+: late.namesAt p polarity) ∧
    (late.namesAt p .positive).length + (late.namesAt p .negative).length =
      (early.namesAt p .positive).length + (early.namesAt p .negative).length + 1

variable {a : Attempts} {name other : Octets} {polarity wanted : Polarity} {p : Nat} {before : AttemptCount}

theorem offset_add (name : Octets) (polarity : Polarity) (a : Attempts) : (a.add name polarity).offset = a.offset := by
  cases polarity <;> rfl

theorem mem_names_cutTo (h : other ∈ (a.cutTo before).names wanted) : other ∈ a.names wanted := by
  cases wanted <;> exact mem_of_mem_shrink h

theorem mem_names_add (h : other ∈ (a.add name polarity).names wanted) :
    other ∈ a.names wanted ∨ other = name ∧ wanted = polarity := by
  cases polarity <;> cases wanted
  · exact (Array.mem_push.mp h).imp_right fun he => ⟨he, rfl⟩
  · exact .inl h
  · exact .inl h
  · exact (Array.mem_push.mp h).imp_right fun he => ⟨he, rfl⟩

/-- A name on record was there before, for the same offset, or it is the one put there. -/
theorem mem_names_record (h : other ∈ (a.record name polarity p before).names wanted) :
    (other ∈ a.names wanted ∧ a.offset = (a.record name polarity p before).offset) ∨
      (other = name ∧ wanted = polarity ∧ p = (a.record name polarity p before).offset) := by
  unfold record at h ⊢
  split at h
  next hskip =>
    rw [if_pos hskip]
    exact .inl ⟨h, rfl⟩
  next hskip =>
    rw [if_neg hskip]
    split at h
    next hp =>
      rw [if_pos hp]
      rcases mem_names_add h with h | ⟨rfl, rfl⟩
      · exact .inl ⟨mem_names_cutTo h, (offset_add name polarity (a.cutTo before)).symm⟩
      · exact .inr ⟨rfl, rfl, hp.trans (offset_add _ _ (a.cutTo before)).symm⟩
    next hp =>
      rw [if_neg hp]
      rcases mem_names_add h with h | ⟨rfl, rfl⟩
      · cases wanted <;> exact absurd h (Array.not_mem_empty _)
      · exact .inr ⟨rfl, rfl, (offset_add _ _ ({ offset := p } : Attempts)).symm⟩

theorem namesAt_offset (a : Attempts) (polarity : Polarity) :
    a.namesAt a.offset polarity = (a.names polarity).toList := if_pos rfl

theorem namesAt_of_ne (h : p ≠ a.offset) : a.namesAt p polarity = [] := if_neg h

theorem total_countAt (p : Nat) (a : Attempts) :
    (a.countAt p).total = (a.namesAt p .positive).length + (a.namesAt p .negative).length := by
  unfold countAt namesAt
  split <;> rfl

theorem toList_names_add (name : Octets) (polarity wanted : Polarity) (a : Attempts) :
    ((a.add name polarity).names wanted).toList = (a.names wanted).toList ++ if wanted = polarity then [name] else [] := by
  cases polarity <;> cases wanted
  · exact Array.toList_push
  · exact (List.append_nil _).symm
  · exact (List.append_nil _).symm
  · exact Array.toList_push

/-- Cut to an earlier count, a record is what it was when it was counted. -/
theorem toList_names_cutTo {early : Attempts} (h : early.namesAt p wanted <+: (a.names wanted).toList) :
    ((a.cutTo (early.countAt p)).names wanted).toList = early.namesAt p wanted := by
  by_cases hp : p = early.offset
  · have hc : early.countAt p = ⟨early.expected.size, early.unexpected.size⟩ := if_pos hp
    rw [namesAt, if_pos hp] at h ⊢
    rw [hc]
    cases wanted <;> exact congrArg Array.toList <| shrink_of_prefix h
  · have hc : early.countAt p = ⟨0, 0⟩ := if_neg hp
    rw [namesAt, if_neg hp] at h ⊢
    rw [hc]
    cases wanted <;> exact congrArg Array.toList <| shrink_of_prefix (a := #[]) h

theorem offset_le_record (name : Octets) (polarity : Polarity) (p : Nat) (before : AttemptCount) (a : Attempts) :
    a.offset ≤ (a.record name polarity p before).offset := by
  unfold record
  split
  · exact Nat.le_refl _
  next h =>
    split
    · exact Nat.le_of_eq (offset_add name polarity (a.cutTo before)).symm
    · rw [offset_add]
      exact Nat.le_of_not_lt fun hlt => h (.inr hlt)

namespace Precedes

variable {early middle late : Attempts}

theorem refl (a : Attempts) : a.Precedes a := ⟨Nat.le_refl _, fun _ => List.prefix_refl _⟩

theorem trans (h : early.Precedes middle) (h' : middle.Precedes late) : early.Precedes late := by
  refine ⟨Nat.le_trans h.offset_le h'.offset_le, fun polarity => ?_⟩
  by_cases he : late.offset = early.offset
  · have hm : late.offset = middle.offset := Nat.le_antisymm (he ▸ h.offset_le) h'.offset_le
    have hp := h.names_prefix polarity
    rw [← hm] at hp
    exact hp.trans (h'.names_prefix polarity)
  · rw [namesAt_of_ne he]
    exact List.nil_prefix

/-- A rule is put on record unless it says no more than what is there. A single name came from its parts, or what
there is lies beyond it. Otherwise its name stands in place of whatever its parts put there. -/
theorem record_cases (h : early.Precedes late) (name : Octets) (polarity : Polarity) (p : Nat) :
    (late.record name polarity p (early.countAt p) = late ∧
      (p < late.offset ∨ late.offset = p ∧ (late.countAt p).total = (early.countAt p).total + 1)) ∨
    (late.record name polarity p (early.countAt p)).offset = p ∧ late.offset ≤ p ∧
      ∀ wanted, ((late.record name polarity p (early.countAt p)).names wanted).toList =
        early.namesAt p wanted ++ if wanted = polarity then [name] else [] := by
  unfold record
  split
  next hskip =>
    refine .inl ⟨rfl, ?_⟩
    rcases hskip with hone | hlt
    · by_cases hp : p = late.offset
      · exact .inr ⟨hp.symm, hone⟩
      · rw [countAt, if_neg hp] at hone
        cases hone
    · exact .inl hlt
  next hskip =>
    have hle : late.offset ≤ p := Nat.le_of_not_lt fun hlt => hskip (.inr hlt)
    split
    next hp =>
      refine .inr ⟨(offset_add name polarity (late.cutTo _)).trans hp.symm, hle, fun wanted => ?_⟩
      have hn := h.names_prefix wanted
      rw [namesAt_offset, ← hp] at hn
      rw [toList_names_add, toList_names_cutTo hn]
    next hp =>
      refine .inr ⟨offset_add name polarity { offset := p }, hle, fun wanted => ?_⟩
      have he : p ≠ early.offset := by
        have := h.offset_le
        omega
      rw [toList_names_add, namesAt_of_ne he]
      cases wanted <;> rfl

theorem record (h : early.Precedes late) (name : Octets) (polarity : Polarity) (p : Nat) :
    early.Precedes (late.record name polarity p (early.countAt p)) := by
  rcases h.record_cases name polarity p with ⟨he, -⟩ | ⟨ho, hle, hn⟩
  · rw [he]
    exact h
  · refine ⟨Nat.le_trans (Nat.le_trans h.offset_le hle) (Nat.le_of_eq ho.symm), fun wanted => ?_⟩
    rw [namesAt_offset, hn, ho]
    exact List.prefix_append _ _

/-- However many names the parts of a rule put on record, one is left of them when the rule itself is. -/
theorem gainsOne_record (h : early.Precedes late) (name : Octets) (polarity : Polarity) (p : Nat) :
    early.GainsOne p (late.record name polarity p (early.countAt p)) := by
  rcases h.record_cases name polarity p with ⟨he, hlt | ⟨hp, hone⟩⟩ | ⟨ho, -, hn⟩
  · rw [he]
    exact .inl hlt
  · rw [he]
    rw [total_countAt, total_countAt] at hone
    have hprefix := h.names_prefix
    rw [hp] at hprefix
    exact .inr ⟨hp, hprefix, hone⟩
  · have hnames (wanted : Polarity) : (late.record name polarity p (early.countAt p)).namesAt p wanted =
        early.namesAt p wanted ++ if wanted = polarity then [name] else [] := by
      rw [namesAt, if_pos ho.symm, hn]
    refine .inr ⟨ho, fun wanted => ?_, ?_⟩
    · rw [hnames]
      exact List.prefix_append _ _
    · simp only [hnames, List.length_append]
      cases polarity <;> simp only [reduceCtorEq, if_true, if_false, List.length_cons, List.length_nil] <;> omega

end Precedes

end Attempts

namespace State

variable {s t : State} {p : Nat} {k : Match} {f : RuleFrame}

theorem attempts_note (k : Match) (s : State) : (s.note k).attempts = s.attempts := by cases k <;> rfl

theorem attempts_rollBack (mark : Mark) (k : Match) (s : State) : (s.rollBack mark k).attempts = s.attempts := by
  cases k <;> rfl

/-- A rule is put on record where it disappoints, but never in an atomic rule. -/
theorem attempts_closeRule_eq (f : RuleFrame) (k : Match) (s : State) : (s.closeRule f k).attempts =
    if s.Disappoints k ∧ s.atomicity ≠ .atomic then s.attempts.record f.rule s.polarity f.offset f.attempts
    else s.attempts := by
  have hc : (s.closeRule f k).attempts = (if s.Disappoints k then s.recordAttempt f else s).attempts := by
    rw [closeRule]
    split
    · cases k <;> rfl
    · rfl
  rw [hc]
  by_cases hd : s.Disappoints k
  · by_cases ha : s.atomicity = .atomic
    · rw [if_pos hd, recordAttempt, if_pos ha, if_neg fun h => h.2 ha]
    · rw [if_pos hd, recordAttempt, if_neg ha, if_pos ⟨hd, ha⟩]
  · rw [if_neg hd, if_neg fun h => hd h.1]

end State

end Peg
