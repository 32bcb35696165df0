import Mathlib.Data.Nat.Count
import Mathlib.Data.Nat.ModEq
import Mathlib.Order.Bounds.Basic
import Peg.Proofs.Folding
import Peg.Proofs.RuneBoundaries

namespace Peg

open Utf8

variable {x : Subject} {s u w : Octets} {o : UInt8} {r : Rune} {k n : Nat}

/-- Locations are ordered by lines, and in a line by columns. -/
def Location.Before (l m : Location) : Prop := l.line < m.line ∨ l.line = m.line ∧ l.column < m.column

instance (l m : Location) : Decidable (l.Before m) := inferInstanceAs (Decidable (_ ∨ _))

namespace Location

variable {k l m : Location}

theorem not_before_iff : ¬m.Before l ↔ l.line < m.line ∨ l.line = m.line ∧ l.column ≤ m.column := by
  unfold Before
  omega

theorem not_before_self (l : Location) : ¬l.Before l := not_before_iff.mpr (.inr ⟨rfl, Nat.le_refl _⟩)

theorem Before.asymm (h : l.Before m) : ¬m.Before l := not_before_iff.mpr (h.imp_right (And.imp_right Nat.le_of_lt))

theorem not_before_trans (h : ¬l.Before k) (h' : ¬m.Before l) : ¬m.Before k := by
  rw [not_before_iff] at *
  omega

theorem Before.trans_not (h : k.Before l) (h' : ¬m.Before l) : k.Before m := by
  rw [not_before_iff] at h'
  unfold Before at *
  omega

theorem before_of_not (h : ¬l.Before k) (h' : l.Before m) : k.Before m := by
  rw [not_before_iff] at h
  unfold Before at *
  omega

end Location

def IsLineEnd (o : UInt8) : Prop := o = carriageReturn ∨ o = newline

instance (o : UInt8) : Decidable (IsLineEnd o) := inferInstanceAs (Decidable (_ ∨ _))

/-- Behind this text the octet begins a line ending. An LF right behind a CR does not, it is part of that one's. -/
def BreaksLine (s : Octets) (o : UInt8) : Prop :=
  o = carriageReturn ∨ o = newline ∧ s.getLast? ≠ some carriageReturn

instance (s : Octets) (o : UInt8) : Decidable (BreaksLine s o) := inferInstanceAs (Decidable (_ ∨ _))

theorem BreaksLine.isLineEnd (h : BreaksLine s o) : IsLineEnd o := h.imp_right And.left

theorem IsLineEnd.breaksLine_or (h : IsLineEnd o) (s : Octets) :
    BreaksLine s o ∨ o = newline ∧ s.getLast? = some carriageReturn := by
  by_cases hs : s.getLast? = some carriageReturn
  · exact h.imp .inl fun ho => ⟨ho, hs⟩
  · exact .inl (h.imp_right fun ho => ⟨ho, hs⟩)

/-- What is remembered of the octets before an LF is whether the last of them is a CR. -/
theorem lineEndings_concat_behind (p : UInt8) (s : Octets) (o : UInt8) :
    lineEndings (decide (p = carriageReturn)) (s ++ [o]) = lineEndings (decide (p = carriageReturn)) s +
      if o = carriageReturn ∨ o = newline ∧ s.getLastD p ≠ carriageReturn then 1 else 0 := by
  induction s generalizing p with
  | nil =>
      simp only [List.nil_append, lineEndings, List.getLastD_nil]
      grind [newline, carriageReturn]
  | cons c s ih =>
      have hc := ih c
      rw [List.getLastD_cons, List.cons_append, lineEndings, lineEndings]
      split
      · rename_i hret
        rw [decide_eq_true hret] at hc
        rw [hc, Nat.add_assoc]
      · rename_i hret
        rw [decide_eq_false hret] at hc
        split
        · rw [hc, Nat.add_assoc]
        · exact hc

theorem lineEndings_concat (s : Octets) (o : UInt8) :
    lineEndings false (s ++ [o]) = lineEndings false s + if BreaksLine s o then 1 else 0 := by
  have hlast : s.getLastD 0 = carriageReturn ↔ s.getLast? = some carriageReturn := by
    rw [List.getLastD_eq_getLast?]
    cases s.getLast? with
    | none => exact iff_of_false (by decide) nofun
    | some c => exact Option.some_inj.symm
  have h := lineEndings_concat_behind 0 s o
  simp only [ne_eq, hlast] at h
  exact h

theorem lastLine_concat_behind (l s : Octets) (o : UInt8) :
    lastLine (l ++ [o]) (s ++ [o]) = if IsLineEnd o then [] else lastLine l s ++ [o] := by
  induction s generalizing l with
  | nil =>
      rw [List.nil_append, lastLine]
      rfl
  | cons c s ih =>
      rw [List.cons_append, lastLine, lastLine]
      split
      · exact ih s
      · exact ih l

theorem lastLine_concat (s : Octets) (o : UInt8) :
    lastLine (s ++ [o]) (s ++ [o]) = if IsLineEnd o then [] else lastLine s s ++ [o] :=
  lastLine_concat_behind s s o

theorem lineEndings_append (hw : ∀ o ∈ w, ¬IsLineEnd o) : lineEndings false (s ++ w) = lineEndings false s := by
  induction w generalizing s with
  | nil => rw [List.append_nil]
  | cons o w ih =>
      obtain ⟨ho, hw⟩ := List.forall_mem_cons.mp hw
      rw [List.append_cons, ih hw, lineEndings_concat, if_neg (mt BreaksLine.isLineEnd ho), Nat.add_zero]

theorem lastLine_append (hw : ∀ o ∈ w, ¬IsLineEnd o) : lastLine (s ++ w) (s ++ w) = lastLine s s ++ w := by
  induction w generalizing s with
  | nil => rw [List.append_nil, List.append_nil]
  | cons o w ih =>
      obtain ⟨ho, hw⟩ := List.forall_mem_cons.mp hw
      rw [List.append_cons, ih hw, lastLine_concat, if_neg ho, List.append_assoc, List.singleton_append]

/-- Only what is cut off or malformed at the end of a text depends on what comes behind. -/
theorem Utf8.FirstRune.eq_replacement_or_append (h : FirstRune u r s) :
    (r = replacement ∧ s = []) ∨ ∀ t, FirstRune u r (s ++ t) := by
  cases h with
  | character c => exact .inr fun t => .character c (s ++ t)
  | cut h => exact .inl ⟨rfl, rfl⟩
  | spoiled h hw hs =>
      cases s with
      | nil => exact .inl ⟨rfl, rfl⟩
      | cons o s => exact .inr fun t => .spoiled h hw hs

namespace TabStops

theorem lt_advance (tabs : TabStops) (c : Nat) (r : Rune) : c < tabs.advance c r := by
  rw [advance]
  split
  · exact Nat.le_max_right _ _
  · exact Nat.lt_succ_self c

/-- The column behind some runes, where the first of them stands at `c`. -/
def columnAfter (tabs : TabStops) (c : Nat) (rs : List Rune) : Nat := rs.foldl tabs.advance c

theorem le_columnAfter (tabs : TabStops) (c : Nat) (rs : List Rune) : c ≤ tabs.columnAfter c rs := by
  induction rs generalizing c with
  | nil => exact Nat.le_refl c
  | cons r rs ih => exact Nat.le_of_lt (Nat.lt_of_lt_of_le (tabs.lt_advance c r) (ih _))

theorem lt_columnAfter (tabs : TabStops) (c : Nat) (hs : s ≠ []) : c < tabs.columnAfter c (runes s) := by
  obtain ⟨u, r, t, rfl, h⟩ := exists_firstRune hs
  rw [runes_of_firstRune h]
  exact Nat.lt_of_lt_of_le (tabs.lt_advance c r) (tabs.le_columnAfter _ _)

/-- More text never moves the column back, even if it changes how the last rune is decoded. That rune has been one
U+FFFD, which moves on by one column, and no rune moves on by less. -/
theorem columnAfter_le_append (tabs : TabStops) (c : Nat) (s w : Octets) :
    tabs.columnAfter c (runes s) ≤ tabs.columnAfter c (runes (s ++ w)) := by
  induction s using induction_on_runes generalizing c with
  | nil => exact tabs.le_columnAfter c _
  | rune u r s h ih =>
      rcases h.eq_replacement_or_append with ⟨rfl, rfl⟩ | happend
      · rw [runes_of_firstRune h, List.append_nil]
        exact tabs.lt_columnAfter c (List.append_ne_nil_of_left_ne_nil h.ne_nil w)
      · rw [List.append_assoc, runes_of_firstRune h, runes_of_firstRune (happend w)]
        exact ih (tabs.advance c r)

theorem isLeast_tabTo (hn : 1 ≤ n) (c : Nat) : IsLeast {d | c < d ∧ d ≡ 1 [MOD n]} (tabTo ⟨n, n⟩ c) := by
  have hmod := Nat.mod_lt (c + n - 1) hn
  have hdiv := Nat.div_add_mod (c + n - 1) n
  have htab : tabTo ⟨n, n⟩ c = n * ((c + n - 1) / n) + 1 := by
    simp only [tabTo, if_neg (Nat.ne_of_gt hn)]
    omega
  have hone : n * ((c + n - 1) / n) + 1 ≡ 1 [MOD n] := by
    rw [Nat.ModEq, Nat.mul_add_mod]
  rw [htab]
  refine ⟨⟨by omega, hone⟩, fun d ⟨hd, hdone⟩ => Nat.le_of_not_lt fun hlt => ?_⟩
  -- Two such columns are a multiple of `n` apart, and there is no room for that.
  have hdvd := (Nat.modEq_iff_dvd' (Nat.le_of_lt hlt)).mp (hdone.trans hone.symm)
  have hzero := Nat.eq_zero_of_dvd_of_lt hdvd (by omega)
  omega

theorem line_concat (tabs : TabStops) (s : Octets) (o : UInt8) : (tabs.locationAfter (s ++ [o])).line =
    (tabs.locationAfter s).line + if BreaksLine s o then 1 else 0 := by
  simp only [locationAfter, lineEndings_concat, Nat.add_assoc]

theorem column_concat (tabs : TabStops) (s : Octets) (ho : IsLineEnd o) :
    (tabs.locationAfter (s ++ [o])).column = 1 := by
  simp only [locationAfter, lastLine_concat, if_pos ho]
  rfl

theorem column_behind_return (tabs : TabStops) (hs : s.getLast? = some carriageReturn) :
    (tabs.locationAfter s).column = 1 := by
  obtain ⟨t, rfl⟩ := List.getLast?_eq_some_iff.mp hs
  exact tabs.column_concat t (.inl rfl)

/-- An LF that is part of a CRLF moves nothing, since the CR has ended the line. -/
theorem locationAfter_newline (tabs : TabStops) (hs : s.getLast? = some carriageReturn) :
    tabs.locationAfter (s ++ [newline]) = tabs.locationAfter s := by
  have hbreaks : ¬BreaksLine s newline := by
    rintro (h | ⟨-, h⟩)
    · exact absurd h (by decide)
    · exact h hs
  have hline := tabs.line_concat s newline
  rw [if_neg hbreaks] at hline
  have hcolumn := (tabs.column_concat s (.inr rfl : IsLineEnd newline)).trans (tabs.column_behind_return hs).symm
  exact congrArg₂ Location.mk hline hcolumn

theorem before_concat (tabs : TabStops) (h : BreaksLine s o) :
    (tabs.locationAfter s).Before (tabs.locationAfter (s ++ [o])) := by
  refine .inl ?_
  rw [line_concat, if_pos h]
  exact Nat.lt_succ_self _

/-- No octet moves a location back. -/
theorem not_before_concat (tabs : TabStops) (s : Octets) (o : UInt8) :
    ¬(tabs.locationAfter (s ++ [o])).Before (tabs.locationAfter s) := by
  by_cases ho : IsLineEnd o
  · rcases ho.breaksLine_or s with hbreaks | ⟨rfl, hs⟩
    · exact (tabs.before_concat hbreaks).asymm
    · rw [locationAfter_newline tabs hs]
      exact Location.not_before_self _
  · refine Location.not_before_iff.mpr (.inr ⟨?_, ?_⟩)
    · rw [line_concat, if_neg (mt BreaksLine.isLineEnd ho), Nat.add_zero]
    · simp only [locationAfter, lastLine_concat, if_neg ho]
      exact tabs.columnAfter_le_append 1 _ _

theorem not_before_append (tabs : TabStops) (s w : Octets) :
    ¬(tabs.locationAfter (s ++ w)).Before (tabs.locationAfter s) := by
  induction w generalizing s with
  | nil =>
      rw [List.append_nil]
      exact Location.not_before_self _
  | cons o w ih =>
      rw [List.append_cons]
      exact Location.not_before_trans (tabs.not_before_concat s o) (ih (s ++ [o]))

end TabStops

namespace Utf8

variable {c : Char} {cs : List Char}

/-- An octet below 0x80 is a character of its own. -/
theorem encodeChar_of_mem (h : o ∈ String.utf8EncodeChar c) (ho : o < 0x80) : String.utf8EncodeChar c = [o] := by
  obtain ⟨b, bs, hb, -, hlow, hbs⟩ := encodeChar_eq_cons c
  rw [hb] at h ⊢
  rcases List.mem_cons.mp h with rfl | hmem
  · rw [hlow ho]
  · exact absurd (hbs o hmem).1 (UInt8.not_le.mpr ho)

/-- In front of such an octet there are whole characters. -/
theorem exists_of_ofChars_eq_append (h : ofChars cs = u ++ o :: s) (ho : o < 0x80) :
    ∃ ds c, u = ofChars ds ∧ String.utf8EncodeChar c = [o] := by
  have hresumes : Resumes (o :: s) := resumes_cons.mpr fun hc => UInt8.not_le.mpr ho hc.1
  obtain ⟨ds, es, -, hu, hes⟩ := ofChars_eq_append h hresumes
  cases es with
  | nil => cases hes
  | cons c es =>
      obtain ⟨b, bs, hb⟩ := List.exists_cons_of_ne_nil (encodeChar_ne_nil c)
      rw [ofChars_cons, hb, List.cons_append] at hes
      have hmem : o ∈ String.utf8EncodeChar c := by
        rw [hb, (List.cons.inj hes).1]
        exact List.mem_cons_self
      exact ⟨ds, c, hu, encodeChar_of_mem hmem ho⟩

end Utf8

theorem IsLineEnd.lt (h : IsLineEnd o) : o < 0x80 := by
  rcases h with rfl | rfl <;> decide

section Characters

variable {c : Char} {cs es : List Char}

theorem lineEnd_or_forall (c : Char) :
    (∃ o, IsLineEnd o ∧ String.utf8EncodeChar c = [o]) ∨ ∀ o ∈ String.utf8EncodeChar c, ¬IsLineEnd o := by
  by_cases h : ∃ o ∈ String.utf8EncodeChar c, IsLineEnd o
  · obtain ⟨o, hmem, ho⟩ := h
    exact .inl ⟨o, ho, encodeChar_of_mem hmem ho.lt⟩
  · exact .inr fun o hmem ho => h ⟨o, hmem, ho⟩

/-- The last line of characters is made of characters. -/
theorem wellFormed_lastLine (cs : List Char) : WellFormed (lastLine (ofChars cs) (ofChars cs)) := by
  induction cs using List.reverseRecOn with
  | nil => exact ⟨[], rfl⟩
  | append_singleton cs c ih =>
      rw [ofChars_append, ofChars_singleton]
      rcases lineEnd_or_forall c with ⟨o, ho, hc⟩ | hc
      · rw [hc, lastLine_concat, if_pos ho]
        exact ⟨[], rfl⟩
      · obtain ⟨es, hes⟩ := ih
        rw [lastLine_append hc, hes]
        exact ⟨es ++ [c], by rw [ofChars_append, ofChars_singleton]⟩

namespace TabStops

/-- A character that ends no line moves on from where it stands. -/
theorem locationAfter_char (tabs : TabStops) (cs : List Char) (hc : ∀ o ∈ String.utf8EncodeChar c, ¬IsLineEnd o) :
    tabs.locationAfter (ofChars cs ++ String.utf8EncodeChar c) =
      ⟨(tabs.locationAfter (ofChars cs)).line, tabs.advance (tabs.locationAfter (ofChars cs)).column c.toNat⟩ := by
  obtain ⟨es, hes⟩ := wellFormed_lastLine cs
  have hrunes : runes (ofChars es ++ String.utf8EncodeChar c) = runes (ofChars es) ++ [c.toNat] := by
    rw [← ofChars_singleton, ← ofChars_append, runes_ofChars, runes_ofChars, List.map_append]
    rfl
  simp only [locationAfter, lineEndings_append hc, lastLine_append hc, hes, hrunes, List.foldl_append]
  rfl

theorem before_char (tabs : TabStops)
    (h : ¬(String.utf8EncodeChar c = [newline] ∧ (ofChars cs).getLast? = some carriageReturn)) :
    (tabs.locationAfter (ofChars cs)).Before (tabs.locationAfter (ofChars (cs ++ [c]))) := by
  rw [ofChars_append, ofChars_singleton]
  rcases lineEnd_or_forall c with ⟨o, ho, hc⟩ | hc
  · rw [hc] at h ⊢
    rcases ho.breaksLine_or (ofChars cs) with hbreaks | ⟨rfl, hs⟩
    · exact tabs.before_concat hbreaks
    · exact absurd ⟨rfl, hs⟩ h
  · rw [locationAfter_char tabs cs hc]
    exact .inr ⟨rfl, tabs.lt_advance _ _⟩

/-- Some characters move on, unless all they are is the LF of a CRLF. Behind such an LF the next one does. -/
theorem before_ofChars (tabs : TabStops) (hes : es ≠ [])
    (h : ¬(ofChars es = [newline] ∧ (ofChars cs).getLast? = some carriageReturn)) :
    (tabs.locationAfter (ofChars cs)).Before (tabs.locationAfter (ofChars (cs ++ es))) := by
  have hmore : ∀ ds fs : List Char,
      ¬(tabs.locationAfter (ofChars (ds ++ fs))).Before (tabs.locationAfter (ofChars ds)) := by
    intro ds fs
    rw [ofChars_append]
    exact tabs.not_before_append _ _
  obtain ⟨c, es, rfl⟩ := List.exists_cons_of_ne_nil hes
  rw [List.append_cons]
  by_cases hc : String.utf8EncodeChar c = [newline] ∧ (ofChars cs).getLast? = some carriageReturn
  · cases es with
    | nil => exact absurd ⟨by rw [ofChars_singleton, hc.1], hc.2⟩ h
    | cons d es =>
        have hlast : (ofChars (cs ++ [c])).getLast? = some newline := by
          rw [ofChars_append, ofChars_singleton, hc.1, List.getLast?_concat]
        have hnext : (tabs.locationAfter (ofChars (cs ++ [c]))).Before
            (tabs.locationAfter (ofChars (cs ++ [c] ++ [d]))) :=
          tabs.before_char fun hd => absurd (hlast.symm.trans hd.2) (by decide)
        rw [List.append_cons (cs ++ [c])]
        exact Location.before_of_not (hmore cs [c]) (hnext.trans_not (hmore _ es))
  · exact (tabs.before_char hc).trans_not (hmore _ es)

end TabStops

end Characters

namespace Subject

/-- The offset lies between the two octets of a CRLF. -/
def InsideEnding (x : Subject) (k : Nat) : Prop :=
  0 < k ∧ x.octets[k - 1]? = some carriageReturn ∧ x.octets[k]? = some newline

instance (x : Subject) (k : Nat) : Decidable (x.InsideEnding k) := inferInstanceAs (Decidable (_ ∧ _))

/-- A line ending begins at the offset: CR, CRLF, or LF alone. -/
def HasEndingAt (x : Subject) (k : Nat) : Prop :=
  x.octets[k]? = some carriageReturn ∨ x.octets[k]? = some newline ∧ ¬x.InsideEnding k

instance (x : Subject) : DecidablePred x.HasEndingAt := fun _ => inferInstanceAs (Decidable (_ ∨ _))

theorem take_succ (h : x.octets[k]? = some o) : x.octets.take (k + 1) = x.octets.take k ++ [o] := by
  rw [List.take_add_one, h]
  rfl

theorem getLast?_take_iff (h : x.octets[k]? = some o) :
    (x.octets.take k).getLast? = some carriageReturn ↔ 0 < k ∧ x.octets[k - 1]? = some carriageReturn := by
  obtain ⟨hk, -⟩ := List.getElem?_eq_some_iff.mp h
  rw [List.getLast?_take]
  split
  · rename_i hzero
    exact iff_of_false nofun fun hpos => Nat.ne_of_gt hpos.1 hzero
  · rename_i hne
    rw [List.getElem?_eq_getElem (by omega), Option.some_or]
    exact (and_iff_right (Nat.pos_of_ne_zero hne)).symm

theorem insideEnding_iff : x.InsideEnding k ↔
    x.octets[k]? = some newline ∧ (x.octets.take k).getLast? = some carriageReturn := by
  rw [InsideEnding, ← and_assoc, and_comm]
  exact and_congr_right fun h => (getLast?_take_iff h).symm

theorem hasEndingAt_iff (h : x.octets[k]? = some o) : x.HasEndingAt k ↔ BreaksLine (x.octets.take k) o := by
  rw [HasEndingAt, insideEnding_iff, h, BreaksLine, Option.some_inj, Option.some_inj]
  exact or_congr_right (and_congr_right fun ho => not_congr (and_iff_right ho))

theorem line_eq_count (x : Subject) (tabs : TabStops) (k : Nat) :
    (x.location tabs k).line = 1 + Nat.count x.HasEndingAt k := by
  induction k with
  | zero => rfl
  | succ k ih =>
      rw [Nat.count_succ, ← Nat.add_assoc, ← ih, location, location]
      cases h : x.octets[k]? with
      | none =>
          have hnone : ¬x.HasEndingAt k := by
            rw [HasEndingAt, h]
            rintro (h | ⟨h, -⟩) <;> cases h
          rw [List.take_add_one, h, if_neg hnone]
          exact congrArg (fun s => (tabs.locationAfter s).line) (List.append_nil _)
      | some o =>
          rw [take_succ h, TabStops.line_concat]
          simp only [hasEndingAt_iff h]

theorem take_of_le (x : Subject) {k k' : Nat} (h : k ≤ k') :
    x.octets.take k' = x.octets.take k ++ (x.octets.drop k).take (k' - k) := by
  rw [← List.take_add, Nat.add_sub_cancel' h]

theorem not_before_of_le (x : Subject) (tabs : TabStops) {k k' : Nat} (h : k ≤ k') :
    ¬(x.location tabs k').Before (x.location tabs k) := by
  rw [location, location, x.take_of_le h]
  exact tabs.not_before_append _ _

/-- From a boundary to a later one there are characters. -/
theorem IsBoundary.exists_ofChars {k k' : Nat} (hk : x.IsBoundary k) (hk' : x.IsBoundary k') (h : k < k') :
    ∃ cs es, x.octets.take k = ofChars cs ∧ (x.octets.drop k).take (k' - k) = ofChars es ∧
      (ofChars es).length = k' - k := by
  obtain ⟨es, hes⟩ := hk.slice hk'
  rw [Subject.slice, if_pos (Nat.le_of_lt h), x.after_eq] at hes
  dsimp only at hes
  obtain ⟨cs, ds, hx, rfl⟩ := hk
  obtain ⟨cs', ds', hx', rfl⟩ := hk'
  refine ⟨cs, es, by rw [hx, List.take_left], hes, ?_⟩
  rw [← hes, List.length_take, List.length_drop, hx', List.length_append]
  omega

theorem before_iff (tabs : TabStops) {k k' : Nat} (hk : x.IsBoundary k) (hk' : x.IsBoundary k') (h : k < k') :
    (x.location tabs k).Before (x.location tabs k') ↔ ¬(x.InsideEnding k ∧ k' = k + 1) := by
  constructor
  · rintro hbefore ⟨hinside, rfl⟩
    obtain ⟨hnewline, hlast⟩ := insideEnding_iff.mp hinside
    rw [location, location, take_succ hnewline, tabs.locationAfter_newline hlast] at hbefore
    exact Location.not_before_self _ hbefore
  · intro hout
    obtain ⟨cs, es, hcs, hes, hlen⟩ := hk.exists_ofChars hk' h
    rw [location, location, x.take_of_le (Nat.le_of_lt h), hcs, hes, ← ofChars_append]
    refine tabs.before_ofChars ?_ ?_
    · rintro rfl
      rw [ofChars_nil, List.length_nil] at hlen
      omega
    · rintro ⟨hnewline, hlast⟩
      rw [hnewline, List.length_singleton] at hlen
      rw [hnewline, ← hlen] at hes
      have hget := congrArg (fun s => s[0]?) hes
      simp only [List.getElem?_take_of_lt Nat.one_pos, List.getElem?_drop, Nat.add_zero] at hget
      exact hout ⟨insideEnding_iff.mpr ⟨hget, hcs ▸ hlast⟩, by omega⟩

theorem location_tab (hx : WellFormed x.octets) (tabs : TabStops) (hk : x.octets[k]? = some 0x09) :
    x.location tabs (k + 1) = ⟨(x.location tabs k).line, tabs.advance (x.location tabs k).column 0x09⟩ := by
  obtain ⟨cs, hcs⟩ := hx
  have hcut : ofChars cs = x.octets.take k ++ 0x09 :: x.octets.drop (k + 1) := by
    rw [← hcs, List.append_cons, ← take_succ hk, List.take_append_drop]
  obtain ⟨ds, c, htake, hc⟩ := exists_of_ofChars_eq_append hcut (by decide)
  have htab : c.toNat = 0x09 := by
    have h := decode_encodeChar c []
    rw [hc] at h
    exact (congrArg Decoded.rune h).symm.trans (by decide)
  have hnone : ∀ o ∈ String.utf8EncodeChar c, ¬IsLineEnd o := by
    rw [hc]
    exact List.forall_mem_singleton.mpr (by decide)
  rw [location, location, take_succ hk, htake, ← hc, tabs.locationAfter_char ds hnone, htab]

/-- Locations never move back along a text, whatever it holds and wherever tabs stop. A line is one more than the line
endings in front of it. From one boundary of a well-formed text to the next they move on, but not over the LF of a CRLF.
Where tabs are as wide as they are aligned, a tab stays on its line and goes to the next of the columns behind
multiples of the width. -/
theorem location_ordered (x : Subject) (tabs : TabStops) :
    (∀ k k', k ≤ k' → ¬(x.location tabs k').Before (x.location tabs k)) ∧
      (∀ k, (x.location tabs k).line = 1 + Nat.count x.HasEndingAt k) ∧
      (∀ k k', x.IsBoundary k → x.IsBoundary k' → k < k' →
        ((x.location tabs k).Before (x.location tabs k') ↔ ¬(x.InsideEnding k ∧ k' = k + 1))) ∧
      ∀ n k, 1 ≤ n → tabs = ⟨n, n⟩ → WellFormed x.octets → x.octets[k]? = some 0x09 →
        (x.location tabs (k + 1)).line = (x.location tabs k).line ∧
          IsLeast {c | (x.location tabs k).column < c ∧ c ≡ 1 [MOD n]} (x.location tabs (k + 1)).column := by
  refine ⟨fun k k' => x.not_before_of_le tabs, x.line_eq_count tabs, fun k k' => before_iff tabs, ?_⟩
  rintro n k hn rfl hx hk
  rw [location_tab hx _ hk]
  refine ⟨rfl, ?_⟩
  have hadvance : ∀ c, TabStops.advance ⟨n, n⟩ c 0x09 = TabStops.tabTo ⟨n, n⟩ c :=
    fun c => if_pos ⟨rfl, Nat.ne_of_gt hn⟩
  rw [hadvance]
  exact TabStops.isLeast_tabTo hn _

/-- Behind a letter and a CRLF there is a tab. -/
theorem location_ordered_return :
    let x := ofOctets [0xC3, 0xA9, 0x0D, 0x0A, 0x09, 0x62]
    let tabs : TabStops := ⟨4, 4⟩
    WellFormed x.octets ∧ (x.IsBoundary 0 ∧ x.IsBoundary 2 ∧ x.IsBoundary 3 ∧ x.IsBoundary 4) ∧
      ¬(x.location tabs 2).Before (x.location tabs 1) ∧ (x.location tabs 6).line = 1 + 1 ∧
      (x.location tabs 0).Before (x.location tabs 2) ∧ ¬(x.location tabs 3).Before (x.location tabs 4) ∧
      x.octets[4]? = some 0x09 ∧ IsLeast {c | 1 < c ∧ c ≡ 1 [MOD 4]} (x.location tabs 5).column := by
  intro x tabs
  have hx : WellFormed x.octets := ⟨['é', '\r', '\n', '\t', 'b'], by decide⟩
  have h0 : x.IsBoundary 0 := ⟨[], ['é', '\r', '\n', '\t', 'b'], by decide, rfl⟩
  have h2 : x.IsBoundary 2 := ⟨['é'], ['\r', '\n', '\t', 'b'], by decide, by decide⟩
  have h3 : x.IsBoundary 3 := ⟨['é', '\r'], ['\n', '\t', 'b'], by decide, by decide⟩
  have h4 : x.IsBoundary 4 := ⟨['é', '\r', '\n'], ['\t', 'b'], by decide, by decide⟩
  obtain ⟨hback, hline, hbefore, htab⟩ := location_ordered x tabs
  exact ⟨hx, ⟨h0, h2, h3, h4⟩, hback 1 2 (by decide), hline 6, (hbefore 0 2 h0 h2 (by decide)).mpr (by decide),
    fun h => (hbefore 3 4 h3 h4 (by decide)).mp h (by decide), rfl, (htab 4 4 (by decide) rfl hx rfl).2⟩

end Subject
end Peg
