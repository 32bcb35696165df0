import Peg.Stream

namespace Peg.Stream

variable {d : UInt8} {u l text : Octets} {ls : List Octets} {s : Stream} {n : Nat}

theorem splitBehind_append_cons (h : d ∉ u) (v : Octets) : splitBehind d (u ++ d :: v) = (u ++ [d], v) := by
  induction u with
  | nil => exact if_pos rfl
  | cons c u ih =>
      rw [List.mem_cons, not_or] at h
      rw [List.cons_append, splitBehind, if_neg (Ne.symm h.1), ih h.2]
      rfl

theorem splitBehind_of_not_mem (h : d ∉ l) : splitBehind d l = (l, []) := by
  induction l with
  | nil => rfl
  | cons c l ih =>
      rw [List.mem_cons, not_or] at h
      rw [splitBehind, if_neg (Ne.symm h.1), ih h.2]

/-- All was read, and then a read got nothing. -/
def exhausted : Stream := { rest := [], atEnd := true, failed := true }

theorem readLine_append_cons (h : newline ∉ u) (v : Octets) :
    (ofOctets (u ++ newline :: v)).readLine = (u ++ [newline], ofOctets v) := by
  have hsplit := splitBehind_append_cons h v
  have hlast : (u ++ [newline]).getLast? = some newline := List.getLast?_concat
  have hne : (u ++ [newline]).isEmpty = false := List.isEmpty_eq_false_iff.mpr (by simp)
  simp only [readLine, readThrough, ofOctets, hsplit, settle, hlast, hne]
  rfl

/-- A line without a newline is the last one, and the end is met behind it. -/
theorem readLine_of_not_mem (h : newline ∉ l) (hl : l ≠ []) :
    (ofOctets l).readLine = (l, { rest := [], atEnd := true }) := by
  have hsplit := splitBehind_of_not_mem h
  have hlast : (l.getLast? != some newline) = true := bne_iff_ne.mpr fun he => h (List.mem_of_getLast? he)
  have hne : l.isEmpty = false := List.isEmpty_eq_false_iff.mpr hl
  simp only [readLine, readThrough, ofOctets, hsplit, settle, hlast, hne]
  rfl

/-- What some reads of a line get, one behind the other, whether they fail or not, and the stream behind them. -/
def readLines : Nat → Stream → List Octets × Stream
  | 0, s => ([], s)
  | n + 1, s => (s.readLine.1 :: (readLines n s.readLine.2).1, (readLines n s.readLine.2).2)

/-- This is what the stream has still to give. Where its end has been met that is nothing. -/
inductive Holds : Octets → Stream → Prop
  | good (text : Octets) : Holds text (ofOctets text)
  | ended (failed : Bool) : Holds [] { rest := [], atEnd := true, failed := failed }

namespace Holds

/-- What a line takes is no longer to be given, and all else still is. -/
theorem readLine (h : Holds text s) : ∃ rest, Holds rest s.readLine.2 ∧ s.readLine.1 ++ rest = text := by
  cases h with
  | ended failed => exact ⟨[], .ended true, rfl⟩
  | good =>
      by_cases hmem : newline ∈ text
      · obtain ⟨u, v, rfl, hu⟩ := List.eq_append_cons_of_mem hmem
        rw [readLine_append_cons hu]
        exact ⟨v, .good v, by rw [List.append_assoc, List.singleton_append]⟩
      · by_cases hnil : text = []
        · subst hnil
          exact ⟨[], .ended true, rfl⟩
        · rw [readLine_of_not_mem hmem hnil]
          exact ⟨[], .ended false, List.append_nil text⟩

theorem readLines (h : Holds text s) (n : Nat) :
    ∃ rest, Holds rest (s.readLines n).2 ∧ (s.readLines n).1.flatten ++ rest = text := by
  induction n generalizing text s with
  | zero => exact ⟨text, h, rfl⟩
  | succ n ih =>
      obtain ⟨rest, hrest, rfl⟩ := h.readLine
      obtain ⟨left, hleft, rfl⟩ := ih hrest
      exact ⟨left, hleft, by rw [Stream.readLines, List.flatten_cons, List.append_assoc]⟩

theorem readSource (h : Holds text s) : s.readSource.1 = .ok text := by
  cases h with
  | good | ended => rfl

end Holds

theorem readLines_exhausted (n : Nat) : (exhausted.readLines n).2 = exhausted := by
  induction n with
  | zero => rfl
  | succ n ih => exact ih

/-- A read that fails is followed by such reads only. -/
theorem readLines_of_readLine_eq (h : s.readLine = ([], exhausted)) (n : Nat) :
    (s.readLines (n + 1)).2 = exhausted := by
  rw [readLines, h]
  exact readLines_exhausted n

/-- A text is cut behind each newline. What is left behind the last one is cut off too. -/
inductive CutInto : Octets → List Octets → Prop
  | nil : CutInto [] []
  | last {l : Octets} (h : newline ∉ l) (hl : l ≠ []) : CutInto l [l]
  | line {u rest : Octets} {ls : List Octets} (h : newline ∉ u) (hrest : CutInto rest ls) :
      CutInto (u ++ newline :: rest) ((u ++ [newline]) :: ls)

theorem exists_cutInto (text : Octets) : ∃ ls, CutInto text ls := by
  induction hn : text.length using Nat.strongRecOn generalizing text with
  | ind n ih =>
      by_cases hmem : newline ∈ text
      · obtain ⟨u, v, rfl, hu⟩ := List.eq_append_cons_of_mem hmem
        obtain ⟨ls, hls⟩ := ih v.length (by rw [← hn, List.length_append, List.length_cons]; omega) v rfl
        exact ⟨_, .line hu hls⟩
      · by_cases hnil : text = []
        · subst hnil
          exact ⟨[], .nil⟩
        · exact ⟨_, .last hmem hnil⟩

namespace CutInto

theorem flatten (h : CutInto text ls) : ls.flatten = text := by
  induction h with
  | nil => rfl
  | last => exact List.flatten_singleton
  | line _ _ ih => rw [List.flatten_cons, ih, List.append_assoc, List.singleton_append]

theorem not_mem_dropLast (h : CutInto text ls) : ∀ l ∈ ls, l ≠ [] ∧ newline ∉ l.dropLast := by
  induction h with
  | nil => nofun
  | @last l h hl => exact List.forall_mem_singleton.mpr ⟨hl, fun hm => h (l.dropLast_subset hm)⟩
  | line h _ ih =>
      refine List.forall_mem_cons.mpr ⟨⟨by simp, ?_⟩, ih⟩
      rwa [List.dropLast_concat]

theorem getLast?_eq (h : CutInto text ls) : ∀ l ∈ ls.dropLast, l.getLast? = some newline := by
  induction h with
  | nil | last => nofun
  | @line u _ ls _ _ ih =>
      cases ls with
      | nil => nofun
      | cons l ls => exact List.forall_mem_cons.mpr ⟨List.getLast?_concat, ih⟩

/-- One read after the other gets a line, and the next one nothing. -/
theorem readLines (h : CutInto text ls) :
    ((ofOctets text).readLines ls.length).1 = ls ∧
      ((ofOctets text).readLines ls.length).2.readLine = ([], exhausted) ∧
      ∀ k, ((ofOctets text).readLines (k + 1)).2.isSound = true ↔ k < ls.length := by
  have hover : ∀ {s : Stream}, s.readLine = ([], exhausted) → ∀ k, ¬(s.readLines (k + 1)).2.isSound = true := by
    intro s hs k
    rw [readLines_of_readLine_eq hs]
    nofun
  induction h with
  | nil => exact ⟨rfl, rfl, fun k => iff_of_false (hover rfl k) (Nat.not_lt_zero k)⟩
  | last h hl =>
      rw [List.length_singleton, Stream.readLines, readLine_of_not_mem h hl]
      refine ⟨rfl, rfl, fun k => ?_⟩
      rw [Stream.readLines, readLine_of_not_mem h hl]
      cases k with
      | zero => exact iff_of_true rfl Nat.one_pos
      | succ k => exact iff_of_false (hover rfl k) (by omega)
  | line h _ ih =>
      obtain ⟨hls, hlast, hsound⟩ := ih
      rw [List.length_cons, Stream.readLines, readLine_append_cons h]
      refine ⟨by rw [hls], hlast, fun k => ?_⟩
      rw [Stream.readLines, readLine_append_cons h]
      cases k with
      | zero => exact iff_of_true rfl (Nat.succ_pos _)
      | succ k => rw [hsound, Nat.succ_lt_succ_iff]

theorem linesAtMost (h : CutInto text ls) (hn : text.length < n) : linesAtMost n (ofOctets text) = ls := by
  induction h generalizing n with
  | nil =>
      cases n <;> rfl
  | last h hl =>
      obtain ⟨n, rfl⟩ := Nat.exists_eq_add_of_le' (Nat.one_le_of_lt hn)
      simp only [Stream.linesAtMost, readLine_of_not_mem h hl]
      cases n <;> rfl
  | @line u rest _ h _ ih =>
      obtain ⟨n, rfl⟩ := Nat.exists_eq_add_of_le' (Nat.one_le_of_lt hn)
      rw [List.length_append, List.length_cons] at hn
      simp only [Stream.linesAtMost, readLine_append_cons h, ih (by omega : rest.length < n)]
      rfl

theorem lines (h : CutInto text ls) : (ofOctets text).lines = ls := h.linesAtMost (Nat.lt_succ_self _)

end CutInto

/-- Reading line by line gets the lines of a text till a read fails, which leaves nothing but that the end was met.
They are not empty, they have a newline at their end at most, all but the last one do, and together they are the text.
After however many reads, failed ones among them, the rest of the text is still there to be read as a whole. -/
theorem lines_lossless (text : Octets) :
    let s := ofOctets text
    ((s.readLines s.lines.length).1 = s.lines ∧
        (∀ k, (s.readLines (k + 1)).2.isSound = true ↔ k < s.lines.length) ∧
        (s.readLines s.lines.length).2.readLine = ([], { rest := [], atEnd := true, failed := true })) ∧
      s.lines.flatten = text ∧ (∀ l ∈ s.lines, l ≠ [] ∧ newline ∉ l.dropLast) ∧
      (∀ l ∈ s.lines.dropLast, l.getLast? = some newline) ∧
      ∀ n, ∃ rest, (s.readLines n).2.readSource.1 = .ok rest ∧ (s.readLines n).1.flatten ++ rest = text := by
  intro s
  obtain ⟨ls, h⟩ := exists_cutInto text
  have hls : s.lines = ls := h.lines
  rw [hls]
  obtain ⟨hreads, hlast, hsound⟩ := h.readLines
  refine ⟨⟨hreads, hsound, hlast⟩, h.flatten, h.not_mem_dropLast, h.getLast?_eq, fun n => ?_⟩
  obtain ⟨rest, hrest, htext⟩ := (Holds.good text).readLines n
  exact ⟨rest, hrest.readSource, htext⟩

/-- The second line has no newline, so that its read meets the end. It is not lost if all is read behind the first. -/
theorem lines_lossless_unterminated :
    let s := ofOctets (ascii "one\ntwo")
    s.lines = [ascii "one\n", ascii "two"] ∧ (s.readLines 2).2 = { rest := [], atEnd := true } ∧
      (newline ∉ (ascii "two").dropLast) ∧ (ascii "one\n").getLast? = some newline ∧
      ∃ rest, (s.readLines 1).2.readSource.1 = .ok rest ∧ (s.readLines 1).1.flatten ++ rest = ascii "one\ntwo" := by
  intro s
  obtain ⟨-, -, hlines, hends, hsource⟩ := lines_lossless (ascii "one\ntwo")
  exact ⟨rfl, rfl, (hlines (ascii "two") (.tail _ (.head _))).2, hends (ascii "one\n") (.head _), hsource 1⟩

end Peg.Stream
