import Peg.Decimal.Double
import Peg.Expr.Print

/-! Texts that are put together so that they come apart in one way only. -/

namespace Peg

namespace Escape

/-- No quote in the text stands behind a complete text. So each one is a part of an escape. -/
def Closed (quote : UInt8) (raw : Octets) : Prop :=
  ∀ i < raw.length, raw[i]? = some quote → decode? (raw.take i) = none

instance (quote : UInt8) (raw : Octets) : Decidable (Closed quote raw) :=
  inferInstanceAs (Decidable (∀ i < raw.length, raw[i]? = some quote → decode? (raw.take i) = none))

/-- A quoted text ends where its closing quote is. -/
theorem Closed.append_inj {quote : UInt8} {raw raw' r r' : Octets} (h : Closed quote raw) (h' : Closed quote raw')
    (hd : decode? raw ≠ none) (hd' : decode? raw' ≠ none) (he : raw ++ quote :: r = raw' ++ quote :: r') :
    raw = raw' ∧ r = r' := by
  have hbehind : ∀ {s a u u' : Octets}, decode? s ≠ none → Closed quote (s ++ a) → quote :: u = a ++ quote :: u' →
      a = [] := by
    intro s a u u' hs ha he
    cases a with
    | nil => rfl
    | cons c a =>
        cases (List.cons.inj he).1
        refine absurd (ha s.length ?_ ?_) ?_
        · simp
        · simp
        · rwa [List.take_left]
  rcases List.append_eq_append_iff.mp he with ⟨a, rfl, ha⟩ | ⟨a, rfl, ha⟩
  · cases hbehind hd h' ha
    exact ⟨(List.append_nil _).symm, (List.cons.inj ha).2⟩
  · cases hbehind hd' h ha
    exact ⟨List.append_nil _, (List.cons.inj ha).2.symm⟩

theorem decode?_of_decodeRune? {raw : Octets} {c : Rune} (h : decodeRune? raw = some c) : decode? raw ≠ none := by
  intro hn
  rw [decodeRune?, hn] at h
  cases h

end Escape

theorem Literal.eq_of_raw_eq {l l' : Literal} (h : l.raw = l'.raw) : l = l' := by
  obtain ⟨raw, text, hd⟩ := l
  obtain ⟨raw', text', hd'⟩ := l'
  cases h
  rw [hd] at hd'
  cases hd'
  rfl

theorem RuneRange.eq_of_raws_eq {r r' : RuneRange} (hlow : r.rawLow = r'.rawLow) (hhigh : r.rawHigh = r'.rawHigh) :
    r = r' := by
  obtain ⟨rawLow, rawHigh, low, high, hl, hh, hle⟩ := r
  obtain ⟨rawLow', rawHigh', low', high', hl', hh', hle'⟩ := r'
  cases hlow
  cases hhigh
  rw [hl] at hl'
  rw [hh] at hh'
  cases hl'
  cases hh'
  rfl

def IsLetter (c : UInt8) : Prop := 0x41 ≤ c ∧ c ≤ 0x5A ∨ 0x61 ≤ c ∧ c ≤ 0x7A ∨ c = 0x5F

instance (c : UInt8) : Decidable (IsLetter c) := inferInstanceAs (Decidable (_ ∨ _ ∨ _))

def IsWord (c : UInt8) : Prop := IsLetter c ∨ Decimal.IsDigit c

instance (c : UInt8) : Decidable (IsWord c) := inferInstanceAs (Decidable (_ ∨ _))

/-- A letter, and letters and digits behind it. -/
def IsIdentifier : Octets → Prop
  | [] => False
  | c :: rest => IsLetter c ∧ ∀ d ∈ rest, IsWord d

instance : (name : Octets) → Decidable (IsIdentifier name)
  | [] => isFalse id
  | c :: rest =>
      have := List.decidableBAll IsWord rest
      inferInstanceAs (Decidable (IsLetter c ∧ ∀ d ∈ rest, IsWord d))

theorem IsIdentifier.isWord {name : Octets} (h : IsIdentifier name) : ∀ c ∈ name, IsWord c := by
  cases name with
  | nil => exact h.elim
  | cons c rest => exact List.forall_mem_cons.mpr ⟨.inl h.1, h.2⟩

/-- Two texts of octets of one class end where the class ends. -/
theorem append_inj_of_forall {P : UInt8 → Prop} {a b u v : Octets} (ha : ∀ c ∈ a, P c) (hb : ∀ c ∈ b, P c)
    (hu : ∀ c ∈ u.head?, ¬P c) (hv : ∀ c ∈ v.head?, ¬P c) (he : a ++ u = b ++ v) : a = b ∧ u = v := by
  rcases List.append_eq_append_iff.mp he with ⟨w, rfl, rfl⟩ | ⟨w, rfl, rfl⟩
  · cases w with
    | nil => exact ⟨(List.append_nil a).symm, rfl⟩
    | cons c w => exact absurd (hb c (by simp)) (hu c rfl)
  · cases w with
    | nil => exact ⟨List.append_nil b, rfl⟩
    | cons c w => exact absurd (ha c (by simp)) (hv c rfl)

section Decimals

/-- A digit as a character and as an octet. -/
theorem ofNat_toUInt8_of_isDigit {c : Char} (h : c.isDigit) :
    Decimal.IsDigit c.toNat.toUInt8 ∧ Char.ofNat c.toNat.toUInt8.toNat = c := by
  have hd : ∀ n ∈ List.range' 0x30 10, Decimal.IsDigit n.toUInt8 ∧ n.toUInt8.toNat = n := by decide
  obtain ⟨hdigit, hn⟩ := hd c.toNat (List.mem_range'_1.mpr (by
    simp only [Char.isDigit, Bool.and_eq_true, decide_eq_true_eq] at h
    exact ⟨h.1, Nat.lt_succ_of_le h.2⟩))
  exact ⟨hdigit, by rw [hn, Char.ofNat_toNat]⟩

theorem isDigit_of_mem_decimal {n : Nat} {c : UInt8} (h : c ∈ decimal n) : Decimal.IsDigit c := by
  obtain ⟨d, hd, rfl⟩ := List.mem_map.mp h
  exact (ofNat_toUInt8_of_isDigit (Nat.isDigit_of_mem_toDigits (by decide) (by decide) hd)).1

theorem decimal_ne_nil (n : Nat) : decimal n ≠ [] := fun h => Nat.toDigits_ne_nil (List.map_eq_nil_iff.mp h)

theorem decimal_injective {n m : Nat} (h : decimal n = decimal m) : n = m := by
  have hback : ∀ k, (decimal k).map (fun c => Char.ofNat c.toNat) = Nat.toDigits 10 k := by
    intro k
    rw [decimal, List.map_map, List.map_congr_left (g := id), List.map_id]
    intro c hc
    exact (ofNat_toUInt8_of_isDigit (Nat.isDigit_of_mem_toDigits (by decide) (by decide) hc)).2
  rw [← Nat.ofDigitChars_ten_toDigits (n := n), ← hback, h, hback, Nat.ofDigitChars_ten_toDigits]

end Decimals

namespace Count

/-- A bound as it is written, if it is. -/
def digits : Option Nat → Octets
  | none => []
  | some n => decimal n

theorem isDigit_of_mem_digits {bound : Option Nat} {c : UInt8} (h : c ∈ digits bound) : Decimal.IsDigit c := by
  cases bound with
  | none => cases h
  | some n => exact isDigit_of_mem_decimal h

theorem digits_append_inj {low low' : Option Nat} {u u' : Octets} (hu : ∀ c ∈ u.head?, ¬Decimal.IsDigit c)
    (hu' : ∀ c ∈ u'.head?, ¬Decimal.IsDigit c) (he : digits low ++ u = digits low' ++ u') : low = low' ∧ u = u' := by
  obtain ⟨h, rfl⟩ := append_inj_of_forall (fun _ => isDigit_of_mem_digits) (fun _ => isDigit_of_mem_digits) hu hu' he
  refine ⟨?_, rfl⟩
  match low, low' with
  | none, none => rfl
  | none, some n => exact absurd h.symm (decimal_ne_nil n)
  | some n, none => exact absurd h (decimal_ne_nil n)
  | some n, some m => exact congrArg some (decimal_injective h)

/-- What stands behind the lower bound of a count. An upper bound stands behind a comma. -/
def closing : Option (Option Nat) → Octets
  | none => ascii "\x7d"
  | some high => ascii ", " ++ (digits high ++ ascii "\x7d")

theorem not_isDigit_closing (high : Option (Option Nat)) (r : Octets) :
    ∀ c ∈ (closing high ++ r).head?, ¬Decimal.IsDigit c := by
  intro c hc
  cases high <;> cases hc <;> decide

theorem closing_append_inj {high high' : Option (Option Nat)} {r r' : Octets}
    (he : closing high ++ r = closing high' ++ r') : high = high' ∧ r = r' := by
  match high, high' with
  | none, none => exact ⟨rfl, (List.cons.inj he).2⟩
  | none, some _ => exact absurd (List.cons.inj he).1 (by decide)
  | some _, none => exact absurd (List.cons.inj he).1 (by decide)
  | some high, some high' =>
      have hdigits : digits high ++ (closing none ++ r) = digits high' ++ (closing none ++ r') := by
        simpa only [closing, List.append_assoc, List.append_cancel_left_eq] using he
      obtain ⟨rfl, hr⟩ := digits_append_inj (not_isDigit_closing none r) (not_isDigit_closing none r') hdigits
      exact ⟨rfl, (List.cons.inj hr).2⟩

/-- What a count writes between braces: a lower bound, and an upper one if there is a comma. -/
def bounds? : Count → Option (Option Nat × Option (Option Nat))
  | zeroOrMore => none
  | oneOrMore => none
  | exactly n => some (some n, none)
  | atLeast n => some (some n, some none)
  | atMost n => some (none, some (some n))
  | between low high _ => some (some low, some (some high))

variable {c c' : Count} {b : Option Nat × Option (Option Nat)}

theorem suffix_of_bounds? (h : c.bounds? = some b) : c.suffix = 0x7B :: (digits b.1 ++ closing b.2) := by
  cases c with
  | zeroOrMore | oneOrMore => cases h
  | exactly n | atMost n => cases h; rfl
  | atLeast n | between n m _ =>
      cases h
      simp only [suffix, closing, List.append_assoc]
      rfl

theorem eq_of_bounds? (h : c.bounds? = some b) (h' : c'.bounds? = some b) : c = c' := by
  cases c <;> cases h <;> cases c' <;> cases h' <;> rfl

/-- A count ends where its braces close. -/
theorem suffix_append_inj {r r' : Octets} (he : c.suffix ++ r = c'.suffix ++ r') : c = c' ∧ r = r' := by
  have hplain : ∀ {c : Count}, c.bounds? = none → c = .zeroOrMore ∨ c = .oneOrMore := by
    intro c h
    cases c <;> first | exact .inl rfl | exact .inr rfl | cases h
  rcases h : c.bounds? with _ | b <;> rcases h' : c'.bounds? with _ | b'
  · rcases hplain h with rfl | rfl <;> rcases hplain h' with rfl | rfl
    · exact ⟨rfl, (List.cons.inj he).2⟩
    · exact absurd (List.cons.inj he).1 (by decide)
    · exact absurd (List.cons.inj he).1 (by decide)
    · exact ⟨rfl, (List.cons.inj he).2⟩
  · rw [suffix_of_bounds? h'] at he
    rcases hplain h with rfl | rfl <;> exact absurd (List.cons.inj he).1 (by decide)
  · rw [suffix_of_bounds? h] at he
    rcases hplain h' with rfl | rfl <;> exact absurd (List.cons.inj he).1 (by decide)
  · rw [suffix_of_bounds? h, suffix_of_bounds? h', List.cons_append, List.cons_append, List.append_assoc,
      List.append_assoc] at he
    obtain ⟨hlow, he⟩ := digits_append_inj (not_isDigit_closing _ _) (not_isDigit_closing _ _) (List.cons.inj he).2
    obtain ⟨hhigh, rfl⟩ := closing_append_inj he
    rw [show b = b' from Prod.ext hlow hhigh] at h
    exact ⟨eq_of_bounds? h h', rfl⟩

end Count

/-- What may stand behind a primary expression: options and repetitions. -/
inductive Postfix where
  | optional
  | repeated (count : Count)
deriving DecidableEq

namespace Postfix

def text : Postfix → Octets
  | optional => ascii "?"
  | repeated count => count.suffix

theorem text_append_inj {o o' : Postfix} {r r' : Octets} (he : o.text ++ r = o'.text ++ r') : o = o' ∧ r = r' := by
  have hne : ∀ {count : Count} {r r' : Octets}, ascii "?" ++ r ≠ count.suffix ++ r' := by
    intro count r r' he
    cases count <;> exact absurd (List.cons.inj he).1 (by decide)
  match o, o' with
  | optional, optional => exact ⟨rfl, (List.cons.inj he).2⟩
  | optional, repeated _ => exact absurd he hne
  | repeated _, optional => exact absurd he.symm hne
  | repeated count, repeated count' =>
      obtain ⟨rfl, hr⟩ := Count.suffix_append_inj he
      exact ⟨rfl, hr⟩

end Postfix

/-- How tightly a phrase binds. -/
inductive Level where
  | choice
  | sequence
  | tight
  | primary

namespace Level

/-- What may follow a phrase of a level. -/
def stops : Level → List Octets
  | choice => [ascii ")"]
  | sequence => [ascii ")", ascii " | "]
  | tight => [ascii ")", ascii " | ", ascii " ~ "]
  | primary => [ascii ")", ascii " | ", ascii " ~ ", ascii "?", ascii "*", ascii "+", ascii "\x7b"]

def Allows (k : Level) (r : Octets) : Prop := r = [] ∨ ∃ s ∈ k.stops, s <+: r

variable {k k' : Level} {r s : Octets}

theorem allows_append (h : s ∈ k.stops) (r : Octets) : k.Allows (s ++ r) := .inr ⟨s, h, List.prefix_append s r⟩

theorem Allows.mono (h : k.Allows r) (hk : k.stops ⊆ k'.stops) : k'.Allows r := by
  rcases h with rfl | ⟨s, hs, hr⟩
  · exact .inl rfl
  · exact .inr ⟨s, hk hs, hr⟩

theorem not_allows_append (hs : s ≠ []) (h : ∀ t ∈ k.stops, ¬t <+: s ∧ ¬s <+: t) (r : Octets) :
    ¬k.Allows (s ++ r) := by
  rintro (hnil | ⟨t, ht, hr⟩)
  · exact hs (List.append_eq_nil_iff.mp hnil).1
  · rcases List.prefix_or_prefix_of_prefix hr (List.prefix_append s r) with hp | hp
    · exact (h t ht).1 hp
    · exact (h t ht).2 hp

theorem Allows.not_isWord (h : k.Allows r) : ∀ c ∈ r.head?, ¬IsWord c := by
  have hstop : ∀ s ∈ k.stops, s.head?.any fun c => ¬IsWord c := by cases k <;> decide
  rcases h with rfl | ⟨s, hs, u, rfl⟩
  · nofun
  · have hs := hstop s hs
    cases s with
    | nil => cases hs
    | cons d s =>
        intro c hc
        cases hc
        exact of_decide_eq_true hs

end Level

theorem Postfix.not_allows (o : Postfix) (r : Octets) : ¬Level.tight.Allows (o.text ++ r) := by
  have hbrace : ∀ u, ¬Level.tight.Allows (ascii "\x7b" ++ u) := Level.not_allows_append (by decide) (by decide)
  match o with
  | optional | repeated .zeroOrMore | repeated .oneOrMore => exact Level.not_allows_append (by decide) (by decide) r
  | repeated (.exactly _) | repeated (.atLeast _) | repeated (.atMost _) | repeated (.between _ _ _) => exact hbrace _

theorem Postfix.allows (o : Postfix) (r : Octets) : Level.primary.Allows (o.text ++ r) := by
  have hbrace : ∀ u, Level.primary.Allows (ascii "\x7b" ++ u) := Level.allows_append (by decide)
  match o with
  | optional | repeated .zeroOrMore | repeated .oneOrMore => exact Level.allows_append (by decide) r
  | repeated (.exactly _) | repeated (.atLeast _) | repeated (.atMost _) | repeated (.between _ _ _) => exact hbrace _

theorem Postfix.flatMap_append_inj {os os' : List Postfix} {r r' : Octets} (hr : Level.tight.Allows r)
    (hr' : Level.tight.Allows r') (he : os.flatMap text ++ r = os'.flatMap text ++ r') : os = os' ∧ r = r' := by
  induction os generalizing os' with
  | nil =>
      cases os' with
      | nil => exact ⟨rfl, he⟩
      | cons o' os' =>
          rw [List.flatMap_nil, List.nil_append, List.flatMap_cons, List.append_assoc] at he
          exact absurd (he ▸ hr) (o'.not_allows _)
  | cons o os ih =>
      rw [List.flatMap_cons, List.append_assoc] at he
      cases os' with
      | nil =>
          rw [List.flatMap_nil, List.nil_append] at he
          exact absurd (he ▸ hr') (o.not_allows _)
      | cons o' os' =>
          rw [List.flatMap_cons, List.append_assoc] at he
          obtain ⟨rfl, htexts⟩ := text_append_inj he
          obtain ⟨rfl, hrest⟩ := ih htexts
          exact ⟨rfl, hrest⟩

/-- What some postfixes are printed as, the outermost first. It is printed last. -/
def Postfix.texts : List Postfix → Octets
  | [] => []
  | o :: os => texts os ++ o.text

theorem Postfix.texts_eq (os : List Postfix) : texts os = os.reverse.flatMap text := by
  induction os with
  | nil => rfl
  | cons o os ih => rw [texts, ih, List.reverse_cons, List.flatMap_append, List.flatMap_singleton]

theorem Postfix.texts_append_inj {os os' : List Postfix} {r r' : Octets} (hr : Level.tight.Allows r)
    (hr' : Level.tight.Allows r') (he : texts os ++ r = texts os' ++ r') : os = os' ∧ r = r' := by
  rw [texts_eq, texts_eq] at he
  obtain ⟨hos, hrest⟩ := flatMap_append_inj hr hr' he
  exact ⟨List.reverse_inj.mp hos, hrest⟩

theorem Postfix.allows_texts (os : List Postfix) {r : Octets} (hr : Level.tight.Allows r) :
    Level.primary.Allows (texts os ++ r) := by
  rw [texts_eq]
  cases os.reverse with
  | nil => exact hr.mono (by decide)
  | cons o ps =>
      rw [List.flatMap_cons, List.append_assoc]
      exact o.allows _

/-- What printed expressions are made of, by how tightly it binds. -/
inductive Phrase : Level → Type
  | name (name : Octets) : Phrase .primary
  | literal (l : Literal) : Phrase .primary
  | folded (l : Literal) : Phrase .primary
  | range (r : RuneRange) : Phrase .primary
  | push (p : Phrase .choice) : Phrase .primary
  | parens (p : Phrase .choice) : Phrase .primary
  | tight (signs : List Polarity) (p : Phrase .primary) (os : List Postfix) : Phrase .tight
  | one (p : Phrase .tight) : Phrase .sequence
  | chain (p : Phrase .tight) (q : Phrase .sequence) : Phrase .sequence
  | only (p : Phrase .sequence) : Phrase .choice
  | either (p : Phrase .sequence) (q : Phrase .choice) : Phrase .choice

namespace Phrase

def text {k : Level} : Phrase k → Octets
  | name n => n
  | literal l => l.quoted
  | folded l => ascii "^" ++ l.quoted
  | range r => ascii "'" ++ r.rawLow ++ ascii "'..'" ++ r.rawHigh ++ ascii "'"
  | push p => ascii "push(" ++ p.text ++ ascii ")"
  | parens p => ascii "(" ++ p.text ++ ascii ")"
  | tight signs p os => signs.flatMap Polarity.sign ++ (p.text ++ Postfix.texts os)
  | one p => p.text
  | chain p q => p.text ++ ascii " ~ " ++ q.text
  | only p => p.text
  | either p q => p.text ++ ascii " | " ++ q.text

/-- Names are identifiers, and quoted texts end at their closing quotes. -/
def Spelled {k : Level} : Phrase k → Prop
  | name n => IsIdentifier n
  | literal l | folded l => Escape.Closed 0x22 l.raw
  | range r => Escape.Closed 0x27 r.rawLow ∧ Escape.Closed 0x27 r.rawHigh
  | push p | parens p | tight _ p _ | one p | only p => p.Spelled
  | chain p q | either p q => p.Spelled ∧ q.Spelled

theorem quoted_append (l : Literal) (r : Octets) : l.quoted ++ r = 0x22 :: (l.raw ++ 0x22 :: r) := by
  rw [Literal.quoted, List.append_assoc]
  rfl

theorem quoted_append_inj {l l' : Literal} {r r' : Octets} (h : Escape.Closed 0x22 l.raw)
    (h' : Escape.Closed 0x22 l'.raw) (he : l.quoted ++ r = l'.quoted ++ r') : l = l' ∧ r = r' := by
  rw [quoted_append, quoted_append] at he
  obtain ⟨hraw, hr⟩ := h.append_inj h' (by rw [l.decodes]; nofun) (by rw [l'.decodes]; nofun)
    (List.cons.inj he).2
  exact ⟨Literal.eq_of_raw_eq hraw, hr⟩

theorem range_append (r : RuneRange) (u : Octets) :
    (range r).text ++ u = 0x27 :: (r.rawLow ++ 0x27 :: (ascii "..'" ++ (r.rawHigh ++ 0x27 :: u))) := by
  simp only [text, List.append_assoc]
  rfl

theorem range_append_inj {r r' : RuneRange} {u u' : Octets} (h : (range r).Spelled) (h' : (range r').Spelled)
    (he : (range r).text ++ u = (range r').text ++ u') : r = r' ∧ u = u' := by
  rw [range_append, range_append] at he
  obtain ⟨hlow, he⟩ := h.1.append_inj h'.1 (Escape.decode?_of_decodeRune? r.low_decodes)
    (Escape.decode?_of_decodeRune? r'.low_decodes) (List.cons.inj he).2
  obtain ⟨hhigh, rfl⟩ := h.2.append_inj h'.2 (Escape.decode?_of_decodeRune? r.high_decodes)
    (Escape.decode?_of_decodeRune? r'.high_decodes) (List.append_cancel_left he)
  exact ⟨RuneRange.eq_of_raws_eq hlow hhigh, rfl⟩

theorem push_append (p : Phrase .choice) (r : Octets) :
    (push p).text ++ r = ascii "push(" ++ (p.text ++ (ascii ")" ++ r)) := by
  simp only [text, List.append_assoc]

/-- No name goes on in a parenthesis, so none is taken for a capture. -/
theorem name_append_ne_push {n r u : Octets} (h : IsIdentifier n) (hr : Level.primary.Allows r) :
    n ++ r ≠ ascii "push(" ++ u := by
  intro he
  have hpush : IsIdentifier (ascii "push") := by decide
  have hparen : ∀ c ∈ (ascii "(" ++ u).head?, ¬IsWord c := by
    intro c hc
    cases hc
    decide
  obtain ⟨-, rfl⟩ := append_inj_of_forall h.isWord hpush.isWord hr.not_isWord hparen he
  exact Level.not_allows_append (by decide) (by decide) u hr

/-- The octet that a primary phrase opens with, the same one for all letters. -/
def mark : Phrase .primary → UInt8
  | name _ => 0x61
  | literal _ => 0x22
  | folded _ => 0x5E
  | range _ => 0x27
  | push _ => 0x61
  | parens _ => 0x28

theorem exists_text_eq_cons {p : Phrase .primary} (h : p.Spelled) :
    ∃ c u, p.text = c :: u ∧ (if IsLetter c then 0x61 else c) = p.mark := by
  cases p with
  | name n =>
      cases n with
      | nil => exact h.elim
      | cons c u => exact ⟨c, u, rfl, if_pos h.1⟩
  | literal | folded | range | push | parens => exact ⟨_, _, rfl, rfl⟩

theorem mark_eq {p p' : Phrase .primary} {r r' : Octets} (h : p.Spelled) (h' : p'.Spelled)
    (he : p.text ++ r = p'.text ++ r') : p.mark = p'.mark := by
  obtain ⟨c, u, hu, hc⟩ := exists_text_eq_cons h
  obtain ⟨c', u', hu', hc'⟩ := exists_text_eq_cons h'
  rw [hu, hu'] at he
  rw [← hc, ← hc', (List.cons.inj he).1]

theorem sign_append_ne {polarity : Polarity} {p : Phrase .primary} {u v : Octets} (h : p.Spelled) :
    polarity.sign ++ v ≠ p.text ++ u := by
  intro he
  obtain ⟨c, w, hw, hc⟩ := exists_text_eq_cons h
  have hmark : p.mark ≠ 0x26 ∧ p.mark ≠ 0x21 := by cases p <;> simp [mark]
  rw [hw] at he
  cases polarity <;> cases (List.cons.inj he).1
  · exact hmark.1 hc.symm
  · exact hmark.2 hc.symm

theorem sign_append_inj {polarity polarity' : Polarity} {u u' : Octets}
    (he : polarity.sign ++ u = polarity'.sign ++ u') : polarity = polarity' ∧ u = u' := by
  cases polarity <;> cases polarity' <;>
    first | exact ⟨rfl, (List.cons.inj he).2⟩ | exact absurd (List.cons.inj he).1 (by decide)

theorem signs_append_inj {signs signs' : List Polarity} {p p' : Phrase .primary} {u u' : Octets} (h : p.Spelled)
    (h' : p'.Spelled)
    (he : signs.flatMap Polarity.sign ++ (p.text ++ u) = signs'.flatMap Polarity.sign ++ (p'.text ++ u')) :
    signs = signs' ∧ p.text ++ u = p'.text ++ u' := by
  induction signs generalizing signs' with
  | nil =>
      cases signs' with
      | nil => exact ⟨rfl, he⟩
      | cons s' signs' =>
          rw [List.flatMap_nil, List.nil_append, List.flatMap_cons, List.append_assoc] at he
          exact absurd he.symm (sign_append_ne h)
  | cons s signs ih =>
      rw [List.flatMap_cons, List.append_assoc] at he
      cases signs' with
      | nil => exact absurd he (sign_append_ne h')
      | cons s' signs' =>
          rw [List.flatMap_cons, List.append_assoc] at he
          obtain ⟨rfl, hsigns⟩ := sign_append_inj he
          obtain ⟨rfl, hrest⟩ := ih hsigns
          exact ⟨rfl, hrest⟩

/-- Where a phrase ends, nothing may follow that would make another phrase of it. So a text is printed for one
phrase at most. -/
theorem text_append_inj {k : Level} {p p' : Phrase k} {r r' : Octets} (h : p.Spelled) (h' : p'.Spelled)
    (hr : k.Allows r) (hr' : k.Allows r') (he : p.text ++ r = p'.text ++ r') : p = p' ∧ r = r' := by
  -- By induction on one of the phrases. The first octets tell of which form the other one is where both are primary,
  -- and what follows their first parts does where both are sequences or choices.
  induction p generalizing r r' with
  | name n =>
      have hmark := mark_eq h h' he
      cases p' with
      | name n' =>
          obtain ⟨rfl, hrest⟩ := append_inj_of_forall (IsIdentifier.isWord h) (IsIdentifier.isWord h') hr.not_isWord
            hr'.not_isWord he
          exact ⟨rfl, hrest⟩
      | push p' => exact absurd (he.trans (push_append p' r')) (name_append_ne_push h hr)
      | literal | folded | range | parens => simp [mark] at hmark
  | literal l =>
      have hmark := mark_eq h h' he
      cases p' with
      | literal l' =>
          obtain ⟨rfl, hrest⟩ := quoted_append_inj h h' he
          exact ⟨rfl, hrest⟩
      | name | folded | range | push | parens => simp [mark] at hmark
  | folded l =>
      have hmark := mark_eq h h' he
      cases p' with
      | folded l' =>
          obtain ⟨rfl, hrest⟩ := quoted_append_inj h h' (List.cons.inj he).2
          exact ⟨rfl, hrest⟩
      | name | literal | range | push | parens => simp [mark] at hmark
  | range a =>
      have hmark := mark_eq h h' he
      cases p' with
      | range a' =>
          obtain ⟨rfl, hrest⟩ := range_append_inj h h' he
          exact ⟨rfl, hrest⟩
      | name | literal | folded | push | parens => simp [mark] at hmark
  | push p ih =>
      have hmark := mark_eq h h' he
      have hparen : ascii ")" ∈ Level.choice.stops := by decide
      cases p' with
      | name n' => exact absurd (he.symm.trans (push_append p r)) (name_append_ne_push h' hr')
      | push p' =>
          simp only [text, List.append_assoc, List.append_cancel_left_eq] at he
          obtain ⟨rfl, hrest⟩ := ih h h' (Level.allows_append hparen r) (Level.allows_append hparen r') he
          exact ⟨rfl, List.append_cancel_left hrest⟩
      | literal | folded | range | parens => simp [mark] at hmark
  | parens p ih =>
      have hmark := mark_eq h h' he
      have hparen : ascii ")" ∈ Level.choice.stops := by decide
      cases p' with
      | parens p' =>
          simp only [text, List.append_assoc, List.append_cancel_left_eq] at he
          obtain ⟨rfl, hrest⟩ := ih h h' (Level.allows_append hparen r) (Level.allows_append hparen r') he
          exact ⟨rfl, List.append_cancel_left hrest⟩
      | name | literal | folded | range | push => simp [mark] at hmark
  | tight signs p os ih =>
      cases p' with
      | tight signs' p' os' =>
          simp only [text, List.append_assoc] at he
          obtain ⟨rfl, hsigns⟩ := signs_append_inj h h' he
          obtain ⟨rfl, htexts⟩ := ih h h' (Postfix.allows_texts os hr) (Postfix.allows_texts os' hr') hsigns
          obtain ⟨rfl, hrest⟩ := Postfix.texts_append_inj hr hr' htexts
          exact ⟨rfl, hrest⟩
  | one p ih =>
      have hr₁ : Level.tight.Allows r := hr.mono (by decide)
      cases p' with
      | one p' =>
          obtain ⟨rfl, hrest⟩ := ih h h' hr₁ (hr'.mono (by decide)) he
          exact ⟨rfl, hrest⟩
      | chain p' q' =>
          simp only [text, List.append_assoc] at he
          obtain ⟨-, rfl⟩ := ih h h'.1 hr₁ (Level.allows_append (by decide) _) he
          exact absurd hr (Level.not_allows_append (by decide) (by decide) _)
  | chain p q ihp ihq =>
      simp only [text, List.append_assoc] at he
      have hr₁ : Level.tight.Allows (ascii " ~ " ++ (q.text ++ r)) := Level.allows_append (by decide) _
      cases p' with
      | one p' =>
          obtain ⟨-, rfl⟩ := ihp h.1 h' hr₁ (hr'.mono (by decide)) he
          exact absurd hr' (Level.not_allows_append (by decide) (by decide) _)
      | chain p' q' =>
          simp only [text, List.append_assoc] at he
          obtain ⟨rfl, htail⟩ := ihp h.1 h'.1 hr₁ (Level.allows_append (by decide) _) he
          obtain ⟨rfl, hrest⟩ := ihq h.2 h'.2 hr hr' (List.append_cancel_left htail)
          exact ⟨rfl, hrest⟩
  | only p ih =>
      have hr₁ : Level.sequence.Allows r := hr.mono (by decide)
      cases p' with
      | only p' =>
          obtain ⟨rfl, hrest⟩ := ih h h' hr₁ (hr'.mono (by decide)) he
          exact ⟨rfl, hrest⟩
      | either p' q' =>
          simp only [text, List.append_assoc] at he
          obtain ⟨-, rfl⟩ := ih h h'.1 hr₁ (Level.allows_append (by decide) _) he
          exact absurd hr (Level.not_allows_append (by decide) (by decide) _)
  | either p q ihp ihq =>
      simp only [text, List.append_assoc] at he
      have hr₁ : Level.sequence.Allows (ascii " | " ++ (q.text ++ r)) := Level.allows_append (by decide) _
      cases p' with
      | only p' =>
          obtain ⟨-, rfl⟩ := ihp h.1 h' hr₁ (hr'.mono (by decide)) he
          exact absurd hr' (Level.not_allows_append (by decide) (by decide) _)
      | either p' q' =>
          simp only [text, List.append_assoc] at he
          obtain ⟨rfl, htail⟩ := ihp h.1 h'.1 hr₁ (Level.allows_append (by decide) _) he
          obtain ⟨rfl, hrest⟩ := ihq h.2 h'.2 hr hr' (List.append_cancel_left htail)
          exact ⟨rfl, hrest⟩

theorem text_injective {k : Level} {p p' : Phrase k} (h : p.Spelled) (h' : p'.Spelled) (he : p.text = p'.text) :
    p = p' := by
  have hnil : p.text ++ [] = p'.text ++ [] := by rw [he]
  exact (text_append_inj h h' (.inl rfl) (.inl rfl) hnil).1

end Phrase

end Peg
