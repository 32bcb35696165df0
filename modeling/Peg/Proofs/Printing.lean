import Peg.Proofs.Associativity
import Peg.Proofs.Phrases

/-! What an expression is printed as tells what it matches, but for a few parts that print alike. -/

namespace Peg

namespace Phrase

def ofTight (p : Phrase .tight) : Phrase .choice := only (one p)

def ofPrimary (p : Phrase .primary) : Phrase .choice := ofTight (tight [] p [])

/-- Which of its forms a phrase is put together in: 2 is that of a tight one, 0 that of a choice. -/
def tightness : Phrase .choice → Nat
  | only (one _) => 2
  | only (chain _ _) => 1
  | either _ _ => 0

def toTight : Phrase .choice → Phrase .tight
  | only (one p) => p
  | only (chain p q) => tight [] (parens (only (chain p q))) []
  | either p q => tight [] (parens (either p q)) []

def toSequence : Phrase .choice → Phrase .sequence
  | only p => p
  | either p q => one (tight [] (parens (either p q)) [])

def signed (polarity : Polarity) : Phrase .tight → Phrase .tight
  | tight signs p os => tight (polarity :: signs) p os

def suffixed (o : Postfix) : Phrase .tight → Phrase .tight
  | tight signs p os => tight signs p (o :: os)

def chained : Phrase .sequence → Phrase .sequence → Phrase .sequence
  | one p, q => chain p q
  | chain p p', q => chain p (chained p' q)

def joined : Phrase .choice → Phrase .choice → Phrase .choice
  | only p, q => either p q
  | either p p', q => either p (joined p' q)

def alternatives (l : Literal) : List Literal → Phrase .choice
  | [] => ofPrimary (literal l)
  | m :: ls => either (one (tight [] (literal l) [])) (alternatives m ls)

/-- What is repeated in the loop that a scan is printed as. -/
def scanned (l : Literal) (ls : List Literal) : Phrase .primary :=
  parens (only (chain (tight [.negative] (parens (alternatives l ls)) [])
    (one (tight [] (name Builtin.any.name) []))))

theorem text_ofPrimary (p : Phrase .primary) : (ofPrimary p).text = p.text := List.append_nil _

theorem text_toTight (p : Phrase .choice) :
    p.toTight.text = if p.tightness < 2 then ascii "(" ++ p.text ++ ascii ")" else p.text := by
  match p with
  | only (one _) => rfl
  | only (chain _ _) | either _ _ => exact List.append_nil _

theorem text_toSequence (p : Phrase .choice) :
    p.toSequence.text = if p.tightness < 1 then ascii "(" ++ p.text ++ ascii ")" else p.text := by
  match p with
  | only (one _) | only (chain _ _) => rfl
  | either _ _ => exact List.append_nil _

theorem text_signed (polarity : Polarity) (p : Phrase .tight) :
    (p.signed polarity).text = polarity.sign ++ p.text := by
  cases p with
  | tight signs p os => rw [signed, text, text, List.flatMap_cons, List.append_assoc]

theorem text_suffixed (o : Postfix) (p : Phrase .tight) : (p.suffixed o).text = p.text ++ o.text := by
  cases p with
  | tight signs p os => rw [suffixed, text, text, Postfix.texts, List.append_assoc, List.append_assoc]

theorem text_chained (p q : Phrase .sequence) : (chained p q).text = p.text ++ ascii " ~ " ++ q.text := by
  match p with
  | one p => simp only [chained, text]
  | chain p p' => simp only [chained, text, text_chained p' q, List.append_assoc]

theorem text_joined (p q : Phrase .choice) : (joined p q).text = p.text ++ ascii " | " ++ q.text := by
  match p with
  | only p => simp only [joined, text]
  | either p p' => simp only [joined, text, text_joined p' q, List.append_assoc]

theorem text_alternatives (l : Literal) (ls : List Literal) :
    (alternatives l ls).text = (ascii " | ").intercalate ((l :: ls).map Literal.quoted) := by
  induction ls generalizing l with
  | nil => exact (text_ofPrimary _).trans (List.append_nil _).symm
  | cons m ls ih =>
      rw [alternatives, text, ih, List.map_cons, List.map_cons, List.map_cons, List.intercalate_cons_cons]
      exact congrArg (· ++ _ ++ _) (List.append_nil _)

theorem text_scanned (l : Literal) (ls : List Literal) :
    (scanned l ls).text ++ ascii "*" = (Expr.scan l ls).text := by
  simp only [scanned, text, text_alternatives, Postfix.texts, Expr.text, List.flatMap_cons, List.flatMap_nil,
    List.append_nil, List.nil_append, List.append_assoc]
  rfl

theorem tightness_chained (p q : Phrase .sequence) : (only (chained p q)).tightness = 1 := by
  cases p <;> simp only [chained, tightness]

theorem tightness_joined (p q : Phrase .choice) : (joined p q).tightness = 0 := by
  cases p <;> simp only [joined, tightness]

theorem spelled_toTight {p : Phrase .choice} (h : p.Spelled) : p.toTight.Spelled := by
  match p with
  | only (one _) | only (chain _ _) | either _ _ => exact h

theorem spelled_toSequence {p : Phrase .choice} (h : p.Spelled) : p.toSequence.Spelled := by
  match p with
  | only _ | either _ _ => exact h

theorem spelled_signed (polarity : Polarity) {p : Phrase .tight} (h : p.Spelled) : (p.signed polarity).Spelled := by
  cases p with
  | tight signs p os => exact h

theorem spelled_suffixed (o : Postfix) {p : Phrase .tight} (h : p.Spelled) : (p.suffixed o).Spelled := by
  cases p with
  | tight signs p os => exact h

theorem spelled_chained {p q : Phrase .sequence} (h : p.Spelled) (h' : q.Spelled) : (chained p q).Spelled := by
  match p with
  | one p =>
      rw [chained]
      exact ⟨h, h'⟩
  | chain p p' =>
      rw [chained]
      exact ⟨h.1, spelled_chained h.2 h'⟩

theorem spelled_joined {p q : Phrase .choice} (h : p.Spelled) (h' : q.Spelled) : (joined p q).Spelled := by
  match p with
  | only p =>
      rw [joined]
      exact ⟨h, h'⟩
  | either p p' =>
      rw [joined]
      exact ⟨h.1, spelled_joined h.2 h'⟩

theorem spelled_alternatives {l : Literal} {ls : List Literal} (h : ∀ m ∈ l :: ls, Escape.Closed 0x22 m.raw) :
    (alternatives l ls).Spelled := by
  induction ls generalizing l with
  | nil => exact h l List.mem_cons_self
  | cons m ls ih => exact ⟨h l List.mem_cons_self, ih fun n hn => h n (List.mem_cons_of_mem l hn)⟩

theorem alternatives_inj {l l' : Literal} {ls ls' : List Literal} (h : alternatives l ls = alternatives l' ls') :
    l = l' ∧ ls = ls' := by
  induction ls generalizing l l' ls' with
  | nil =>
      cases ls' with
      | nil => cases h; exact ⟨rfl, rfl⟩
      | cons m' ls' => cases h
  | cons m ls ih =>
      cases ls' with
      | nil => cases h
      | cons m' ls' =>
          obtain ⟨hl, hls⟩ := Phrase.either.inj h
          obtain ⟨rfl, rfl⟩ := ih hls
          cases hl
          exact ⟨rfl, rfl⟩

theorem scanned_inj {l l' : Literal} {ls ls' : List Literal} (h : scanned l ls = scanned l' ls') :
    l = l' ∧ ls = ls' := by
  simp only [scanned, parens.injEq, only.injEq, chain.injEq, tight.injEq, true_and, and_true] at h
  exact alternatives_inj h

end Phrase

namespace Expr

open Phrase (ofTight ofPrimary chained joined scanned)

/-- The phrase that an expression is printed as. -/
def phrase : Expr → Phrase .choice
  | literal l => ofPrimary (.literal l)
  | folded l => ofPrimary (.folded l)
  | range r => ofPrimary (.range r)
  | ref name => ofPrimary (.name name)
  | look polarity e => ofTight (e.phrase.toTight.signed polarity)
  | seq a b => .only (chained a.phrase.toSequence b.phrase.toSequence)
  | choice a b => joined a.phrase b.phrase
  | optional e => ofTight (e.phrase.toTight.suffixed .optional)
  | repeated count e => ofTight (e.phrase.toTight.suffixed (.repeated count))
  | capture e => ofPrimary (.push e.phrase)
  | scan l ls => ofTight (.tight [] (scanned l ls) [.repeated .zeroOrMore])

theorem tightness_phrase (e : Expr) : e.phrase.tightness = e.tightness := by
  cases e with
  | seq a b => exact Phrase.tightness_chained _ _
  | choice a b => exact Phrase.tightness_joined _ _
  | literal | folded | range | ref | look | optional | repeated | capture | scan => rfl

theorem text_phrase (e : Expr) : e.phrase.text = e.text := by
  have htight : ∀ {e : Expr}, e.phrase.text = e.text → e.phrase.toTight.text = bracketed 2 e e.text := by
    intro e h
    rw [Phrase.text_toTight, tightness_phrase, h]
    rfl
  have hsequence : ∀ {e : Expr}, e.phrase.text = e.text → e.phrase.toSequence.text = bracketed 1 e e.text := by
    intro e h
    rw [Phrase.text_toSequence, tightness_phrase, h]
    rfl
  induction e with
  | literal | folded | range | ref => exact Phrase.text_ofPrimary _
  | look polarity e ih => exact (Phrase.text_signed _ _).trans (congrArg (polarity.sign ++ ·) (htight ih))
  | seq a b iha ihb => exact (Phrase.text_chained _ _).trans (by rw [hsequence iha, hsequence ihb]; rfl)
  | choice a b iha ihb => exact (Phrase.text_joined _ _).trans (by rw [iha, ihb]; rfl)
  | optional e ih => exact (Phrase.text_suffixed _ _).trans (congrArg (· ++ ascii "?") (htight ih))
  | repeated count e ih => exact (Phrase.text_suffixed _ _).trans (congrArg (· ++ count.suffix) (htight ih))
  | capture e ih => exact (Phrase.text_ofPrimary _).trans (congrArg (ascii "push(" ++ · ++ ascii ")") ih)
  | scan l ls => exact Phrase.text_scanned l ls

/-- Names are identifiers, and no raw text has a quote in it but in an escape. -/
def Spelled : Expr → Prop
  | literal l | folded l => Escape.Closed 0x22 l.raw
  | range r => Escape.Closed 0x27 r.rawLow ∧ Escape.Closed 0x27 r.rawHigh
  | ref name => IsIdentifier name
  | look _ e | optional e | repeated _ e | capture e => e.Spelled
  | seq a b | choice a b => a.Spelled ∧ b.Spelled
  | scan l ls => ∀ m ∈ l :: ls, Escape.Closed 0x22 m.raw

instance decidableSpelled : (e : Expr) → Decidable e.Spelled
  | literal l | folded l => inferInstanceAs (Decidable (Escape.Closed 0x22 l.raw))
  | range r => inferInstanceAs (Decidable (Escape.Closed 0x27 r.rawLow ∧ Escape.Closed 0x27 r.rawHigh))
  | ref name => inferInstanceAs (Decidable (IsIdentifier name))
  | look _ e | optional e | repeated _ e | capture e => decidableSpelled e
  | seq a b | choice a b =>
      have := decidableSpelled a
      have := decidableSpelled b
      inferInstanceAs (Decidable (a.Spelled ∧ b.Spelled))
  | scan l ls => inferInstanceAs (Decidable (∀ m ∈ l :: ls, Escape.Closed 0x22 m.raw))

theorem spelled_phrase {e : Expr} (h : e.Spelled) : e.phrase.Spelled := by
  induction e with
  | literal | folded | range | ref => exact h
  | look polarity e ih => exact Phrase.spelled_signed _ (Phrase.spelled_toTight (ih h))
  | seq a b iha ihb =>
      exact Phrase.spelled_chained (Phrase.spelled_toSequence (iha h.1)) (Phrase.spelled_toSequence (ihb h.2))
  | choice a b iha ihb => exact Phrase.spelled_joined (iha h.1) (ihb h.2)
  | optional e ih | repeated count e ih => exact Phrase.spelled_suffixed _ (Phrase.spelled_toTight (ih h))
  | capture e ih => exact ih h
  | scan l ls => exact ⟨Phrase.spelled_alternatives h, (by decide : IsIdentifier Builtin.any.name)⟩

def isLook : Expr → Bool
  | look _ _ => true
  | _ => false

def isScan : Expr → Bool
  | scan _ _ => true
  | _ => false

/-- An expression and all that is inside it. -/
def parts (e : Expr) : List Expr :=
  e :: match e with
    | literal _ | folded _ | range _ | ref _ | scan _ _ => []
    | look _ e | optional e | repeated _ e | capture e => e.parts
    | seq a b | choice a b => a.parts ++ b.parts

/-- Of those that are printed alike all are looks or none is, and all are scans or none is. -/
def Unmixed (es : List Expr) : Prop :=
  ∀ f ∈ es, ∀ g ∈ es, f.text = g.text → f.isLook = g.isLook ∧ f.isScan = g.isScan

instance (es : List Expr) : Decidable (Unmixed es) :=
  inferInstanceAs (Decidable (∀ f ∈ es, ∀ g ∈ es, f.text = g.text → f.isLook = g.isLook ∧ f.isScan = g.isScan))

end Expr

namespace Postfix

variable {parts : List Expr}

/-- What a postfix makes of an expression that is printed as `text`: a scan, if some scan is printed as the whole. -/
def read (parts : List Expr) (e : Expr) (text : Octets) : Postfix → Expr
  | optional => .optional e
  | repeated count => (parts.find? fun s => s.isScan ∧ s.text = text ++ count.suffix).getD (.repeated count e)

theorem read_repeated_of_ne {count : Count} {e : Expr} {text : Octets}
    (h : ∀ s ∈ parts, s.isScan → s.text ≠ text ++ count.suffix) :
    (repeated count).read parts e text = .repeated count e := by
  have hnone : (parts.find? fun s => s.isScan ∧ s.text = text ++ count.suffix) = none :=
    List.find?_eq_none.mpr fun s hs ht => h s hs (of_decide_eq_true ht).1 (of_decide_eq_true ht).2
  rw [read, hnone]
  rfl

theorem read_repeated_of_mem {count : Count} {e s : Expr} {text : Octets} (hs : s ∈ parts) (hscan : s.isScan)
    (ht : text ++ count.suffix = s.text) (h : ∀ s' ∈ parts, s'.isScan → s'.text = s.text → s' = s) :
    (repeated count).read parts e text = s := by
  rw [read, ht]
  rcases hf : parts.find? fun s' => s'.isScan ∧ s'.text = s.text with _ | s'
  · exact absurd (decide_eq_true ⟨hscan, rfl⟩) (List.find?_eq_none.mp hf s hs)
  · have hs' := of_decide_eq_true (List.find?_some (p := fun s' : Expr => s'.isScan ∧ s'.text = s.text) hf)
    rw [hf]
    exact h s' (List.mem_of_find?_eq_some hf) hs'.1 hs'.2

end Postfix

namespace Phrase

variable (parts : List Expr)

/-- What signs and postfixes make of an expression, both with the outermost first. Where each of them has one that may
be the outermost of all, the sign is if some look is printed as the whole, and the postfix is otherwise. -/
def around (p : Phrase .primary) (e : Expr) : List Polarity → List Postfix → Expr
  | [], [] => e
  | [], o :: os => o.read parts (around p e [] os) (tight [] p os).text
  | polarity :: signs, [] => .look polarity (around p e signs [])
  | polarity :: signs, o :: os =>
      if ∃ f ∈ parts, f.isLook ∧ f.text = (tight (polarity :: signs) p (o :: os)).text then
        .look polarity (around p e signs (o :: os))
      else o.read parts (around p e (polarity :: signs) os) (tight (polarity :: signs) p os).text
termination_by signs os => signs.length + os.length

/-- The expression that a phrase is read as. Sequences and choices are nested to the right. -/
def expr {k : Level} : Phrase k → Expr
  | name n => .ref n
  | literal l => .literal l
  | folded l => .folded l
  | range r => .range r
  | push p => .capture p.expr
  | parens p => p.expr
  | tight signs p os => around parts p p.expr signs os
  | one p => p.expr
  | chain p q => .seq p.expr q.expr
  | only p => p.expr
  | either p q => .choice p.expr q.expr

theorem expr_ofPrimary (p : Phrase .primary) : (ofPrimary p).expr parts = p.expr parts := by
  rw [ofPrimary, ofTight, expr, expr, expr, around]

theorem expr_toTight (p : Phrase .choice) : p.toTight.expr parts = p.expr parts := by
  match p with
  | only (one _) => rfl
  | only (chain _ _) | either _ _ => rw [toTight, expr, around, expr]

theorem expr_toSequence (p : Phrase .choice) : p.toSequence.expr parts = p.expr parts := by
  match p with
  | only _ => rfl
  | either _ _ => rw [toSequence, expr, expr, around, expr]

variable {parts}

theorem expr_signed {polarity : Polarity} {p : Phrase .tight}
    (h : ∃ f ∈ parts, f.isLook ∧ f.text = (p.signed polarity).text) :
    (p.signed polarity).expr parts = .look polarity (p.expr parts) := by
  cases p with
  | tight signs p os =>
      cases os with
      | nil => rw [signed, expr, expr, around]
      | cons o os =>
          rw [signed, expr, expr, around]
          exact if_pos h

theorem expr_suffixed {o : Postfix} {p : Phrase .tight}
    (h : ∀ f ∈ parts, f.isLook → f.text ≠ (p.suffixed o).text) :
    (p.suffixed o).expr parts = o.read parts (p.expr parts) p.text := by
  cases p with
  | tight signs p os =>
      cases signs with
      | nil => rw [suffixed, expr, expr, around]
      | cons polarity signs =>
          rw [suffixed, expr, expr, around]
          exact if_neg fun ⟨f, hf, hl, ht⟩ => h f hf hl ht

variable (parts)

theorem reassociates_chained (p q : Phrase .sequence) :
    (Expr.seq (p.expr parts) (q.expr parts)).Reassociates ((chained p q).expr parts) := by
  match p with
  | one p =>
      rw [chained]
      exact .refl _
  | chain p p' =>
      rw [chained]
      exact .trans (.seq_assoc _ _ _) (.seq (.refl _) (reassociates_chained p' q))

theorem reassociates_joined (p q : Phrase .choice) :
    (Expr.choice (p.expr parts) (q.expr parts)).Reassociates ((joined p q).expr parts) := by
  match p with
  | only p =>
      rw [joined]
      exact .refl _
  | either p p' =>
      rw [joined]
      exact .trans (.choice_assoc _ _ _) (.choice (.refl _) (reassociates_joined p' q))

end Phrase

namespace Expr

open Phrase (scanned)

theorem mem_parts_self (e : Expr) : e ∈ e.parts := by
  unfold parts
  exact .head _

theorem spelled_of_mem_parts {e f : Expr} (h : e.Spelled) (hf : f ∈ e.parts) : f.Spelled := by
  induction e with
  | literal | folded | range | ref | scan =>
      cases List.mem_singleton.mp hf
      exact h
  | look _ e ih | optional e ih | repeated _ e ih | capture e ih =>
      rcases List.mem_cons.mp hf with rfl | hf
      · exact h
      · exact ih h hf
  | seq a b iha ihb | choice a b iha ihb =>
      rcases List.mem_cons.mp hf with rfl | hf
      · exact h
      · rcases List.mem_append.mp hf with hf | hf
        · exact iha h.1 hf
        · exact ihb h.2 hf

theorem eq_of_isScan {f g : Expr} (hf : f.Spelled) (hg : g.Spelled) (hf' : f.isScan) (hg' : g.isScan)
    (ht : f.text = g.text) : f = g := by
  match f, g with
  | scan l ls, scan l' ls' =>
      rw [← text_phrase, ← text_phrase] at ht
      have hphrase := Phrase.text_injective (spelled_phrase hf) (spelled_phrase hg) ht
      obtain ⟨-, hscanned, -⟩ := Phrase.tight.inj (Phrase.one.inj (Phrase.only.inj hphrase))
      obtain ⟨rfl, rfl⟩ := Phrase.scanned_inj hscanned
      rfl

theorem reassociates_phrase {parts : List Expr} (hparts : Unmixed parts) (hspelled : ∀ f ∈ parts, f.Spelled)
    {e : Expr} (h : e.parts ⊆ parts) : e.Reassociates (e.phrase.expr parts) := by
  have hlooks : ∀ {e : Expr}, e ∈ parts → e.isLook = false → ∀ f ∈ parts, f.isLook → f.text ≠ e.phrase.text := by
    intro e he hl f hf hl' ht
    rw [text_phrase] at ht
    rw [(hparts f hf e he ht).1, hl] at hl'
    cases hl'
  induction e with
  | literal | folded | range | ref =>
      rw [phrase, Phrase.expr_ofPrimary]
      exact .refl _
  | look polarity e ih =>
      obtain ⟨hself, he⟩ := List.cons_subset.mp h
      have hread : (look polarity e).phrase.expr parts = .look polarity (e.phrase.expr parts) := by
        rw [← Phrase.expr_toTight parts e.phrase]
        exact Phrase.expr_signed ⟨_, hself, rfl, (text_phrase (look polarity e)).symm⟩
      rw [hread]
      exact .look polarity (ih he)
  | seq a b iha ihb =>
      obtain ⟨ha, hb⟩ := List.append_subset.mp (List.cons_subset.mp h).2
      refine .trans (.seq (iha ha) (ihb hb)) ?_
      rw [← Phrase.expr_toSequence parts a.phrase, ← Phrase.expr_toSequence parts b.phrase]
      exact Phrase.reassociates_chained parts _ _
  | choice a b iha ihb =>
      obtain ⟨ha, hb⟩ := List.append_subset.mp (List.cons_subset.mp h).2
      exact .trans (.choice (iha ha) (ihb hb)) (Phrase.reassociates_joined parts _ _)
  | optional e ih =>
      obtain ⟨hself, he⟩ := List.cons_subset.mp h
      have hread : (optional e).phrase.expr parts = .optional (e.phrase.expr parts) := by
        rw [← Phrase.expr_toTight parts e.phrase]
        exact Phrase.expr_suffixed (hlooks hself rfl)
      rw [hread]
      exact .optional (ih he)
  | repeated count e ih =>
      obtain ⟨hself, he⟩ := List.cons_subset.mp h
      have htext : e.phrase.toTight.text ++ count.suffix = (repeated count e).text :=
        (Phrase.text_suffixed _ _).symm.trans (text_phrase (repeated count e))
      have hscans : ∀ s ∈ parts, s.isScan → s.text ≠ e.phrase.toTight.text ++ count.suffix := by
        intro s hs hscan ht
        rw [(hparts s hs _ hself (ht.trans htext)).2] at hscan
        cases hscan
      have hread : (repeated count e).phrase.expr parts = .repeated count (e.phrase.expr parts) := by
        rw [← Phrase.expr_toTight parts e.phrase]
        exact (Phrase.expr_suffixed (hlooks hself rfl)).trans (Postfix.read_repeated_of_ne hscans)
      rw [hread]
      exact .repeated count (ih he)
  | capture e ih =>
      rw [phrase, Phrase.expr_ofPrimary]
      exact .capture (ih (List.cons_subset.mp h).2)
  | scan l ls =>
      have hself : scan l ls ∈ parts := h (mem_parts_self _)
      have htext : (Phrase.tight [] (scanned l ls) []).text ++ Count.zeroOrMore.suffix = (scan l ls).text :=
        (Phrase.text_suffixed (.repeated .zeroOrMore) _).symm.trans (text_phrase (scan l ls))
      have hread : (scan l ls).phrase.expr parts = scan l ls := by
        rw [phrase, Phrase.ofTight, Phrase.expr, Phrase.expr, Phrase.expr, Phrase.around]
        exact Postfix.read_repeated_of_mem hself rfl htext fun s hs hscan ht =>
          eq_of_isScan (hspelled s hs) (hspelled _ hself) hscan rfl ht
      rw [hread]
      exact .refl _

/-- Expressions that are printed alike differ in how sequences and choices are nested, and in nothing else. -/
theorem reassociates_of_text_eq {d e : Expr} (hd : d.Spelled) (he : e.Spelled)
    (hparts : Unmixed (d.parts ++ e.parts)) (ht : d.text = e.text) : d.Reassociates e := by
  have hspelled : ∀ f ∈ d.parts ++ e.parts, f.Spelled := by
    intro f hf
    rcases List.mem_append.mp hf with hf | hf
    · exact spelled_of_mem_parts hd hf
    · exact spelled_of_mem_parts he hf
  have hphrase : d.phrase = e.phrase :=
    Phrase.text_injective (spelled_phrase hd) (spelled_phrase he) (by rw [text_phrase, text_phrase, ht])
  have hread := reassociates_phrase hparts hspelled (List.subset_append_left d.parts e.parts)
  rw [hphrase] at hread
  exact hread.trans (reassociates_phrase hparts hspelled (List.subset_append_right d.parts e.parts)).symm

end Expr

theorem Grammar.reassociates_of_rules {g g' : Grammar} {before after : List Rule} {name : Octets} {kind : RuleKind}
    {d e : Expr} (hg : g.rules = before ++ ⟨name, kind, d⟩ :: after)
    (hg' : g'.rules = before ++ ⟨name, kind, e⟩ :: after) (h : d.Reassociates e) : g.Reassociates g' := by
  have hrefl : ∀ rules : List Rule, List.Forall₂
      (fun r r' => r.name = r'.name ∧ r.kind = r'.kind ∧ r.body.Reassociates r'.body) rules rules :=
    fun rules => List.forall₂_same.mpr fun r _ => ⟨rfl, rfl, .refl _⟩
  rw [Reassociates, Rulewise, hg, hg']
  exact List.rel_append (hrefl before) (.cons ⟨rfl, rfl, h⟩ (hrefl after))

namespace Parser

/-- Expressions that are printed alike do the same as the body of a rule, in any grammar and on any text, if no part
of theirs prints like a look or a scan that it is not: the verdict is the same, with its tokens, its failure or its
error, and so is the whole state of the run. -/
theorem parse_of_text_eq {d e : Expr} (hd : d.Spelled) (he : e.Spelled) (hparts : Expr.Unmixed (d.parts ++ e.parts))
    (ht : d.text = e.text) {g g' : Grammar} {before after : List Rule} {name : Octets} {kind : RuleKind}
    (hg : g.rules = before ++ ⟨name, kind, d⟩ :: after)
    (hg' : g'.rules = before ++ ⟨name, kind, e⟩ :: after) (p : Parser) (start text : Octets) :
    (p.withGrammar g).parse start text = (p.withGrammar g').parse start text ∧
      ∀ n, (p.withGrammar g).parse? n start text = (p.withGrammar g').parse? n start text ∧
        (p.withGrammar g).run n start (Subject.ofOctets text) =
          (p.withGrammar g').run n start (Subject.ofOctets text) := by
  have h := Grammar.reassociates_of_rules hg hg' (Expr.reassociates_of_text_eq hd he hparts ht)
  exact withGrammar_congr (Grammar.Rulewise.length_rules_eq h) h.caller_eq p start text

/-- A sequence that is nested to the left in one rule and to the right in the other, with an escaped quote, an option
of a look and a scan in it. -/
theorem parse_of_text_eq_nestings :
    let quote : Expr := .written "\\\""
    let looks : Expr := .optional (.look .negative (.seq (.rule "letter") (.written "x")))
    let scan : Expr := .scan (.written "x" rfl) [.written "yy" rfl]
    let loop : Expr := .repeated (.between 1 20 (by decide)) (.choice (.written "x") (.written "yy"))
    let d : Expr := .seq (.seq (.seq quote looks) scan) loop
    let e : Expr := .seqAll quote [looks, scan, loop]
    let letter : Rule := .written "letter" .normal (.writtenRange "a" "z")
    let g : Grammar := ⟨[letter, .written "r" .normal d], by decide, by decide, by decide⟩
    let g' : Grammar := ⟨[letter, .written "r" .normal e], by decide, by decide, by decide⟩
    let p : Parser := { grammar := g }
    d.Spelled ∧ e.Spelled ∧ Expr.Unmixed (d.parts ++ e.parts) ∧ d.text = e.text ∧
      (p.withGrammar g).parse (ascii "r") (ascii "\"abyyx") =
        (p.withGrammar g').parse (ascii "r") (ascii "\"abyyx") := by
  intro quote looks scan loop d e letter g g' p
  have hd : d.Spelled := by decide
  have he : e.Spelled := by decide
  have hparts : Expr.Unmixed (d.parts ++ e.parts) := by decide
  have ht : d.text = e.text := by decide
  have hg : g.rules = [letter] ++ ⟨ascii "r", .normal, d⟩ :: [] := rfl
  have hg' : g'.rules = [letter] ++ ⟨ascii "r", .normal, e⟩ :: [] := rfl
  exact ⟨hd, he, hparts, ht, (parse_of_text_eq hd he hparts ht hg hg' p _ _).1⟩

/-- An option of a look and a look into an option are printed alike, and so are a scan and a loop that looks for the
same texts. The text that one of them accepts the other refuses. -/
theorem exists_text_eq_parse_ne :
    let a : Expr := .written "a"
    let b : Expr := .written "b"
    let looks : Expr := .optional (.look .negative a)
    let looks' : Expr := .look .negative (.optional a)
    let loop : Expr := .zeroOrMore (.seq (.look .negative (.choice a b)) (.ref Builtin.any.name))
    let scan : Expr := .scan (.written "a" rfl) [.written "b" rfl]
    let rule (e : Expr) : Rule := .written "r" .silent e
    let p : Parser := { grammar := ⟨[rule looks], by decide, by decide, by decide⟩ }
    let p' : Parser := { grammar := ⟨[rule looks'], by decide, by decide, by decide⟩ }
    let q : Parser := { grammar := ⟨[rule loop], by decide, by decide, by decide⟩ }
    let q' : Parser := { grammar := ⟨[rule scan], by decide, by decide, by decide⟩ }
    (looks.Spelled ∧ looks'.Spelled ∧ looks.text = looks'.text ∧
      p.parse (ascii "r") (ascii "b") = .ok (.accepted #[]) ∧
      ∃ f, p'.parse (ascii "r") (ascii "b") = .ok (.refused f)) ∧
    loop.Spelled ∧ scan.Spelled ∧ loop.text = scan.text ∧
      q.parse (ascii "r") (ascii "c") = .ok (.accepted #[]) ∧
      ∃ f, q'.parse (ascii "r") (ascii "c") = .ok (.refused f) := by
  intro a b looks looks' loop scan rule p p' q q'
  exact ⟨⟨by decide, by decide, by decide, rfl, _, rfl⟩, by decide, by decide, by decide, rfl, _, rfl⟩

end Parser

end Peg
