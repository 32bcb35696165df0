import Peg.Proofs.Adequacy

/-! What a match of a task tells about its parts. -/

namespace Peg.Eval

variable {g : Grammar} {x : Subject} {m : Atomicity} {t u : Task} {p q : Nat} {c c' : List Span} {f : Forest}

theorem of_ofMatch {o : Match} (h : Answer.ok q c' f = .ofMatch c o) : o = .matched q ∧ f = .nil := by
  cases o with
  | matched q =>
      cases h
      exact ⟨rfl, rfl⟩
  | failed q => cases h

theorem of_literal {l : Literal} (h : Eval g x m (.expr (.literal l)) p c (.ok q c' f)) :
    x.text l.text p = .matched q ∧ f = .nil := by
  generalize ha : Answer.ok q c' f = a at h
  cases h
  exact of_ofMatch ha

theorem of_range {r : RuneRange} (h : Eval g x m (.expr (.range r)) p c (.ok q c' f)) :
    x.runeIn r.low r.high p = .matched q ∧ f = .nil := by
  generalize ha : Answer.ok q c' f = a at h
  cases h
  exact of_ofMatch ha

theorem of_both (h : Eval g x m (.both t u) p c (.ok q c' f)) :
    ∃ r c₁ f₁ f₂, f = f₁ ++ f₂ ∧ Eval g x m t p c (.ok r c₁ f₁) ∧ Eval g x m u r c₁ (.ok q c' f₂) := by
  generalize ha : Answer.ok q c' f = a at h
  cases h with
  | both_first _ hs =>
      subst ha
      exact hs.elim
  | @both _ _ _ _ _ r c₁ f₁ a ht hu =>
      cases a with
      | ok =>
          cases ha
          exact ⟨_, _, _, _, rfl, ht, hu⟩
      | fail | error => cases ha

theorem of_seq {d e : Expr} (h : Eval g x m (.expr (.seq d e)) p c (.ok q c' f)) :
    ∃ r c₁ f₁ r' c₂ f₂ f₃, f = f₁ ++ (f₂ ++ f₃) ∧ Eval g x m (.expr d) p c (.ok r c₁ f₁) ∧
      Eval g x m .skip r c₁ (.ok r' c₂ f₂) ∧ Eval g x m (.expr e) r' c₂ (.ok q c' f₃) := by
  cases h with
  | seq h =>
      obtain ⟨r, c₁, f₁, _, rfl, hd, h⟩ := h.of_both
      obtain ⟨r', c₂, f₂, f₃, rfl, hs, he⟩ := h.of_both
      exact ⟨r, c₁, f₁, r', c₂, f₂, f₃, rfl, hd, hs, he⟩

theorem of_choice {d e : Expr} {a : Answer} (h : Eval g x m (.expr (.choice d e)) p c a) :
    (Eval g x m (.expr d) p c a ∧ a ≠ .fail) ∨ (Eval g x m (.expr d) p c .fail ∧ Eval g x m (.expr e) p c a) := by
  cases h with
  | choice_first h ha => exact .inl ⟨h, ha⟩
  | choice_second hd he => exact .inr ⟨hd, he⟩

theorem of_optional {e : Expr} (h : Eval g x m (.expr (.optional e)) p c (.ok q c' f)) :
    (q = p ∧ f = .nil) ∨ Eval g x m (.expr e) p c (.ok q c' f) := by
  generalize ha : Answer.ok q c' f = a at h
  cases h with
  | @optional _ _ _ _ a h =>
      cases a with
      | ok =>
          cases ha
          exact .inr h
      | fail =>
          cases ha
          exact .inl ⟨rfl, rfl⟩
      | error => cases ha

theorem of_look_negative {e : Expr} (h : Eval g x m (.expr (.look .negative e)) p c (.ok q c' f)) :
    q = p ∧ f = .nil ∧ Eval g x m (.expr e) p c .fail := by
  generalize ha : Answer.ok q c' f = a at h
  cases h with
  | @look _ _ _ _ a _ h =>
      cases a with
      | fail =>
          cases ha
          exact ⟨rfl, rfl, h⟩
      | ok | error => cases ha

theorem of_repeated {count : Count} {e : Expr} (h : Eval g x m (.expr (.repeated count e)) p c (.ok q c' f)) :
    (count.min = 0 ∧ q = p ∧ f = .nil) ∨ Eval g x m (.occurrences count e) p c (.ok q c' f) := by
  obtain ⟨b, ha⟩ : ∃ b, Answer.ok q c' f = b := ⟨_, rfl⟩
  rw [ha] at h
  cases h with
  | repeated_never hc =>
      cases ha
      exact .inl ⟨Nat.le_zero.mp (Count.min_le_of_max? hc), rfl, rfl⟩
  | @repeated _ _ _ _ _ a _ h =>
      split at ha
      · rename_i hmin
        cases a with
        | ok =>
            cases ha
            exact .inr h
        | fail =>
            cases ha
            exact .inl ⟨hmin, rfl, rfl⟩
        | error => cases ha
      · cases ha
        exact .inr h

theorem of_many {room : Option Nat} (h : Eval g x m (.many room t) p c (.ok q c' f)) :
    (q = p ∧ f = .nil) ∨ Eval g x m t p c (.ok q c' f) ∨
      ∃ r c₁ f₁ f₂, f = f₁ ++ f₂ ∧ Eval g x m t p c (.ok r c₁ f₁) ∧ p < r ∧
        Eval g x m (.many (room.map (· - 1)) t) r c₁ (.ok q c' f₂) := by
  generalize ha : Answer.ok q c' f = a at h
  cases h with
  | many_full | many_failed =>
      cases ha
      exact .inl ⟨rfl, rfl⟩
  | many_error => cases ha
  | many_last _ h =>
      cases ha
      exact .inr (.inl h)
  | @many_more _ _ _ _ _ r c₁ f₁ a _ h hr hmore =>
      cases a with
      | ok =>
          cases ha
          exact .inr (.inr ⟨_, _, _, _, rfl, h, hr, hmore⟩)
      | fail | error => cases ha

theorem of_ref {name : Octets} {a : Answer} (h : Eval g x m (.expr (.ref name)) p c a) :
    Eval g x m (.call name) p c a := by
  cases h with
  | ref h => exact h

theorem of_call {name : Octets} {r : Rule} (hb : Builtin.ofName? name = none) (hf : g.find? name = some r)
    (h : Eval g x m (.call name) p c (.ok q c' f)) :
    ∃ f', f = (if r.hasNode m then .node r.name ⟨p, q⟩ f' else f') ∧
      Eval g x (r.modeInside m) (.expr r.body) p c (.ok q c' f') := by
  generalize ha : Answer.ok q c' f = a at h
  cases h with
  | any | startOfInput | endOfInput | peek_empty | pop_empty | peek | pop => cases hb
  | undefinedRule _ hn =>
      rw [hf] at hn
      cases hn
  | @rule _ _ r' _ _ a _ hf' h =>
      rw [hf] at hf'
      cases hf'
      cases a with
      | ok =>
          cases ha
          exact ⟨_, rfl, h⟩
      | fail | error => cases ha

theorem of_startOfInput (h : Eval g x m (.call Builtin.startOfInput.name) p c (.ok q c' f)) : f = .nil := by
  generalize ha : Answer.ok q c' f = a at h
  cases h with
  | startOfInput => exact (of_ofMatch ha).2
  | undefinedRule hb | rule hb => cases hb

theorem of_endOfInput (h : Eval g x m (.call Builtin.endOfInput.name) p c (.ok q c' f)) (hp : p ≤ x.size) :
    p = x.size := by
  have ha := h.det .endOfInput hp
  unfold Subject.atEnd at ha
  split at ha
  · assumption
  · cases ha

section Forests

/-! Whatever all forests of the parts share, the forest of the whole has too, if it can be put together. -/

variable {P : Forest → Prop} (hnil : P .nil) (happend : ∀ {f f'}, P f → P f' → P (f ++ f'))

include hnil happend

theorem forest_of_many {room : Option Nat}
    (ht : ∀ {p' c q c' f}, p ≤ p' → p' ≤ x.size → Eval g x m t p' c (.ok q c' f) → P f)
    (h : Eval g x m (.many room t) p c (.ok q c' f)) (hp : p ≤ x.size) : P f := by
  induction hn : x.size - p using Nat.strongRecOn generalizing room p c f with
  | ind n ih =>
      subst hn
      rcases h.of_many with ⟨-, rfl⟩ | h | ⟨r, c₁, f₁, f₂, rfl, h, hr, hmore⟩
      · exact hnil
      · exact ht (Nat.le_refl p) hp h
      · have hle : r ≤ x.size := h.spans.1.2 hp
        have hmore := ih (x.size - r) (by omega) (fun hr' => ht (by omega)) hmore hle rfl
        exact happend (ht (Nat.le_refl p) hp h) hmore

theorem forest_of_zeroOrMore {e : Expr}
    (hs : ∀ {p' c q c' f}, p' ≤ x.size → Eval g x m .skip p' c (.ok q c' f) → P f)
    (he : ∀ {p' c q c' f}, p ≤ p' → p' ≤ x.size → Eval g x m (.expr e) p' c (.ok q c' f) → P f)
    (h : Eval g x m (.expr (.repeated .zeroOrMore e)) p c (.ok q c' f)) (hp : p ≤ x.size) : P f := by
  rcases h.of_repeated with ⟨-, -, rfl⟩ | h
  · exact hnil
  · obtain ⟨r, c₁, f₁, f₂, rfl, hone, hmany⟩ := Eval.of_both h
    obtain ⟨r', c₂, f₃, f₄, rfl, hfirst, hnone⟩ := Eval.of_both hone
    cases hnone
    have hr := hfirst.spans.1
    refine happend (happend (he (Nat.le_refl p) hp hfirst) hnil) ?_
    refine forest_of_many hnil happend (fun hle hsize hround => ?_) hmany (hr.2 hp)
    obtain ⟨r', _, f₅, f₆, rfl, hskip, hnext⟩ := hround.of_both
    have hr' := hskip.spans.1
    exact happend (hs hsize hskip) (he (Nat.le_trans hr.1 (Nat.le_trans hle hr'.1)) (hr'.2 hsize) hnext)

end Forests

end Peg.Eval
