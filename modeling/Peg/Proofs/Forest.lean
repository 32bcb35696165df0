import Peg.Forest
import Peg.Token

namespace Peg.Forest

def append : Forest → Forest → Forest
  | nil, g => g
  | cons rule span inner next, g => cons rule span inner (append next g)

instance : Append Forest := ⟨append⟩

def node (rule : Octets) (span : Span) (inner : Forest) : Forest := cons rule span inner nil

def size : Forest → Nat
  | nil => 0
  | cons _ _ inner next => inner.size + next.size + 1

/-- The edges of a forest in a token queue where `i` tokens precede it. -/
def tokensFrom (i : Nat) : Forest → List Token
  | nil => []
  | cons rule span inner next =>
      let last := i + 1 + 2 * inner.size
      ⟨.start, rule, last, span.start⟩ ::
        (inner.tokensFrom (i + 1) ++ ⟨.stop, rule, i, span.stop⟩ :: next.tokensFrom (last + 1))

def tokens (f : Forest) : List Token := f.tokensFrom 0

/-- All spans lie between two offsets, the inner ones inside the outer ones and the later ones behind
the earlier ones. -/
def Within (low high : Nat) : Forest → Prop
  | nil => low ≤ high
  | cons _ span inner next =>
      low ≤ span.start ∧ inner.Within span.start span.stop ∧ next.Within span.stop high

/-- The tree of a rule stands somewhere in a forest, with the rules inside it. -/
inductive HasTree : Forest → Octets → Span → Forest → Prop
  | root (rule span inner next) : HasTree (cons rule span inner next) rule span inner
  | inner {rule span inner next r s f} (h : HasTree inner r s f) : HasTree (cons rule span inner next) r s f
  | next {rule span inner next r s f} (h : HasTree next r s f) : HasTree (cons rule span inner next) r s f

def roots : Forest → List (Octets × Span)
  | nil => []
  | cons rule span _ next => (rule, span) :: next.roots

/-- The rules at every depth, each before those inside it. -/
def nodes : Forest → List (Octets × Span)
  | nil => []
  | cons rule span inner next => (rule, span) :: (inner.nodes ++ next.nodes)

theorem cons_append (rule : Octets) (span : Span) (inner next g : Forest) :
    cons rule span inner next ++ g = cons rule span inner (next ++ g) := rfl

theorem append_nil (f : Forest) : f ++ nil = f := by
  induction f with
  | nil => rfl
  | cons rule span inner next _ ih => rw [cons_append, ih]

theorem append_assoc (f g h : Forest) : f ++ g ++ h = f ++ (g ++ h) := by
  induction f with
  | nil => rfl
  | cons rule span inner next _ ih => rw [cons_append, cons_append, cons_append, ih]

theorem nodes_append (f g : Forest) : (f ++ g).nodes = f.nodes ++ g.nodes := by
  induction f with
  | nil => rfl
  | cons rule span inner next _ ih =>
      rw [cons_append, nodes, nodes, ih, List.cons_append, List.append_assoc]

theorem length_tokensFrom (f : Forest) (i : Nat) : (f.tokensFrom i).length = 2 * f.size := by
  induction f generalizing i with
  | nil => rfl
  | cons rule span inner next ihi ihn =>
      simp only [tokensFrom, size, List.length_cons, List.length_append, ihi, ihn]
      omega

theorem tokensFrom_append (f g : Forest) (i : Nat) :
    (f ++ g).tokensFrom i = f.tokensFrom i ++ g.tokensFrom (i + 2 * f.size) := by
  induction f generalizing i with
  | nil => rfl
  | cons rule span inner next _ ih =>
      have hi : i + 1 + 2 * inner.size + 1 + 2 * next.size = i + 2 * (inner.size + next.size + 1) := by omega
      simp only [cons_append, tokensFrom, ih, size, List.cons_append, List.append_assoc, hi]

theorem tokensFrom_node (rule : Octets) (span : Span) (inner : Forest) (i : Nat) :
    (node rule span inner).tokensFrom i = ⟨.start, rule, i + 1 + 2 * inner.size, span.start⟩ ::
      (inner.tokensFrom (i + 1) ++ [⟨.stop, rule, i, span.stop⟩]) := rfl

/-- The partner of the first start token tells how many tokens are inside. -/
theorem tokensFrom_inj {f g : Forest} {i : Nat} (h : f.tokensFrom i = g.tokensFrom i) : f = g := by
  induction f generalizing g i with
  | nil =>
      cases g with
      | nil => rfl
      | cons => cases h
  | cons rule span inner next ihi ihn =>
      cases g with
      | nil => cases h
      | cons rule' span' inner' next' =>
          simp only [tokensFrom, List.cons.injEq, Token.mk.injEq, true_and] at h
          obtain ⟨⟨hr, hs, ht⟩, h⟩ := h
          have hl : (inner.tokensFrom (i + 1)).length = (inner'.tokensFrom (i + 1)).length := by
            rw [length_tokensFrom, length_tokensFrom]
            omega
          obtain ⟨hi, hn⟩ := List.append_inj h hl
          have he := ihi hi
          rw [he, List.cons.injEq, Token.mk.injEq] at hn
          obtain ⟨⟨-, -, -, hp⟩, hn⟩ := hn
          have hspan : span = span' := by
            cases span
            cases span'
            cases ht
            cases hp
            rfl
          rw [hr, hspan, he, ihn hn]

namespace Within

variable {low high : Nat}

theorem le {f : Forest} (h : f.Within low high) : low ≤ high := by
  induction f generalizing low high with
  | nil => exact h
  | cons rule span inner next ihi ihn => exact Nat.le_trans h.1 (Nat.le_trans (ihi h.2.1) (ihn h.2.2))

theorem mono {f : Forest} (h : f.Within low high) {low' high' : Nat} (hl : low' ≤ low)
    (hh : high ≤ high') : f.Within low' high' := by
  induction f generalizing low low' with
  | nil => exact Nat.le_trans hl (Nat.le_trans h hh)
  | cons rule span inner next _ ih => exact ⟨Nat.le_trans hl h.1, h.2.1, ih h.2.2 (Nat.le_refl _)⟩

theorem append {f g : Forest} {middle : Nat} (h : f.Within low middle) (h' : g.Within middle high) :
    (f ++ g).Within low high := by
  induction f generalizing low with
  | nil => exact h'.mono h (Nat.le_refl _)
  | cons rule span inner next _ ih => exact ⟨h.1, h.2.1, ih h.2.2⟩

theorem hasTree {f inner : Forest} {rule : Octets} {span : Span} (hw : f.Within low high)
    (h : f.HasTree rule span inner) : inner.Within span.start span.stop := by
  induction h generalizing low high with
  | root => exact hw.2.1
  | inner _ ih => exact ih hw.2.1
  | next _ ih => exact ih hw.2.2

theorem node {f : Forest} (h : f.Within low high) (rule : Octets) :
    (Forest.node rule ⟨low, high⟩ f).Within low high := ⟨Nat.le_refl _, h, Nat.le_refl _⟩

end Within

end Peg.Forest
