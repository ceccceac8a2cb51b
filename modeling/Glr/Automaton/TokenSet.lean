/-!
# Glr.Automaton.TokenSet

Sets of tokens as the bits of a number: token `t` is an element when bit `t`
is set.
-/

namespace Glr

/-- A set of tokens. -/
abbrev TokenSet := Nat

namespace TokenSet

/-- The set without elements. -/
def empty : TokenSet := 0

/-- The set of one token. -/
def singleton (t : Nat) : TokenSet := 1 <<< t

/-- The elements of either set. -/
def union (a b : TokenSet) : TokenSet := a ||| b

/-- Adds a token. -/
def insert (a : TokenSet) (t : Nat) : TokenSet := a ||| singleton t

/-- Whether a token is an element. -/
def contains (a : TokenSet) (t : Nat) : Bool := a.testBit t

/-- Whether all elements of `a` are elements of `b`. -/
def subset (a b : TokenSet) : Bool := a ||| b == b

/-- Whether two sets have no element in common. -/
def disjoint (a b : TokenSet) : Bool := a &&& b == 0

/-- The elements below `bound`, in increasing order. -/
def toList (bound : Nat) (a : TokenSet) : List Nat := (List.range bound).filter a.contains

/-! ## Elements -/

theorem contains_empty (t : Nat) : empty.contains t = false := Nat.zero_testBit t

theorem contains_union (a b : TokenSet) (t : Nat) :
    (a.union b).contains t = (a.contains t || b.contains t) := Nat.testBit_or a b t

theorem contains_singleton (s t : Nat) : (singleton s).contains t = decide (s = t) := by
  simp only [contains, singleton, Nat.one_shiftLeft, Nat.testBit_two_pow]

theorem contains_insert (a : TokenSet) (s t : Nat) :
    (a.insert s).contains t = (a.contains t || decide (s = t)) := by
  rw [← contains_singleton, ← contains_union]
  rfl

theorem subset_iff {a b : TokenSet} :
    a.subset b = true ↔ ∀ t, a.contains t = true → b.contains t = true := by
  simp only [subset, beq_iff_eq]
  constructor
  · intro h t ht
    rw [← h, contains, Nat.testBit_or]
    simp only [contains] at ht
    simp [ht]
  · intro h
    apply Nat.eq_of_testBit_eq
    intro t
    have := h t
    simp only [contains] at this
    rw [Nat.testBit_or]
    cases ha : a.testBit t <;> simp_all

theorem disjoint_iff {a b : TokenSet} :
    a.disjoint b = true ↔ ∀ t, ¬(a.contains t = true ∧ b.contains t = true) := by
  simp only [disjoint, beq_iff_eq]
  constructor
  · intro h t ht
    have : (a &&& b).testBit t = false := by rw [h]; exact Nat.zero_testBit t
    rw [Nat.testBit_and] at this
    simp only [contains] at ht
    simp [ht.1, ht.2] at this
  · intro h
    apply Nat.eq_of_testBit_eq
    intro t
    have := h t
    simp only [contains] at this
    rw [Nat.testBit_and, Nat.zero_testBit]
    cases ha : a.testBit t <;> cases hb : b.testBit t <;> simp_all

theorem mem_toList {bound : Nat} {a : TokenSet} {t : Nat} :
    t ∈ a.toList bound ↔ t < bound ∧ a.contains t = true := by
  simp [toList]

end TokenSet

end Glr
