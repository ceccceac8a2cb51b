import Glr.Text.Point
import Mathlib.Data.List.Induction

/-!
# Glr.Proofs.Text.Length

Lengths measure texts, and calculating with them is calculating with texts.  They form a monoid,
texts are measured part by part, and what is added can be taken away again:

```
of (x ++ y)      = of x + of y          b + (a - b) = a   if b is no later than a
of (x ++ y) - of x = of y
```

* `extentOf_eq` — an extent counts line feeds and the bytes behind the last of them;
* `Length.adds_like_text` — the laws.
-/

namespace Glr

/-- The bytes behind the last line feed of a text. -/
def lastLine (text : Bytes) : List UInt8 :=
  (text.toList.reverse.takeWhile fun b => b != lineFeed).reverse

/-- The rows of an extent are the line feeds of the text, its column what comes behind the last. -/
theorem extentOf_eq (text : Bytes) :
    extentOf text = ⟨text.toList.count lineFeed, (lastLine text).length⟩ := by
  obtain ⟨bs⟩ := text
  have key : bs.foldl Point.step Point.zero =
      ⟨bs.count lineFeed, (bs.reverse.takeWhile fun b => b != lineFeed).length⟩ := by
    induction bs using List.reverseRecOn with
    | nil => rfl
    | append_singleton bs b ih =>
      rw [List.foldl_append, List.foldl_cons, List.foldl_nil, ih, Point.step, List.count_append,
        List.reverse_append, List.reverse_singleton, List.singleton_append]
      by_cases h : b = lineFeed
      · simp [h]
      · simp [h]
  rw [extentOf, ← Array.foldl_toList, key, lastLine, List.length_reverse]

namespace Point

/-- An extent leads from a point to another one exactly if that is no earlier. -/
theorem add_sub_cancel_iff (a b : Point) : b + (a - b) = a ↔ b < a ∨ b = a := by
  obtain ⟨row, column⟩ := a
  obtain ⟨row', column'⟩ := b
  have hsub : (⟨row, column⟩ : Point) - ⟨row', column'⟩ =
      if row > row' then ⟨row - row', column⟩ else ⟨0, column - column'⟩ := rfl
  rw [lt_iff, hsub, add_def]
  by_cases hrow : row' < row
  · -- the rows in between are added, the column is that of the later point
    have hpos : 0 < row - row' := Nat.sub_pos_of_lt hrow
    simp [hrow, hpos, Nat.add_sub_cancel' (Nat.le_of_lt hrow)]
  · -- no row in between: the columns decide
    simp only [hrow, if_false, Nat.lt_irrefl, mk.injEq, false_or]
    omega

end Point

/-- Lengths form a monoid, and measure texts as these are put together: a length counts the bytes,
the line feeds, and the bytes behind the last of them; two texts are as long as one after the
other; and what is added to a length or a point is what is left when that is taken away. -/
theorem Length.adds_like_text :
    (∀ text : Bytes, Length.of text =
      ⟨text.size, text.toList.count lineFeed, (lastLine text).length⟩) ∧
    (∀ x y : Bytes, Length.of (x ++ y) = Length.of x + Length.of y ∧
      Length.of (x ++ y) - Length.of x = Length.of y) ∧
    (∀ a b c : Length, a + b + c = a + (b + c) ∧ Length.zero + a = a ∧ a + Length.zero = a) ∧
    (∀ a b c : Point, a + b + c = a + (b + c) ∧ Point.zero + a = a ∧ a + Point.zero = a) ∧
    ∀ a b : Point, b + (a - b) = a ↔ b < a ∨ b = a := by
  refine ⟨fun text => ?_, fun x y => ?_, fun a b c => ?_, fun a b c => ?_,
    Point.add_sub_cancel_iff⟩
  · rw [Length.of, extentOf_eq]
  · rw [of_append]
    exact ⟨rfl, add_sub_cancel_left _ _⟩
  · exact ⟨add_assoc a b c, zero_add a, add_zero a⟩
  · exact ⟨Point.add_assoc a b c, Point.zero_add a, Point.add_zero a⟩

-- a line break in the second text sets the column
example : Length.of #[97, 10, 98, 98] + Length.of #[99, 10, 100] = ⟨7, 2, 1⟩ := by decide

end Glr
