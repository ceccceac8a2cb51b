import Glr.Text.Bytes

/-!
# Glr.Text.Point

Positions, extents and ranges in a text.  A `Point` counts rows and the bytes
of the last row; a `Length` pairs it with a byte count.  Lengths add like
texts are appended:

```
Length.of (x ++ y) = Length.of x + Length.of y
```

so trees store sizes and recover positions by adding them up.
-/

namespace Glr

/-- A zero-based row and column.  Columns count bytes. -/
structure Point where
  row : Nat
  column : Nat
  deriving DecidableEq, Repr, Inhabited

namespace Point

/-- The start of a text. -/
def zero : Point := ⟨0, 0⟩

/-- Reading order: rows first, then columns. -/
def blt (p q : Point) : Bool := p.row < q.row || (p.row == q.row && p.column < q.column)

instance : LT Point := ⟨fun p q => p.blt q = true⟩

instance (p q : Point) : Decidable (p < q) := inferInstanceAs (Decidable (p.blt q = true))

/-- Composes a position with an extent: an extent that spans rows sets the
column, any other adds to it. -/
def add (p q : Point) : Point :=
  if q.row > 0 then ⟨p.row + q.row, q.column⟩ else ⟨p.row, p.column + q.column⟩

/-- The extent from `q` to `p`; it stops at zero where `p` precedes `q`. -/
def sub (p q : Point) : Point :=
  if p.row > q.row then ⟨p.row - q.row, p.column⟩ else ⟨0, p.column - q.column⟩

instance : Add Point := ⟨add⟩
instance : Sub Point := ⟨sub⟩

/-- The position after one more byte. -/
def step (p : Point) (b : UInt8) : Point :=
  if b = lineFeed then ⟨p.row + 1, 0⟩ else ⟨p.row, p.column + 1⟩

/-- The text form, `[row, column]`. -/
def display (p : Point) : String := s!"[{p.row}, {p.column}]"

/-! ## Addition -/

theorem add_def (p q : Point) :
    p + q = if q.row > 0 then ⟨p.row + q.row, q.column⟩ else ⟨p.row, p.column + q.column⟩ := rfl

theorem row_add (p q : Point) : (p + q).row = p.row + q.row := by
  rw [add_def]
  split
  · rfl
  · show p.row = p.row + q.row
    omega

@[simp] theorem add_zero (p : Point) : p + zero = p := rfl

@[simp] theorem zero_add (p : Point) : zero + p = p := by
  cases p
  simp only [add_def, zero, Nat.zero_add]
  split <;> simp
  omega

theorem add_assoc (p q r : Point) : p + q + r = p + (q + r) := by
  obtain ⟨a, b⟩ := p
  obtain ⟨c, d⟩ := q
  obtain ⟨e, f⟩ := r
  rcases Nat.eq_zero_or_pos c with rfl | hc <;> rcases Nat.eq_zero_or_pos e with rfl | he
  · simp [add_def, Nat.add_assoc]
  · simp [add_def, he]
  · simp [add_def, hc]
  · have : 0 < c + e := by omega
    simp [add_def, hc, he, this, Nat.add_assoc]

/-- One more byte adds the extent of that byte. -/
theorem step_eq_add (p : Point) (b : UInt8) : p.step b = p + zero.step b := by
  simp only [step, add_def, zero]
  split <;> simp

theorem foldl_step_eq_add (bs : List UInt8) (p : Point) :
    bs.foldl step p = p + bs.foldl step zero := by
  induction bs generalizing p with
  | nil => exact (add_zero p).symm
  | cons b bs ih =>
    simp only [List.foldl_cons]
    rw [ih (p.step b), ih (zero.step b), step_eq_add p b, add_assoc]

theorem lt_iff {p q : Point} :
    p < q ↔ p.row < q.row ∨ p.row = q.row ∧ p.column < q.column := by
  show p.blt q = true ↔ _
  simp [blt]

/-- What is added can be taken away. -/
theorem add_sub_cancel_left (p q : Point) : p + q - p = q := by
  show sub (add p q) p = q
  unfold add sub
  split
  · rw [if_pos (Nat.lt_add_of_pos_right ‹_›)]
    simp
  · rename_i h
    rw [if_neg (Nat.lt_irrefl _)]
    simp only [Nat.add_sub_cancel_left]
    rw [← Nat.eq_zero_of_not_pos h]

/-- No extent leads back. -/
theorem not_add_lt (p q : Point) : ¬p + q < p := by
  rw [lt_iff, row_add, add_def]
  split
  · omega
  · simp

end Point

/-- The extent of a text: the rows it begins and the bytes of the last one. -/
def extentOf (text : Bytes) : Point := text.foldl Point.step Point.zero

theorem extentOf_empty : extentOf #[] = Point.zero := rfl

theorem extentOf_append (x y : Bytes) : extentOf (x ++ y) = extentOf x + extentOf y := by
  simp only [extentOf, ← Array.foldl_toList, Array.toList_append, List.foldl_append]
  exact Point.foldl_step_eq_add _ _

/-- The position reached after walking over a text. -/
def Point.advance (p : Point) (text : Bytes) : Point := p + extentOf text

theorem Point.advance_append (p : Point) (x y : Bytes) :
    p.advance (x ++ y) = (p.advance x).advance y := by
  rw [advance, advance, advance, extentOf_append, add_assoc]

/-- A byte count with its row and column extent. -/
structure Length where
  bytes : Nat
  extent : Point
  deriving DecidableEq, Repr, Inhabited

namespace Length

/-- The length of the empty text. -/
def zero : Length := ⟨0, Point.zero⟩

/-- The length of a text. -/
def of (text : Bytes) : Length := ⟨text.size, extentOf text⟩

/-- The length of two texts, one after the other. -/
def add (a b : Length) : Length := ⟨a.bytes + b.bytes, a.extent + b.extent⟩

/-- What remains of `a` after `b`; it stops at zero where `b` is longer. -/
def sub (a b : Length) : Length := ⟨a.bytes - b.bytes, a.extent - b.extent⟩

instance : Add Length := ⟨add⟩
instance : Sub Length := ⟨sub⟩

/-- `value` moved into the interval from `low` to `high`, judged by bytes. -/
def clamp (value low high : Length) : Length :=
  if value.bytes ≤ low.bytes then low else if high.bytes ≤ value.bytes then high else value

/-! ## Addition -/

theorem bytes_add (a b : Length) : (a + b).bytes = a.bytes + b.bytes := rfl

theorem extent_add (a b : Length) : (a + b).extent = a.extent + b.extent := rfl

theorem bytes_sub (a b : Length) : (a - b).bytes = a.bytes - b.bytes := rfl

theorem extent_sub (a b : Length) : (a - b).extent = a.extent - b.extent := rfl

@[simp] theorem add_zero (a : Length) : a + zero = a := rfl

@[simp] theorem zero_add (a : Length) : zero + a = a := by
  cases a
  show Length.mk _ _ = _
  simp [zero, Point.zero_add]

theorem add_assoc (a b c : Length) : a + b + c = a + (b + c) := by
  show Length.mk _ _ = Length.mk _ _
  simp only [bytes_add, extent_add]
  rw [Nat.add_assoc, Point.add_assoc]

theorem add_sub_cancel_left (a b : Length) : a + b - a = b := by
  show Length.mk _ _ = _
  rw [bytes_add, extent_add, Nat.add_sub_cancel_left, Point.add_sub_cancel_left]

theorem of_empty : of #[] = zero := rfl

theorem of_append (x y : Bytes) : of (x ++ y) = of x + of y := by
  show Length.mk _ _ = Length.mk _ _
  simp only [of, Array.size_append, extentOf_append]

end Length

/-- A span of a text by bytes and by points. -/
structure Range where
  startByte : Nat
  endByte : Nat
  startPoint : Point
  endPoint : Point
  deriving DecidableEq, Repr, Inhabited

namespace Range

/-- The span between two lengths measured from the start of the text. -/
def between (start stop : Length) : Range := ⟨start.bytes, stop.bytes, start.extent, stop.extent⟩

/-- The text form, both points. -/
def display (r : Range) : String := s!"{r.startPoint.display} - {r.endPoint.display}"

end Range

end Glr
