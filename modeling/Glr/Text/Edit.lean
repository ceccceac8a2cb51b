import Glr.Text.Point

/-!
# Glr.Text.Edit

One contiguous replacement of text, told by offsets and points, without the
texts themselves.  `Edit.replace` describes a replacement of a given text;
`Edit.validate` rejects edits that no text of a given length can have.
-/

namespace Glr

/-- The text from `start` to `oldEnd` becomes the text from `start` to `newEnd`. -/
structure Edit where
  start : Length
  oldEnd : Length
  newEnd : Length
  deriving DecidableEq, Repr, Inhabited

/-- Why an edit is rejected. -/
inductive EditError where
  /-- The edit starts or ends beyond the document. -/
  | outOfBounds (edit : Edit) (len : Nat)
  /-- An end offset precedes the start offset. -/
  | reversed (edit : Edit)
  /-- The points are ordered differently from the offsets. -/
  | inconsistentPoints (edit : Edit)
  deriving DecidableEq, Repr

namespace Edit

/-- Describes replacing the bytes `start..stop` of `old` by `replacement`; a
range outside the text is moved into it. -/
def replace (old : Bytes) (start stop : Nat) (replacement : Bytes) : Edit :=
  let startByte := min start old.size
  let oldEnd := min (max stop startByte) old.size
  let before := Length.of (old.extract 0 startByte)
  { start := before
    oldEnd := ⟨oldEnd, before.extent.advance (old.extract startByte oldEnd)⟩
    newEnd := ⟨startByte + replacement.size, before.extent.advance replacement⟩ }

/-- Checks an edit against a document of `len` bytes. -/
def validate (e : Edit) (len : Nat) : Except EditError Unit :=
  if e.start.bytes > len || e.oldEnd.bytes > len then .error (.outOfBounds e len)
  else if e.oldEnd.bytes < e.start.bytes || e.newEnd.bytes < e.start.bytes then .error (.reversed e)
  else if e.oldEnd.extent < e.start.extent ∨ e.newEnd.extent < e.start.extent then
    .error (.inconsistentPoints e)
  else .ok ()

theorem validate_eq_ok_iff {e : Edit} {len : Nat} :
    e.validate len = .ok () ↔
      (e.start.bytes ≤ len ∧ e.oldEnd.bytes ≤ len) ∧
      (e.start.bytes ≤ e.oldEnd.bytes ∧ e.start.bytes ≤ e.newEnd.bytes) ∧
      ¬e.oldEnd.extent < e.start.extent ∧ ¬e.newEnd.extent < e.start.extent := by
  unfold validate
  split
  · rename_i h
    simp only [Bool.or_eq_true, decide_eq_true_eq] at h
    simp only [reduceCtorEq, false_iff]
    omega
  · rename_i h
    simp only [Bool.or_eq_true, decide_eq_true_eq, not_or, Nat.not_lt] at h
    split
    · rename_i h'
      simp only [Bool.or_eq_true, decide_eq_true_eq] at h'
      simp only [reduceCtorEq, false_iff]
      omega
    · rename_i h'
      simp only [Bool.or_eq_true, decide_eq_true_eq, not_or, Nat.not_lt] at h'
      split
      · rename_i h''
        simp only [reduceCtorEq, false_iff]
        exact fun hn => h''.elim hn.2.2.1 hn.2.2.2
      · rename_i h''
        exact iff_of_true rfl ⟨h, h', not_or.mp h''⟩

/-- The points of a replacement are those of its offsets. -/
theorem replace_eq {old replacement : Bytes} {start stop : Nat} (h : start ≤ stop)
    (h' : stop ≤ old.size) :
    replace old start stop replacement =
      ⟨.of (old.extract 0 start), .of (old.extract 0 stop),
        .of (old.extract 0 start ++ replacement)⟩ := by
  have hs : min start old.size = start := Nat.min_eq_left (Nat.le_trans h h')
  have ho : min (max stop start) old.size = stop := by omega
  have he : old.extract 0 stop = old.extract 0 start ++ old.extract start stop := by
    simp [Array.extract_append_extract, Nat.max_eq_right h]
  simp only [replace, hs, ho, he, Length.of_append]
  simp only [Length.of, Point.advance, Array.size_extract]
  congr 1
  · show Length.mk _ _ = Length.mk _ _
    congr 1
    simp
    omega
  · show Length.mk _ _ = Length.mk _ _
    congr 1
    simp
    omega

end Edit

/-- The text of an edit error. -/
def EditError.message : EditError → String
  | .outOfBounds e len =>
    s!"edit {e.start.bytes}..{e.oldEnd.bytes} exceeds document length {len}"
  | .reversed e =>
    s!"edit ends before it starts (start {e.start.bytes}, old end {e.oldEnd.bytes}, "
      ++ s!"new end {e.newEnd.bytes})"
  | .inconsistentPoints e =>
    s!"edit positions {e.start.extent.display} / {e.oldEnd.extent.display} / "
      ++ s!"{e.newEnd.extent.display} are inconsistent"

end Glr
