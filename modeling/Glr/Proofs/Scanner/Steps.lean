import Glr.Proofs.Scanner.Observed

/-!
# Glr.Proofs.Scanner.Steps

How a cursor moves.  Every call goes on in the same text and takes back nothing of what was
examined, so a reader that makes many calls does so, too:

* `ScanCursor.Looked` — the cursor has only looked, and stands where it stood;
* `ScanCursor.Onward` — the cursor may have moved, but not back.

A line is what lies between two offsets where lines start.  To pass the rest of a line is to come to
the first such offset behind the cursor, or to the end of the text.
-/

namespace Glr

namespace Bytes

variable {text : Bytes} {p q : Nat}

/-- A line starts at an offset: the text starts there, or the line before ends there. -/
def LineStart (text : Bytes) (p : Nat) : Prop := p = 0 ∨ text[p - 1]? = some lineFeed

/-- The line that an offset lies in goes on to another one. -/
structure RestOfLine (text : Bytes) (p q : Nat) : Prop where
  lt : p < q
  fits : q ≤ text.size
  whole : q = text.size ∨ text.LineStart q
  within : ∀ r, p < r → r < q → ¬text.LineStart r

theorem LineStart.le_size (h : text.LineStart p) : p ≤ text.size := by
  rcases h with rfl | h
  · exact Nat.zero_le _
  · have := (Array.getElem?_eq_some_iff.mp h).1
    omega

/-- What stands in a text and has bytes ends in the text, too. -/
theorem add_size_le_of_hasAt {part : Bytes} (h : text.hasAt part p = true) (hpart : 0 < part.size) :
    p + part.size ≤ text.size := by
  have hlast := hasAt_iff.mp h (part.size - 1) (by omega)
  rw [Array.getElem?_eq_getElem (show part.size - 1 < part.size by omega)] at hlast
  have := (Array.getElem?_eq_some_iff.mp hlast).1
  omega

end Bytes

namespace ScanCursor

variable {a b c d : ScanCursor} {other : Bytes}

/-! ## What calls keep -/

/-- One cursor has looked at more than another one, and is the same apart from that. -/
structure Looked (c d : ScanCursor) : Prop where
  text : d.text = c.text
  position : d.position = c.position
  mark : d.mark = c.mark
  examined : c.examined ≤ d.examined

/-- One cursor is where another one may get to. -/
structure Onward (c d : ScanCursor) : Prop where
  text : d.text = c.text
  position : c.position ≤ d.position
  examinedEnd : c.examinedEnd ≤ d.examinedEnd

theorem Looked.refl (c : ScanCursor) : c.Looked c := ⟨rfl, rfl, rfl, Nat.le_refl _⟩

theorem Looked.trans (h : a.Looked b) (h' : b.Looked c) : a.Looked c :=
  ⟨h'.text.trans h.text, h'.position.trans h.position, h'.mark.trans h.mark,
    Nat.le_trans h.examined h'.examined⟩

theorem Onward.refl (c : ScanCursor) : c.Onward c := ⟨rfl, Nat.le_refl _, Nat.le_refl _⟩

theorem Onward.trans (h : a.Onward b) (h' : b.Onward c) : a.Onward c :=
  ⟨h'.text.trans h.text, Nat.le_trans h.position h'.position,
    Nat.le_trans h.examinedEnd h'.examinedEnd⟩

theorem Looked.onward (h : c.Looked d) : c.Onward d := by
  refine ⟨h.text, Nat.le_of_eq h.position.symm, ?_⟩
  have := h.examined
  have := h.position
  unfold examinedEnd
  omega

theorem Call.onward (call : Call) (c : ScanCursor) : c.Onward (call.run c).2 :=
  ⟨call.text_run c, call.position_le_run c, call.examinedEnd_le_run c⟩

theorem looked_peek (c : ScanCursor) (offset : Nat) : c.Looked (c.peek offset).2 :=
  ⟨rfl, rfl, rfl, examined_le_peek c offset⟩

theorem looked_startsWith (c : ScanCursor) (part : Bytes) : c.Looked (c.startsWith part).2 :=
  ⟨rfl, rfl, rfl, examined_le_startsWith c part⟩

theorem onward_advanceLine (c : ScanCursor) : c.Onward c.advanceLine := Call.advanceLine.onward c

/-! ## Bytes -/

/-- The cursor behind a byte that it looked at. -/
def next (c : ScanCursor) : ScanCursor :=
  { c with position := c.position + 1, examined := max c.examined (c.position + 1) }

theorem advance_lookahead (h : c.position < c.text.size) : c.lookahead.2.advance = c.next := by
  simp [lookahead, peek, advance, next, h]

theorem onward_next (c : ScanCursor) : c.Onward c.next := by
  refine ⟨rfl, Nat.le_succ _, ?_⟩
  simp only [examinedEnd, next]
  omega

/-- The bytes from the cursor on. -/
def rest (c : ScanCursor) : List UInt8 := c.text.toList.drop c.position

theorem getElem?_of_rest {bytes : List UInt8} (h : c.rest = bytes) (i : Nat) :
    c.text[c.position + i]? = bytes[i]? := by
  rw [← h, rest, List.getElem?_drop, Array.getElem?_toList]

theorem rest_next {byte : UInt8} {bytes : List UInt8} (h : c.rest = byte :: bytes) :
    c.next.rest = bytes := by
  rw [rest] at h
  rw [rest, next, ← List.tail_drop, h, List.tail_cons]

/-- A byte that was looked at lies below everything that is examined later. -/
theorem Onward.lt_examinedEnd (offset : Nat) (h : (c.peek offset).2.Onward d) :
    c.position + offset < d.examinedEnd :=
  Nat.lt_of_lt_of_le (Nat.lt_of_lt_of_le (Nat.lt_succ_self _) (Nat.le_max_right _ _))
    (Nat.le_trans (Nat.le_max_left _ _) h.examinedEnd)

/-- So does a byte that was passed. -/
theorem Onward.position_lt_examinedEnd (h : c.next.Onward d) : c.position < d.examinedEnd :=
  Nat.lt_of_lt_of_le (Nat.lt_succ_self _)
    (Nat.le_trans h.position (position_le_examinedEnd d))

theorem advanceBy_eq {n : Nat} (h : c.position + n ≤ c.text.size) :
    c.advanceBy n = { c with position := c.position + n } := by
  induction n generalizing c with
  | zero => rfl
  | succ n ih =>
    have hlt : c.position < c.text.size := by omega
    have hadvance : c.advance = { c with position := c.position + 1 } := by simp [advance, hlt]
    rw [advanceBy, hadvance, ih (by simp only; omega)]
    simp only [Nat.add_assoc, Nat.add_comm 1 n]

theorem onward_advanceBy (c : ScanCursor) (n : Nat) : c.Onward (c.advanceBy n) := by
  induction n generalizing c with
  | zero => exact .refl c
  | succ n ih => exact (Call.advance.onward c).trans (ih c.advance)

/-! ## Lines -/

theorem atLineStart_iff : c.atLineStart = true ↔ c.text.LineStart c.position := by
  simp [atLineStart, Bytes.LineStart]

theorem restOfLine_advanceLine (h : c.position < c.text.size) :
    c.text.RestOfLine c.position c.advanceLine.position := by
  unfold advanceLine
  split
  · rename_i i hi
    obtain ⟨hle, hfeed, hfirst⟩ := Bytes.lineFeedFrom?_eq_some hi
    have hlt := (Array.getElem?_eq_some_iff.mp hfeed).1
    refine ⟨Nat.lt_succ_of_le hle, hlt, .inr (.inr hfeed), fun r hr hri hstart => ?_⟩
    rcases hstart with rfl | hstart
    · exact absurd hr (Nat.not_lt_zero _)
    · exact hfirst (r - 1) (by omega) (by simp only at hri; omega) hstart
  · rename_i hnone
    have hend : max c.position c.text.size = c.text.size := Nat.max_eq_right (Nat.le_of_lt h)
    simp only [hend]
    refine ⟨h, Nat.le_refl _, .inl rfl, fun r hr _ hstart => ?_⟩
    rcases hstart with rfl | hstart
    · exact absurd hr (Nat.not_lt_zero _)
    · exact Bytes.lineFeedFrom?_eq_none_iff.mp hnone (r - 1) (by omega) hstart

theorem text_advanceLine (c : ScanCursor) : c.advanceLine.text = c.text :=
  (onward_advanceLine c).text

/-! ## The same calls on another text -/

theorem startsWith_onText {part : Bytes}
    (h : Bytes.AgreeBelow (c.startsWith part).2.examinedEnd c.text other) :
    (c.onText other).startsWith part =
      ((c.startsWith part).1, (c.startsWith part).2.onText other) :=
  Prod.ext (Bytes.AgreeBelow.hasAt_eq (h.mono
    (Nat.le_trans (Nat.le_max_right _ _) (Nat.le_max_left _ _)))) rfl

theorem atLineStart_onText (h : Bytes.AgreeBelow c.examinedEnd c.text other) :
    (c.onText other).atLineStart = c.atLineStart := by
  have hrun : Call.atLineStart.run (c.onText other) =
      ((Call.atLineStart.run c).1, (Call.atLineStart.run c).2.onText other) :=
    Call.run_onText h (by simp [Call.tellsEnd])
  exact Answer.flag.inj (congrArg Prod.fst hrun)

theorem advanceLine_onText (h : Bytes.AgreeBelow c.advanceLine.examinedEnd c.text other) :
    (c.onText other).advanceLine = c.advanceLine.onText other := by
  have hrun : Call.advanceLine.run (c.onText other) =
      ((Call.advanceLine.run c).1, (Call.advanceLine.run c).2.onText other) :=
    Call.run_onText h (by simp [Call.tellsEnd])
  exact congrArg Prod.snd hrun

end ScanCursor

end Glr
