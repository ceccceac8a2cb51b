import Glr.Scanner.Basic

/-!
# Glr.Proofs.Scanner.Observed

What a scanner learns of a text through its cursor.  A call that answers with a byte, or with the
end of the text in its place, raises `examined` beyond it, so that a text with the same bytes below
`examinedEnd` answers the same:

```
text    ⟨─── the same ───⟩ examinedEnd ⟨─── anything ───⟩
```

Two calls tell where the text ends and leave `examined` as it is: `atEnd` answers it, and `advance`
stays where it is.  They tell it of the byte at the cursor, which no other call may have looked at,
and where that is the byte at `examinedEnd` the texts also have to agree on whether they end there.
-/

namespace Glr

/-- Two texts have the same bytes below an offset; where one ends, the other does too. -/
def Bytes.AgreeBelow (stop : Nat) (text other : Bytes) : Prop := ∀ i < stop, text[i]? = other[i]?

namespace Bytes.AgreeBelow

variable {text other part : Bytes} {i start stop : Nat}

theorem mono {stop' : Nat} (h : AgreeBelow stop text other) (hle : stop' ≤ stop) :
    AgreeBelow stop' text other :=
  fun i hi => h i (Nat.lt_of_lt_of_le hi hle)

theorem lt_size_iff (h : AgreeBelow stop text other) (hi : i < stop) :
    i < text.size ↔ i < other.size := by
  rw [← Nat.not_le, ← Nat.not_le, ← Array.getElem?_eq_none_iff, ← Array.getElem?_eq_none_iff,
    h i hi]

/-- Texts that agree beyond the end of one of them are one. -/
theorem eq_of_size_lt (h : AgreeBelow stop text other) (hsize : text.size < stop) :
    text = other := by
  have hother : other.size ≤ text.size := by
    rw [← Array.getElem?_eq_none_iff, ← h _ hsize]
    exact Array.getElem?_eq_none (Nat.le_refl _)
  refine Array.ext_getElem? fun i => ?_
  rcases Nat.lt_or_ge i stop with hi | hi
  · exact h i hi
  · rw [Array.getElem?_eq_none (by omega), Array.getElem?_eq_none (by omega)]

theorem hasAt_eq (h : AgreeBelow (start + part.size) text other) :
    other.hasAt part start = text.hasAt part start := by
  rw [Bool.eq_iff_iff, hasAt_iff, hasAt_iff]
  exact forall₂_congr fun i hi => by rw [h (start + i) (by omega)]

theorem lineFeedFrom?_eq (h : AgreeBelow (i + 1) text other)
    (hi : text.lineFeedFrom? start = some i) : other.lineFeedFrom? start = some i := by
  obtain ⟨hle, hfeed, hfirst⟩ := lineFeedFrom?_eq_some hi
  cases hj : other.lineFeedFrom? start with
  | none => exact absurd (h i (Nat.lt_succ_self i) ▸ hfeed) (lineFeedFrom?_eq_none_iff.mp hj i hle)
  | some j =>
    obtain ⟨hle', hfeed', hfirst'⟩ := lineFeedFrom?_eq_some hj
    rcases Nat.lt_trichotomy j i with hlt | rfl | hlt
    · exact absurd (h j (by omega) ▸ hfeed') (hfirst j hle' hlt)
    · rfl
    · exact absurd (h i (Nat.lt_succ_self i) ▸ hfeed) (hfirst' i hle hlt)

end Bytes.AgreeBelow

namespace ScanCursor

/-! ## Calls -/

/-- What a scanner may do with a cursor. -/
inductive Call where
  | lookahead
  | peek (offset : Nat)
  | startsWith (part : Bytes)
  | advance
  | advanceLine
  | markEnd
  | atLineStart
  | atEnd
  | consumed

/-- What a scanner is told. -/
inductive Answer where
  | byte (found : Option UInt8)
  | flag (holds : Bool)
  | count (n : Nat)
  /-- Nothing, where the cursor only moves. -/
  | done
  deriving DecidableEq

/-- The answer to a call, and the cursor after it. -/
def Call.run : Call → ScanCursor → Answer × ScanCursor
  | .lookahead, c => (.byte c.lookahead.1, c.lookahead.2)
  | .peek offset, c => (.byte (c.peek offset).1, (c.peek offset).2)
  | .startsWith part, c => (.flag (c.startsWith part).1, (c.startsWith part).2)
  | .advance, c => (.done, c.advance)
  | .advanceLine, c => (.done, c.advanceLine)
  | .markEnd, c => (.done, c.markEnd)
  | .atLineStart, c => (.flag c.atLineStart, c)
  | .atEnd, c => (.flag c.atEnd, c)
  | .consumed, c => (.count c.consumed, c)

/-- The answers to calls one after another, and the cursor after the last of them. -/
def runCalls : List Call → ScanCursor → List Answer × ScanCursor
  | [], c => ([], c)
  | call :: rest, c =>
    let after := runCalls rest (call.run c).2
    ((call.run c).1 :: after.1, after.2)

/-- The same place in another text. -/
def onText (c : ScanCursor) (text : Bytes) : ScanCursor := { c with text := text }

/-- Whether a call tells if the text ends at the cursor, and does not mark that as examined. -/
def Call.tellsEnd : Call → Bool
  | .advance | .atEnd => true
  | _ => false

/-- One of some calls tells of a place whether the text ends there. -/
def TellsEndAt (place : Nat) : List Call → ScanCursor → Prop
  | [], _ => False
  | call :: rest, c =>
    (call.tellsEnd = true ∧ c.position = place) ∨ TellsEndAt place rest (call.run c).2

variable {c : ScanCursor} {call : Call} {calls : List Call} {text : Bytes}

/-! ## One call -/

theorem position_advance (c : ScanCursor) :
    c.advance.position = if c.position < c.text.size then c.position + 1 else c.position := by
  unfold advance
  split <;> rfl

theorem Call.text_run (call : Call) (c : ScanCursor) : (call.run c).2.text = c.text := by
  cases call with
  | advance => simp only [run, ScanCursor.advance]; split <;> rfl
  | advanceLine => simp only [run, ScanCursor.advanceLine]; split <;> rfl
  | _ => rfl

theorem Call.position_le_run (call : Call) (c : ScanCursor) :
    c.position ≤ (call.run c).2.position := by
  cases call with
  | advance => exact position_le_advance c
  | advanceLine =>
    simp only [run, ScanCursor.advanceLine]
    split
    · rename_i i hi
      exact Nat.le_succ_of_le (Bytes.lineFeedFrom?_eq_some hi).1
    · exact Nat.le_max_left _ _
  | _ => exact Nat.le_refl _

theorem Call.examined_le_run (call : Call) (c : ScanCursor) :
    c.examined ≤ (call.run c).2.examined := by
  cases call with
  | lookahead => exact examined_le_peek c 0
  | peek offset => exact examined_le_peek c offset
  | startsWith part => exact examined_le_startsWith c part
  | advance => simp only [run, ScanCursor.advance]; split <;> exact Nat.le_refl _
  | advanceLine => exact examined_le_advanceLine c
  | _ => exact Nat.le_refl _

theorem Call.examinedEnd_le_run (call : Call) (c : ScanCursor) :
    c.examinedEnd ≤ (call.run c).2.examinedEnd :=
  Nat.max_le.mpr ⟨Nat.le_trans (call.examined_le_run c) (Nat.le_max_left _ _),
    Nat.le_trans (call.position_le_run c) (Nat.le_max_right _ _)⟩

theorem position_le_examinedEnd (c : ScanCursor) : c.position ≤ c.examinedEnd :=
  Nat.le_max_right _ _

/-- A call on a text that is the same as far as the call looks, and that ends at the cursor if the
call tells so. -/
theorem Call.run_onText (h : Bytes.AgreeBelow (call.run c).2.examinedEnd c.text text)
    (hend : call.tellsEnd = true → (c.position < c.text.size ↔ c.position < text.size)) :
    call.run (c.onText text) = ((call.run c).1, (call.run c).2.onText text) := by
  cases call with
  | lookahead | peek =>
    refine Prod.ext (congrArg Answer.byte (h _ ?_).symm) rfl
    exact Nat.lt_of_lt_of_le (Nat.lt_succ_self _) (Nat.le_trans (Nat.le_max_right _ _)
      (Nat.le_max_left _ _))
  | startsWith part =>
    refine Prod.ext (congrArg Answer.flag (Bytes.AgreeBelow.hasAt_eq (h.mono ?_))) rfl
    exact Nat.le_trans (Nat.le_max_right _ _) (Nat.le_max_left _ _)
  | advance =>
    by_cases hlt : c.position < c.text.size
    · have hlt' := (hend rfl).mp hlt
      simp [run, ScanCursor.advance, onText, hlt, hlt']
    · have hlt' : ¬c.position < text.size := fun hlt' => hlt ((hend rfl).mpr hlt')
      simp [run, ScanCursor.advance, onText, hlt, hlt']
  | advanceLine =>
    refine Prod.ext rfl ?_
    simp only [run, ScanCursor.advanceLine] at h ⊢
    cases hfeed : c.text.lineFeedFrom? c.position with
    | some i =>
      rw [hfeed] at h
      have hfeed' : text.lineFeedFrom? c.position = some i :=
        Bytes.AgreeBelow.lineFeedFrom?_eq (h.mono (Nat.le_max_right _ _)) hfeed
      simp only [onText, hfeed']
    | none =>
      -- the rest of the line ends with the text, which was looked at to its end
      rw [hfeed] at h
      obtain rfl := Bytes.AgreeBelow.eq_of_size_lt h (Nat.lt_of_lt_of_le
        (Nat.lt_succ_of_le (Nat.le_max_right _ _))
        (Nat.le_trans (Nat.le_max_right _ _) (Nat.le_max_left _ _)))
      simp only [onText, hfeed]
  | markEnd | consumed => rfl
  | atLineStart =>
    refine Prod.ext (congrArg Answer.flag ?_) rfl
    unfold ScanCursor.atLineStart
    cases hposition : c.position with
    | zero => simp [onText, hposition]
    | succ p =>
      have : c.text[p]? = text[p]? := h p (by
        have := position_le_examinedEnd c
        exact Nat.lt_of_lt_of_le (by omega) this)
      simp [onText, hposition, this]
  | atEnd =>
    refine Prod.ext (congrArg Answer.flag ?_) rfl
    simp only [ScanCursor.atEnd, onText, ge_iff_le, decide_eq_decide]
    rw [← Nat.not_lt, ← Nat.not_lt, hend rfl]

/-! ## All calls -/

theorem position_le_runCalls (calls : List Call) (c : ScanCursor) :
    c.position ≤ (runCalls calls c).2.position := by
  induction calls generalizing c with
  | nil => exact Nat.le_refl _
  | cons call rest ih => exact Nat.le_trans (call.position_le_run c) (ih _)

theorem examinedEnd_le_runCalls (calls : List Call) (c : ScanCursor) :
    c.examinedEnd ≤ (runCalls calls c).2.examinedEnd := by
  induction calls generalizing c with
  | nil => exact Nat.le_refl _
  | cons call rest ih => exact Nat.le_trans (call.examinedEnd_le_run c) (ih _)

/-- Calls on another text answer the same if the texts agree wherever the calls look, and, where
the first text was only found to end or not to end, on that. -/
theorem runCalls_onText
    (h : Bytes.AgreeBelow (runCalls calls c).2.examinedEnd c.text text)
    (hend : TellsEndAt (runCalls calls c).2.examinedEnd calls c →
      ((runCalls calls c).2.examinedEnd < c.text.size ↔
        (runCalls calls c).2.examinedEnd < text.size)) :
    runCalls calls (c.onText text) = ((runCalls calls c).1, (runCalls calls c).2.onText text) := by
  induction calls generalizing c with
  | nil => rfl
  | cons call rest ih =>
    have hle := examinedEnd_le_runCalls rest (call.run c).2
    have hhead : call.run (c.onText text) = ((call.run c).1, (call.run c).2.onText text) := by
      refine Call.run_onText (h.mono hle) fun htells => ?_
      have hposition : c.position ≤ (runCalls (call :: rest) c).2.examinedEnd :=
        Nat.le_trans (position_le_examinedEnd c) (examinedEnd_le_runCalls (call :: rest) c)
      rcases Nat.lt_or_eq_of_le hposition with hlt | heq
      · exact h.lt_size_iff hlt
      · rw [heq]
        exact hend (.inl ⟨htells, heq⟩)
    have hrest := ih (c := (call.run c).2) (by rw [call.text_run]; exact h) fun htells => by
      rw [call.text_run]
      exact hend (.inr htells)
    simp only [runCalls, hhead, hrest]

/-- Two runs answer the same and leave the cursor at the same place, with the same mark and the same
end of what was examined. -/
structure SameRun (a b : List Answer × ScanCursor) : Prop where
  answers : a.1 = b.1
  position : a.2.position = b.2.position
  mark : a.2.mark = b.2.mark
  examinedEnd : a.2.examinedEnd = b.2.examinedEnd

/-- Where a call tells of the end of what all calls examine whether the text ends there, and the
calls answer the same on another text, this one ends there too or goes on as well. -/
theorem lt_size_iff_of_sameRun (h : Bytes.AgreeBelow (runCalls calls c).2.examinedEnd c.text text)
    (htells : TellsEndAt (runCalls calls c).2.examinedEnd calls c)
    (hsame : SameRun (runCalls calls (c.onText text)) (runCalls calls c)) :
    (runCalls calls c).2.examinedEnd < c.text.size ↔
      (runCalls calls c).2.examinedEnd < text.size := by
  induction calls generalizing c with
  | nil => exact htells.elim
  | cons call rest ih =>
    generalize hstop : (runCalls (call :: rest) c).2.examinedEnd = stop at *
    have hposition : c.position ≤ stop :=
      hstop ▸ Nat.le_trans (position_le_examinedEnd c) (examinedEnd_le_runCalls (call :: rest) c)
    by_cases hhere : call.tellsEnd = true ∧ c.position = stop
    · obtain ⟨hcall, rfl⟩ := hhere
      cases call with
      | atEnd =>
        have hanswer := (List.cons.inj hsame.answers).1
        simp only [Call.run, ScanCursor.atEnd, onText, Answer.flag.injEq, ge_iff_le] at hanswer
        have : text.size ≤ c.position ↔ c.text.size ≤ c.position := decide_eq_decide.mp hanswer
        omega
      | advance =>
        -- a step forward would have passed the end of what is examined
        have hlast : (runCalls rest c.advance).2.position ≤ c.position :=
          hstop ▸ position_le_examinedEnd (runCalls rest c.advance).2
        have hstep := position_le_runCalls rest c.advance
        have hstep' := position_le_runCalls rest (c.onText text).advance
        have hsame : (runCalls rest (c.onText text).advance).2.position =
          (runCalls rest c.advance).2.position := hsame.position
        rw [position_advance] at hstep hstep'
        have hhere : ¬c.position < c.text.size := fun hlt => by
          rw [if_pos hlt] at hstep
          omega
        have hthere : ¬c.position < text.size := fun hlt => by
          rw [if_pos (show (c.onText text).position < (c.onText text).text.size from hlt)] at hstep'
          have : (c.onText text).position = c.position := rfl
          omega
        exact iff_of_false hhere hthere
      | _ => contradiction
    · have hrun : call.run (c.onText text) = ((call.run c).1, (call.run c).2.onText text) :=
        Call.run_onText (h.mono (hstop ▸ examinedEnd_le_runCalls rest (call.run c).2)) fun hcall =>
          h.lt_size_iff (Nat.lt_of_le_of_ne hposition fun heq => hhere ⟨hcall, heq⟩)
      have hrest : SameRun (runCalls rest ((call.run c).2.onText text))
          (runCalls rest (call.run c).2) := by
        have hanswers := (List.cons.inj hsame.answers).2
        have hposition := hsame.position
        have hmark := hsame.mark
        have hexamined := hsame.examinedEnd
        simp only [runCalls, hrun] at hanswers hposition hmark hexamined
        exact ⟨hanswers, hposition, hmark, hexamined⟩
      have hstop : (runCalls rest (call.run c).2).2.examinedEnd = stop := hstop
      have := ih (c := (call.run c).2) (by rwa [hstop, call.text_run])
        (hstop ▸ htells.resolve_left hhere) hrest
      rwa [hstop, call.text_run] at this

/-- Calls on a cursor at the start of a token, made on two texts that agree below the end of what
the calls examine on the first one, have the same run exactly if the texts also agree on whether
they end there, in case that `atEnd` or `advance` told of that place.  With neither call there the
runs are the same. -/
theorem sameRun_iff {text text' : Bytes} {start : Nat} {calls : List Call}
    (h : Bytes.AgreeBelow (runCalls calls (begin text start)).2.examinedEnd text text') :
    SameRun (runCalls calls (begin text' start)) (runCalls calls (begin text start)) ↔
      let stop := (runCalls calls (begin text start)).2.examinedEnd
      TellsEndAt stop calls (begin text start) → (stop < text.size ↔ stop < text'.size) := by
  refine ⟨fun hsame htells => lt_size_iff_of_sameRun h htells hsame, fun hend => ?_⟩
  have hrun : runCalls calls (begin text' start) = _ :=
    runCalls_onText (c := begin text start) h hend
  rw [hrun]
  exact ⟨rfl, rfl, rfl, rfl⟩

/-- A line that is looked at to its line feed, and the question whether the text ends there: nothing
tells that the answer hangs on a byte at 2. -/
theorem sameRun_iff_lastLine :
    let calls := [.startsWith #[97], .advance, .markEnd, .startsWith #[10], .advance, .atEnd]
    Bytes.AgreeBelow (runCalls calls (begin #[97, 10] 0)).2.examinedEnd #[97, 10] #[97, 10, 98] ∧
      ¬SameRun (runCalls calls (begin #[97, 10, 98] 0)) (runCalls calls (begin #[97, 10] 0)) := by
  intro calls
  have h : Bytes.AgreeBelow (runCalls calls (begin #[97, 10] 0)).2.examinedEnd #[97, 10]
      #[97, 10, 98] := by
    unfold Bytes.AgreeBelow
    decide
  refine ⟨h, fun hsame => ?_⟩
  have htells : TellsEndAt (runCalls calls (begin #[97, 10] 0)).2.examinedEnd calls
      (begin #[97, 10] 0) := .inr (.inr (.inr (.inr (.inr (.inl ⟨rfl, rfl⟩)))))
  exact absurd ((sameRun_iff h).mp hsame htells) (by decide)

end ScanCursor

end Glr
