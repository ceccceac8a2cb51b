import Glr.Jcl.Scanner
import Glr.Proofs.Scanner.Steps

/-!
# Glr.Proofs.Jcl.DataLines

In-stream data is a run of whole lines that is as long as it can be:

```
line start ⟨─ line ─⟩ ⟨─ line ─⟩ … ⟨─ line ─⟩ end of the text, or a line that ends data
```

No line of it ends data, and its first line is not blank.  There is at most one such run at an
offset (`Lines.unique`), and the scanner finds data exactly where there is one.
-/

namespace Glr.Jcl

/-- What the scanner finds at an offset: the token, where it ends, and what the scanner remembers
from there on. -/
def scanned? (text : Bytes) (start : Nat) (valid : List Bool) (state : ScannerState) :
    Option (Nat × Nat × ScannerState) :=
  (scan (.begin text start) valid state).1.map fun found =>
    (found.token, found.cursor.tokenEnd, found.state)

/-- One of the tokens of the scanner is asked for. -/
def Asks (valid : List Bool) (token : Nat) : Prop := valid[token]? = some true

/-- The delimiter that ends data, given what the scanner remembers. -/
def activeDelimiter (state : ScannerState) : Bytes :=
  if state.isEmpty then defaultDelimiter else state

/-- The line at an offset ends data: with the delimiter, or as a statement where none was set. -/
def EndsData (text : Bytes) (state : ScannerState) (p : Nat) : Prop :=
  text.hasAt (activeDelimiter state) p = true ∨
    state.isEmpty = true ∧ text.hasAt statementStart p = true

/-- Only blanks are left in the line from an offset on. -/
def BlankFrom (text : Bytes) (p : Nat) : Prop :=
  ∃ q, p ≤ q ∧ (text[q]? = none ∨ text[q]? = some lineFeed) ∧
    ∀ r, p ≤ r → r < q → ∃ b, text[r]? = some b ∧ isBlank b = true

/-- Lines of data from one offset to another, up to where data ends. -/
structure Lines (text : Bytes) (state : ScannerState) (p q : Nat) : Prop where
  le : p ≤ q
  whole : q = text.size ∨ text.LineStart q
  data : ∀ r, p ≤ r → r < q → text.LineStart r → ¬EndsData text state r
  maximal : q = text.size ∨ EndsData text state q

/-- A token of in-stream data from one offset to another. -/
structure DataRun (text : Bytes) (state : ScannerState) (start stop : Nat) : Prop
    extends Lines text state start stop where
  lineStart : text.LineStart start
  nonempty : start < stop
  notBlank : ¬BlankFrom text start

variable {text : Bytes} {state : ScannerState} {c : ScanCursor} {p q : Nat}

/-! ## Lines of data -/

theorem Lines.fits (h : Lines text state p q) : q ≤ text.size :=
  h.whole.elim Nat.le_of_eq Bytes.LineStart.le_size

theorem Lines.nil (hwhole : p = text.size ∨ text.LineStart p)
    (hends : p = text.size ∨ EndsData text state p) : Lines text state p p :=
  ⟨Nat.le_refl _, hwhole, fun _ hr hlt _ => absurd hr (Nat.not_le.mpr hlt), hends⟩

/-- One more line in front. -/
theorem Lines.cons {m : Nat} (hline : text.RestOfLine p m) (hdata : ¬EndsData text state p)
    (h : Lines text state m q) : Lines text state p q := by
  refine ⟨Nat.le_trans (Nat.le_of_lt hline.lt) h.le, h.whole, fun r hr hlt hstart => ?_, h.maximal⟩
  rcases Nat.eq_or_lt_of_le hr with rfl | hr
  · exact hdata
  · exact h.data r (Nat.le_of_not_lt fun hrm => hline.within r hr hrm hstart) hlt hstart

/-- Data from an offset ends at one place only. -/
theorem Lines.unique {q' : Nat} (h : Lines text state p q) (h' : Lines text state p q') :
    q = q' := by
  -- The shorter one would stop at a line that ends data, which the longer one has none of.
  have hle : ∀ {q q'}, Lines text state p q → Lines text state p q' → ¬q < q' := by
    intro q q' h h' hlt
    have hsize : q ≠ text.size := Nat.ne_of_lt (Nat.lt_of_lt_of_le hlt h'.fits)
    exact h'.data q h.le hlt (h.whole.resolve_left hsize) (h.maximal.resolve_left hsize)
  exact Nat.le_antisymm (Nat.le_of_not_lt (hle h' h)) (Nat.le_of_not_lt (hle h h'))

/-! ## Blank lines -/

theorem blankFrom_of_stop (h : text[p]? = none ∨ text[p]? = some lineFeed) : BlankFrom text p :=
  ⟨p, Nat.le_refl _, h, fun _ hr hlt => absurd hr (Nat.not_le.mpr hlt)⟩

theorem blankFrom_iff_of_byte {b : UInt8} (h : text[p]? = some b) (hfeed : b ≠ lineFeed) :
    BlankFrom text p ↔ isBlank b = true ∧ BlankFrom text (p + 1) := by
  constructor
  · rintro ⟨q, hpq, hstop, hblank⟩
    have hlt : p < q := by
      refine Nat.lt_of_le_of_ne hpq fun heq => ?_
      subst heq
      simp [h, hfeed] at hstop
    obtain ⟨b', hb', hb⟩ := hblank p (Nat.le_refl _) hlt
    obtain rfl := Option.some.inj (h.symm.trans hb')
    exact ⟨hb, q, hlt, hstop, fun r hr => hblank r (Nat.le_of_succ_le hr)⟩
  · rintro ⟨hb, q, hpq, hstop, hblank⟩
    refine ⟨q, Nat.le_of_succ_le hpq, hstop, fun r hr hlt => ?_⟩
    rcases Nat.eq_or_lt_of_le hr with rfl | hr
    · exact ⟨b, h, hb⟩
    · exact hblank r hr hlt

theorem isBlankFrom_succ (fuel offset : Nat) (c : ScanCursor) :
    isBlankFrom (fuel + 1) offset c =
      match c.text[c.position + offset]? with
      | none => (true, (c.peek offset).2)
      | some b =>
        if b = lineFeed then (true, (c.peek offset).2)
        else if isBlank b then isBlankFrom fuel (offset + 1) (c.peek offset).2
        else (false, (c.peek offset).2) := by
  rw [isBlankFrom, show c.peek offset = (c.text[c.position + offset]?, (c.peek offset).2) from rfl]
  cases c.text[c.position + offset]? <;> rfl

theorem looked_isBlankFrom (fuel offset : Nat) (c : ScanCursor) :
    c.Looked (isBlankFrom fuel offset c).2 := by
  induction fuel generalizing offset c with
  | zero => exact .refl c
  | succ fuel ih =>
    have hpeek := c.looked_peek offset
    rw [isBlankFrom_succ]
    split
    · exact hpeek
    · split
      · exact hpeek
      · split
        · exact hpeek.trans (ih (offset + 1) _)
        · exact hpeek

theorem isBlankFrom_iff (offset : Nat) {fuel : Nat}
    (hfuel : c.text.size - (c.position + offset) < fuel) :
    (isBlankFrom fuel offset c).1 = true ↔ BlankFrom c.text (c.position + offset) := by
  induction fuel generalizing offset c with
  | zero => exact absurd hfuel (Nat.not_lt_zero _)
  | succ fuel ih =>
    rw [isBlankFrom_succ]
    cases hb : c.text[c.position + offset]? with
    | none => simp [blankFrom_of_stop (.inl hb)]
    | some b =>
      have hlt := (Array.getElem?_eq_some_iff.mp hb).1
      by_cases hfeed : b = lineFeed
      · subst hfeed
        simp [blankFrom_of_stop (.inr hb)]
      · rw [blankFrom_iff_of_byte hb hfeed]
        simp only [hfeed, if_false]
        by_cases hblank : isBlank b = true
        · simp only [hblank, if_true, true_and]
          exact ih (offset + 1) (c := (c.peek offset).2) (by simp only [ScanCursor.peek]; omega)
        · simp [hblank]

/-- Whether the line at the cursor is blank. -/
def isBlankLine (c : ScanCursor) : Bool × ScanCursor := isBlankFrom (c.text.size + 1) 0 c

theorem looked_isBlankLine (c : ScanCursor) : c.Looked (isBlankLine c).2 := looked_isBlankFrom _ 0 c

theorem isBlankLine_iff : (isBlankLine c).1 = true ↔ BlankFrom c.text c.position :=
  isBlankFrom_iff 0 (by omega)

/-! ## Passing lines -/

theorem dataEnds_eq (delimiter : Bytes) (statements : Bool) (c : ScanCursor) :
    dataEnds delimiter statements c =
      if c.atEnd then (true, c)
      else if (c.startsWith delimiter).1 then (true, (c.startsWith delimiter).2)
      else if statements then (c.startsWith delimiter).2.startsWith statementStart
      else (false, (c.startsWith delimiter).2) := by
  unfold dataEnds
  obtain ⟨found, d⟩ := c.startsWith delimiter
  cases found <;> rfl

theorem looked_dataEnds (delimiter : Bytes) (statements : Bool) (c : ScanCursor) :
    c.Looked (dataEnds delimiter statements c).2 := by
  have hdelimiter := c.looked_startsWith delimiter
  rw [dataEnds_eq]
  split
  · exact .refl c
  · split
    · exact hdelimiter
    · split
      · exact hdelimiter.trans (ScanCursor.looked_startsWith _ statementStart)
      · exact hdelimiter

theorem dataEnds_iff (state : ScannerState) (c : ScanCursor) :
    (dataEnds (activeDelimiter state) state.isEmpty c).1 = true ↔
      c.text.size ≤ c.position ∨ EndsData c.text state c.position := by
  unfold dataEnds EndsData
  by_cases hend : c.text.size ≤ c.position
  · simp [ScanCursor.atEnd, hend]
  · by_cases hdelimiter : c.text.hasAt (activeDelimiter state) c.position = true
    · simp [ScanCursor.atEnd, ScanCursor.startsWith, hend, hdelimiter]
    · by_cases hstate : state.isEmpty = true
      · simp [ScanCursor.atEnd, ScanCursor.startsWith, hend, hdelimiter, hstate]
      · simp [ScanCursor.atEnd, ScanCursor.startsWith, hend, hdelimiter, hstate]

/-- A line that does not end data is passed, and the token ends behind it. -/
theorem restOfLine_of_dataEnds {delimiter : Bytes} {statements : Bool}
    (h : (dataEnds delimiter statements c).1 = false) :
    c.text.RestOfLine c.position
      (dataEnds delimiter statements c).2.advanceLine.markEnd.position := by
  have hlooked := looked_dataEnds delimiter statements c
  have hlt : c.position < c.text.size := by
    refine Nat.lt_of_not_le fun hend => ?_
    simp [dataEnds, ScanCursor.atEnd, hend] at h
  have := ScanCursor.restOfLine_advanceLine (c := (dataEnds delimiter statements c).2)
    (by rwa [hlooked.text, hlooked.position])
  rwa [hlooked.text, hlooked.position] at this

section

variable {delimiter : Bytes} {statements : Bool} {fuel count : Nat}

theorem dataLines_of_ends (h : (dataEnds delimiter statements c).1 = true) :
    dataLines delimiter statements (fuel + 1) count c =
      (count, (dataEnds delimiter statements c).2) := by
  rw [dataLines]
  generalize dataEnds delimiter statements c = after at h ⊢
  obtain ⟨ends, d⟩ := after
  obtain rfl : ends = true := h
  rfl

theorem dataLines_of_data (h : (dataEnds delimiter statements c).1 = false) :
    dataLines delimiter statements (fuel + 1) count c =
      dataLines delimiter statements fuel (count + 1)
        (dataEnds delimiter statements c).2.advanceLine.markEnd := by
  rw [dataLines]
  generalize dataEnds delimiter statements c = after at h ⊢
  obtain ⟨ends, d⟩ := after
  obtain rfl : ends = false := h
  rfl

theorem onward_dataLines : c.Onward (dataLines delimiter statements fuel count c).2 := by
  induction fuel generalizing count c with
  | zero => exact .refl c
  | succ fuel ih =>
    have hends := (looked_dataEnds delimiter statements c).onward
    cases h : (dataEnds delimiter statements c).1 with
    | true =>
      rw [dataLines_of_ends h]
      exact hends
    | false =>
      rw [dataLines_of_data h]
      exact hends.trans (((ScanCursor.onward_advanceLine _).trans
        (ScanCursor.Call.markEnd.onward _)).trans ih)

/-- Where lines were passed, the last call was to end the token. -/
theorem mark_dataLines (hmark : c.mark = some c.position) :
    (dataLines delimiter statements fuel count c).2.mark =
      some (dataLines delimiter statements fuel count c).2.position := by
  induction fuel generalizing count c with
  | zero => exact hmark
  | succ fuel ih =>
    have hlooked := looked_dataEnds delimiter statements c
    cases h : (dataEnds delimiter statements c).1 with
    | true =>
      rw [dataLines_of_ends h, hlooked.mark, hlooked.position]
      exact hmark
    | false =>
      rw [dataLines_of_data h]
      exact ih rfl

theorem le_dataLines : count ≤ (dataLines delimiter statements fuel count c).1 := by
  induction fuel generalizing count c with
  | zero => exact Nat.le_refl _
  | succ fuel ih =>
    cases h : (dataEnds delimiter statements c).1 with
    | true => exact Nat.le_of_eq (by rw [dataLines_of_ends h])
    | false =>
      rw [dataLines_of_data h]
      exact Nat.le_of_succ_le ih

/-- Where the first line does not end data, there are lines, and the token ends behind them. -/
theorem passed_dataLines (fuel : Nat) (h : (dataEnds delimiter statements c).1 = false) :
    let after := dataLines delimiter statements (fuel + 1) 0 c
    0 < after.1 ∧ c.position < after.2.position ∧ after.2.tokenEnd = after.2.position := by
  have hlt := (restOfLine_of_dataEnds h).lt
  simp only [dataLines_of_data h]
  refine ⟨le_dataLines, Nat.lt_of_lt_of_le hlt onward_dataLines.position, ?_⟩
  rw [ScanCursor.tokenEnd, mark_dataLines rfl, Option.getD_some]

/-- From where a line starts, or the text ends, all lines of data are passed. -/
theorem lines_dataLines (state : ScannerState) (count : Nat)
    (hline : c.position = c.text.size ∨ c.text.LineStart c.position)
    (hfuel : c.text.size - c.position < fuel) :
    Lines c.text state c.position
      (dataLines (activeDelimiter state) state.isEmpty fuel count c).2.position := by
  induction fuel generalizing count c with
  | zero => exact absurd hfuel (Nat.not_lt_zero _)
  | succ fuel ih =>
    have hlooked := looked_dataEnds (activeDelimiter state) state.isEmpty c
    have hends := dataEnds_iff state c
    cases h : (dataEnds (activeDelimiter state) state.isEmpty c).1 with
    | true =>
      rw [dataLines_of_ends h, hlooked.position]
      have hle : c.position ≤ c.text.size := hline.elim Nat.le_of_eq Bytes.LineStart.le_size
      exact .nil hline ((hends.mp h).imp_left (Nat.le_antisymm hle))
    | false =>
      rw [dataLines_of_data h]
      -- The next round begins at the start of a line again, or at the end of the text.
      have hrest := restOfLine_of_dataEnds h
      have hlt := hrest.lt
      have hfits := hrest.fits
      generalize hd : (dataEnds (activeDelimiter state) state.isEmpty c).2.advanceLine.markEnd = d
        at hrest hlt hfits ⊢
      have htext : d.text = c.text := by
        rw [← hd]
        exact (ScanCursor.text_advanceLine _).trans hlooked.text
      have hmore := ih (count + 1) (c := d) (by rw [htext]; exact hrest.whole)
        (by rw [htext]; omega)
      rw [htext] at hmore
      refine .cons hrest (fun hdata => ?_) hmore
      simp [hends.mpr (.inr hdata)] at h

end

/-! ## Tokens -/

section

variable {delimiter : Bytes}

theorem scanData_of_blank (h : (isBlankLine c).1 = true) :
    scanData delimiter c state = (none, []) := by
  rw [scanData, show isBlankFrom _ 0 c = isBlankLine c from rfl]
  generalize isBlankLine c = found at h ⊢
  obtain ⟨blank, d⟩ := found
  obtain rfl : blank = true := h
  rfl

theorem scanData_of_not_blank (h : (isBlankLine c).1 = false) :
    scanData delimiter c state =
      let lines := dataLines delimiter state.isEmpty (c.text.size + 1) 0 (isBlankLine c).2
      (if lines.1 > 0 then some ⟨dataLinesToken, lines.2, state⟩ else none,
        [dataReport lines.1]) := by
  rw [scanData, show isBlankFrom _ 0 c = isBlankLine c from rfl]
  generalize isBlankLine c = found at h ⊢
  obtain ⟨blank, d⟩ := found
  obtain rfl : blank = false := h
  rfl

/-- Data is found where the line is neither blank nor ends data. -/
theorem scanData_eq_some_iff {found : Scan} :
    (scanData delimiter c state).1 = some found ↔
      (isBlankLine c).1 = false ∧
        (dataEnds delimiter state.isEmpty (isBlankLine c).2).1 = false ∧
          found = ⟨dataLinesToken, (dataLines delimiter state.isEmpty (c.text.size + 1) 0
            (isBlankLine c).2).2, state⟩ := by
  cases hblank : (isBlankLine c).1 with
  | true => simp [scanData_of_blank hblank]
  | false =>
    rw [scanData_of_not_blank hblank]
    cases hends : (dataEnds delimiter state.isEmpty (isBlankLine c).2).1 with
    | true => simp [dataLines_of_ends hends]
    | false =>
      have hcount := (passed_dataLines c.text.size hends).1
      simp [hcount, eq_comm]

end

/-- At the start of a line the scanner finds the run of data there, if there is one. -/
theorem scanData_spec (state : ScannerState) (hline : c.text.LineStart c.position) :
    (∃ d, (scanData (activeDelimiter state) c state).1 = some ⟨dataLinesToken, d, state⟩ ∧
        DataRun c.text state c.position d.tokenEnd) ∨
      (scanData (activeDelimiter state) c state).1 = none ∧
        ∀ stop, ¬DataRun c.text state c.position stop := by
  have hlooked := looked_isBlankLine c
  have hblank := isBlankLine_iff (c := c)
  have hends := dataEnds_iff state (isBlankLine c).2
  rw [hlooked.text, hlooked.position] at hends
  by_cases hdata : (isBlankLine c).1 = false ∧
      (dataEnds (activeDelimiter state) state.isEmpty (isBlankLine c).2).1 = false
  · have hfound := scanData_eq_some_iff.mpr ⟨hdata.1, hdata.2, rfl⟩
    have hfuel : (isBlankLine c).2.text.size - (isBlankLine c).2.position < c.text.size + 1 := by
      rw [hlooked.text]
      omega
    have hlines := lines_dataLines state 0 (.inr (by rwa [hlooked.text, hlooked.position])) hfuel
    obtain ⟨-, hlt, htokenEnd⟩ := passed_dataLines c.text.size hdata.2
    rw [hlooked.text, hlooked.position] at hlines
    rw [hlooked.position] at hlt
    refine .inl ⟨_, hfound, ?_⟩
    rw [htokenEnd]
    exact ⟨hlines, hline, hlt, fun hb => by simp [hblank.mpr hb] at hdata⟩
  · refine .inr ⟨Option.eq_none_iff_forall_ne_some.mpr fun found hfound => ?_, fun stop hrun => ?_⟩
    · obtain ⟨h₀, h₁, -⟩ := scanData_eq_some_iff.mp hfound
      exact hdata ⟨h₀, h₁⟩
    · refine hdata ⟨Bool.eq_false_iff.mpr (mt hblank.mp hrun.notBlank),
        Bool.eq_false_iff.mpr fun h => ?_⟩
      rcases hends.mp h with hend | hends
      · exact absurd (Nat.lt_of_lt_of_le hrun.nonempty hrun.fits) (Nat.not_lt.mpr hend)
      · exact hrun.data _ (Nat.le_refl _) hrun.nonempty hline hends

section

variable {start stop : Nat} {valid : List Bool} {new : ScannerState}

theorem getD_eq_true_iff {token : Nat} : valid[token]?.getD false = true ↔ Asks valid token := by
  unfold Asks
  cases valid[token]? <;> simp

theorem size_activeDelimiter_pos (state : ScannerState) : 0 < (activeDelimiter state).size := by
  unfold activeDelimiter
  split
  · decide
  · rename_i h
    simpa [Nat.pos_iff_ne_zero] using h

/-- Whether the delimiter is asked for and stands at the cursor. -/
def delimiterAt (valid : List Bool) (state : ScannerState) (c : ScanCursor) : Bool × ScanCursor :=
  if valid[delimiterToken]?.getD false then c.startsWith (activeDelimiter state) else (false, c)

theorem looked_delimiterAt (valid : List Bool) (state : ScannerState) (c : ScanCursor) :
    c.Looked (delimiterAt valid state c).2 := by
  unfold delimiterAt
  split
  · exact c.looked_startsWith _
  · exact .refl c

theorem delimiterAt_iff :
    (delimiterAt valid state c).1 = true ↔
      Asks valid delimiterToken ∧ c.text.hasAt (activeDelimiter state) c.position = true := by
  unfold delimiterAt
  rw [← getD_eq_true_iff]
  split
  · rename_i hasks
    simp [hasks, ScanCursor.startsWith]
  · rename_i hasks
    simp [hasks]

/-- Behind the delimiter the cursor has passed just that. -/
theorem advanceBy_delimiterAt (h : (delimiterAt valid state c).1 = true) :
    (delimiterAt valid state c).2.advanceBy (activeDelimiter state).size =
      { (delimiterAt valid state c).2 with
        position := c.position + (activeDelimiter state).size } := by
  have hlooked := looked_delimiterAt valid state c
  have hfits := Bytes.add_size_le_of_hasAt (delimiterAt_iff.mp h).2 (size_activeDelimiter_pos state)
  rw [ScanCursor.advanceBy_eq (by rwa [hlooked.text, hlooked.position]), hlooked.position]

/-- At the start of a line the delimiter is tried before data. -/
theorem scan_of_lineStart (hvalue : ¬Asks valid dlmValueToken) (hline : c.atLineStart = true) :
    scan c valid state =
      let after := delimiterAt valid state c
      if after.1 then
        (some ⟨delimiterToken, after.2.advanceBy (activeDelimiter state).size, #[]⟩, [])
      else if valid[dataLinesToken]?.getD false then scanData (activeDelimiter state) after.2 state
      else (none, []) := by
  rw [← getD_eq_true_iff] at hvalue
  simp only [scan, hvalue, hline, if_false, Bool.not_true, Bool.false_eq_true]
  rfl

/-- Where the value of an operand is asked for, nothing else is looked for. -/
theorem scan_of_asks_value (h : Asks valid dlmValueToken) :
    scan c valid state =
      ((dlmValue? c).map fun found => ⟨dlmValueToken, found.2, found.1⟩, []) := by
  simp only [scan, getD_eq_true_iff.mpr h, if_true]

theorem scan_of_not_lineStart (hvalue : ¬Asks valid dlmValueToken) (h : ¬c.atLineStart = true) :
    scan c valid state = (none, []) := by
  rw [← getD_eq_true_iff] at hvalue
  simp [scan, hvalue, h]

theorem scanned?_of_asks_value (h : Asks valid dlmValueToken) :
    scanned? text start valid state =
      (dlmValue? (.begin text start)).map fun found =>
        (dlmValueToken, found.2.tokenEnd, found.1) := by
  simp only [scanned?, scan_of_asks_value h, Option.map_map, Function.comp_def]

theorem scanned?_of_not_lineStart (hvalue : ¬Asks valid dlmValueToken)
    (h : ¬text.LineStart start) : scanned? text start valid state = none := by
  rw [scanned?, scan_of_not_lineStart hvalue (mt ScanCursor.atLineStart_iff.mp h)]
  rfl

theorem scanned?_of_delimiter (hvalue : ¬Asks valid dlmValueToken) (hline : text.LineStart start)
    (hasks : Asks valid delimiterToken)
    (hat : text.hasAt (activeDelimiter state) start = true) :
    scanned? text start valid state =
      some (delimiterToken, start + (activeDelimiter state).size, #[]) := by
  have hfound := delimiterAt_iff (c := .begin text start).mpr ⟨hasks, hat⟩
  have hmark : (delimiterAt valid state (.begin text start)).2.mark = none :=
    (looked_delimiterAt valid state (.begin text start)).mark
  rw [scanned?, scan_of_lineStart hvalue (ScanCursor.atLineStart_iff.mpr hline)]
  simp only [hfound, if_true, advanceBy_delimiterAt hfound, Option.map_some, ScanCursor.tokenEnd,
    hmark]
  rfl

/-- At the start of a line without the delimiter the scanner finds data, if it is asked to and if
there is a run of it. -/
theorem scanned?_of_data (hvalue : ¬Asks valid dlmValueToken) (hline : text.LineStart start)
    (hdelimiter : ¬(Asks valid delimiterToken ∧ text.hasAt (activeDelimiter state) start = true)) :
    (∃ stop, scanned? text start valid state = some (dataLinesToken, stop, state) ∧
        Asks valid dataLinesToken ∧ DataRun text state start stop) ∨
      scanned? text start valid state = none ∧
        (Asks valid dataLinesToken → ∀ stop, ¬DataRun text state start stop) := by
  have hlooked := looked_delimiterAt valid state (.begin text start)
  replace hdelimiter := mt (delimiterAt_iff (c := .begin text start)).mp hdelimiter
  rw [scanned?, scan_of_lineStart hvalue (ScanCursor.atLineStart_iff.mpr hline)]
  generalize delimiterAt valid state (.begin text start) = after at hdelimiter hlooked ⊢
  have htext : after.2.text = text := hlooked.text
  have hposition : after.2.position = start := hlooked.position
  simp only [if_neg hdelimiter]
  by_cases hasks : Asks valid dataLinesToken
  · simp only [getD_eq_true_iff.mpr hasks, if_true]
    rcases scanData_spec state (c := after.2) (by rwa [htext, hposition]) with
      ⟨d, hfound, hrun⟩ | ⟨hnone, hruns⟩
    · rw [htext, hposition] at hrun
      exact .inl ⟨d.tokenEnd, by rw [hfound]; rfl, hasks, hrun⟩
    · rw [htext, hposition] at hruns
      exact .inr ⟨by rw [hnone]; rfl, fun _ => hruns⟩
  · rw [if_neg (mt getD_eq_true_iff.mp hasks)]
    exact .inr ⟨rfl, fun h => absurd h hasks⟩

/-- Where the active delimiter stands, there is no data. -/
theorem DataRun.not_hasAt (h : DataRun text state start stop) :
    ¬text.hasAt (activeDelimiter state) start = true :=
  fun hat => h.data start (Nat.le_refl _) h.nonempty h.lineStart (.inl hat)

/-- Data that is found is the run of data at the offset, and is found wherever there is one; the
scanner remembers what it did.  A delimiter that is found is the active one at the start of a line,
and is found wherever it stands; the scanner then remembers nothing. -/
theorem scanned?_exact (text : Bytes) (start : Nat) (valid : List Bool) (state : ScannerState)
    (stop : Nat) (new : ScannerState) :
    (scanned? text start valid state = some (dataLinesToken, stop, new) ↔
      ¬Asks valid dlmValueToken ∧ Asks valid dataLinesToken ∧ DataRun text state start stop ∧
        new = state) ∧
    (scanned? text start valid state = some (delimiterToken, stop, new) ↔
      ¬Asks valid dlmValueToken ∧ Asks valid delimiterToken ∧ text.LineStart start ∧
        text.hasAt (activeDelimiter state) start = true ∧
        stop = start + (activeDelimiter state).size ∧ new = #[]) := by
  by_cases hvalue : Asks valid dlmValueToken
  · rw [scanned?_of_asks_value hvalue]
    exact ⟨⟨fun h => by simp [dlmValueToken, dataLinesToken] at h, fun h => absurd hvalue h.1⟩,
      ⟨fun h => by simp [dlmValueToken, delimiterToken] at h, fun h => absurd hvalue h.1⟩⟩
  by_cases hline : text.LineStart start
  · by_cases hdelimiter :
        Asks valid delimiterToken ∧ text.hasAt (activeDelimiter state) start = true
    · obtain ⟨hasks, hat⟩ := hdelimiter
      rw [scanned?_of_delimiter hvalue hline hasks hat]
      refine ⟨⟨fun h => by simp [delimiterToken, dataLinesToken] at h,
        fun h => absurd hat h.2.2.1.not_hasAt⟩, ?_⟩
      simp [hvalue, hasks, hline, hat, eq_comm]
    · rcases scanned?_of_data hvalue hline hdelimiter with
        ⟨stop', hfound, hasks, hrun⟩ | ⟨hnone, hruns⟩
      · rw [hfound]
        refine ⟨?_, by simp [delimiterToken, dataLinesToken], ?_⟩
        · simp only [Option.some.injEq, Prod.mk.injEq, true_and]
          refine ⟨?_, ?_⟩
          · rintro ⟨rfl, rfl⟩
            exact ⟨hvalue, hasks, hrun, rfl⟩
          · rintro ⟨-, -, hrun', rfl⟩
            exact ⟨hrun.toLines.unique hrun'.toLines, rfl⟩
        · exact fun h => absurd ⟨h.2.1, h.2.2.2.1⟩ hdelimiter
      · rw [hnone]
        exact ⟨⟨nofun, fun h => absurd h.2.2.1 (hruns h.2.1 stop)⟩,
          ⟨nofun, fun h => absurd ⟨h.2.1, h.2.2.2.1⟩ hdelimiter⟩⟩
  · rw [scanned?_of_not_lineStart hvalue hline]
    exact ⟨⟨nofun, fun h => absurd h.2.2.1.lineStart hline⟩, ⟨nofun, fun h => absurd h.2.2.1 hline⟩⟩

end

end Glr.Jcl
