import Glr.Parse.Token
import Glr.Proofs.Jcl.DelimiterValue

/-!
# Glr.Proofs.Jcl.Recorded

A token of the scanner depends on nothing but the bytes that are recorded for it.  It records how
far beyond its end the text had a say in it, and in another text that is the same up to there

```
start ⟨─ token ─⟩ stop ⟨─ lookahead ─⟩ anything
```

the same token is found, with the same record and the same memory.  Each reader of the scanner
carries this over from the calls that it makes; that a run over lines also asks whether the text
ends, which the cursor does not record, does no harm, since it asks this at the start of a line that
it passes or at the end of the token.
-/

namespace Glr.Jcl

open Bytes (AgreeBelow)

variable {c d : ScanCursor} {other value v : Bytes} {b : UInt8} {n m : Nat}

/-! ## Values -/

/-- A quoted value that is read was read in one of three ways. -/
theorem quotedValue?_cases (h : quotedValue? n c value = some (v, d)) :
    ∃ fuel, n = fuel + 1 ∧
      (c.text[c.position]? = some quoteByte ∧ c.text[c.position + 1]? = some quoteByte ∧
          quotedValue? fuel c.next.next (value.push quoteByte) = some (v, d) ∨
        c.text[c.position]? = some quoteByte ∧ c.text[c.position + 1]? ≠ some quoteByte ∧
          v = value ∧ d = c.next.lookahead.2 ∨
        ∃ b, c.text[c.position]? = some b ∧ b ≠ lineFeed ∧ b ≠ quoteByte ∧
          quotedValue? fuel c.next (value.push b) = some (v, d)) := by
  cases n with
  | zero => simp [quotedValue?] at h
  | succ fuel =>
    refine ⟨fuel, rfl, ?_⟩
    cases hb : c.text[c.position]? with
    | none =>
      rw [quotedValue?_of_stop (.inl hb)] at h
      contradiction
    | some b =>
      by_cases hfeed : b = lineFeed
      · rw [quotedValue?_of_stop (.inr (hfeed ▸ hb))] at h
        contradiction
      · by_cases hquote : b = quoteByte
        · subst hquote
          by_cases hnext : c.text[c.position + 1]? = some quoteByte
          · rw [quotedValue?_of_quotes hb hnext] at h
            exact .inl ⟨rfl, hnext, h⟩
          · rw [quotedValue?_of_quote hb hnext] at h
            obtain ⟨rfl, rfl⟩ := Prod.mk.inj (Option.some.inj h)
            exact .inr (.inl ⟨rfl, hnext, rfl, rfl⟩)
        · rw [quotedValue?_of_byte hb hfeed hquote] at h
          exact .inr (.inr ⟨b, rfl, hfeed, hquote, h⟩)

theorem onward_quotedValue? (h : quotedValue? n c value = some (v, d)) : c.Onward d := by
  induction n generalizing c value with
  | zero => simp [quotedValue?] at h
  | succ n ih =>
    obtain ⟨fuel, hfuel, h⟩ := quotedValue?_cases h
    obtain rfl := Nat.succ.inj hfuel
    rcases h with ⟨-, -, h⟩ | ⟨-, -, -, rfl⟩ | ⟨b, -, -, -, h⟩
    · exact c.onward_next.trans (c.next.onward_next.trans (ih h))
    · exact c.onward_next.trans (c.next.looked_peek 0).onward
    · exact c.onward_next.trans (ih h)

theorem quotedValue?_onText (h : quotedValue? n c value = some (v, d))
    (hagree : AgreeBelow d.examinedEnd c.text other) (hm : other.size - c.position < m) :
    quotedValue? m (c.onText other) value = some (v, d.onText other) := by
  induction n generalizing c value m with
  | zero => simp [quotedValue?] at h
  | succ n ih =>
    obtain ⟨m, rfl⟩ : ∃ fuel, m = fuel + 1 := ⟨m - 1, by omega⟩
    obtain ⟨fuel, hfuel, h⟩ := quotedValue?_cases h
    obtain rfl := Nat.succ.inj hfuel
    rcases h with ⟨h₀, h₁, h⟩ | ⟨h₀, h₁, rfl, rfl⟩ | ⟨b, h₀, hfeed, hquote, h⟩
    · have honward := onward_quotedValue? h
      rw [hagree _ (c.next.onward_next.trans honward).position_lt_examinedEnd] at h₀
      rw [hagree (c.position + 1) honward.position_lt_examinedEnd] at h₁
      have hlt := (Array.getElem?_eq_some_iff.mp h₀).1
      rw [quotedValue?_of_quotes (c := c.onText other) h₀ h₁]
      exact ih h hagree (by simp only [ScanCursor.next]; omega)
    · rw [hagree _ (c.next.looked_peek 0).onward.position_lt_examinedEnd] at h₀
      rw [hagree (c.position + 1)
        (ScanCursor.Onward.lt_examinedEnd (c := c.next) 0 (.refl _))] at h₁
      exact quotedValue?_of_quote (c := c.onText other) h₀ h₁
    · have honward := onward_quotedValue? h
      rw [hagree _ honward.position_lt_examinedEnd] at h₀
      have hlt := (Array.getElem?_eq_some_iff.mp h₀).1
      rw [quotedValue?_of_byte (c := c.onText other) h₀ hfeed hquote]
      exact ih h hagree (by simp only [ScanCursor.next]; omega)

theorem onward_bareValue (n : Nat) (c : ScanCursor) (value : Bytes) :
    c.Onward (bareValue n c value).2 := by
  induction n generalizing c value with
  | zero => exact .refl c
  | succ n ih =>
    by_cases hstop : ∀ b, c.text[c.position]? = some b → endsValue b = true
    · rw [bareValue_of_stop hstop]
      exact (c.looked_peek 0).onward
    · obtain ⟨b, hb, hgoes⟩ : ∃ b, c.text[c.position]? = some b ∧ endsValue b = false := by
        simpa using hstop
      rw [bareValue_of_byte hb hgoes]
      exact c.onward_next.trans (ih c.next _)

theorem bareValue_onText (value : Bytes)
    (hagree : AgreeBelow (bareValue n c value).2.examinedEnd c.text other)
    (hn : c.text.size - c.position < n) (hm : other.size - c.position < m) :
    bareValue m (c.onText other) value =
      ((bareValue n c value).1, (bareValue n c value).2.onText other) := by
  induction n generalizing c value m with
  | zero => exact absurd hn (Nat.not_lt_zero _)
  | succ n ih =>
    obtain ⟨m, rfl⟩ : ∃ fuel, m = fuel + 1 := ⟨m - 1, by omega⟩
    by_cases hstop : ∀ b, c.text[c.position]? = some b → endsValue b = true
    · rw [bareValue_of_stop hstop] at hagree ⊢
      rw [hagree c.position (ScanCursor.Onward.lt_examinedEnd 0 (.refl _))] at hstop
      exact bareValue_of_stop (c := c.onText other) hstop
    · obtain ⟨b, hb, hgoes⟩ : ∃ b, c.text[c.position]? = some b ∧ endsValue b = false := by
        simpa using hstop
      have hlt := (Array.getElem?_eq_some_iff.mp hb).1
      rw [bareValue_of_byte hb hgoes] at hagree ⊢
      rw [hagree _ (onward_bareValue n c.next _).position_lt_examinedEnd] at hb
      have hlt' := (Array.getElem?_eq_some_iff.mp hb).1
      rw [bareValue_of_byte (c := c.onText other) hb hgoes]
      exact ih (value.push b) hagree (by simp only [ScanCursor.next]; omega)
        (by simp only [ScanCursor.next]; omega)

theorem dlmValue?_onText (h : dlmValue? c = some (v, d))
    (hagree : AgreeBelow d.examinedEnd c.text other) :
    dlmValue? (c.onText other) = some (v, d.onText other) := by
  by_cases hquote : c.text[c.position]? = some quoteByte
  · rw [dlmValue?_of_quote hquote, Option.filter_eq_some_iff] at h
    obtain ⟨h, hv⟩ := h
    rw [hagree _ (onward_quotedValue? h).position_lt_examinedEnd] at hquote
    rw [dlmValue?_of_quote (c := c.onText other) hquote, Option.filter_eq_some_iff]
    exact ⟨quotedValue?_onText (c := c.next) h hagree (Nat.lt_succ_of_le (Nat.sub_le _ _)), hv⟩
  · rw [dlmValue?_of_not_quote hquote, Option.filter_eq_some_iff] at h
    obtain ⟨h, hv⟩ := h
    obtain ⟨rfl, rfl⟩ := Prod.mk.inj (Option.some.inj h)
    have honward := onward_bareValue (c.text.size + 1) c.lookahead.2 #[]
    rw [hagree c.position (honward.lt_examinedEnd 0)] at hquote
    have hread := bareValue_onText (c := c.lookahead.2) #[]
      (n := c.text.size + 1) (m := other.size + 1) hagree
      (Nat.lt_succ_of_le (Nat.sub_le _ _)) (Nat.lt_succ_of_le (Nat.sub_le _ _))
    rw [dlmValue?_of_not_quote (c := c.onText other) hquote, Option.filter_eq_some_iff]
    exact ⟨congrArg some hread, hv⟩

/-! ## Data -/

theorem onward_isBlankFrom (n offset : Nat) (c : ScanCursor) :
    (c.peek offset).2.Onward (isBlankFrom (n + 1) offset c).2 := by
  rw [isBlankFrom_succ]
  split
  · exact .refl _
  · split
    · exact .refl _
    · split
      · exact (looked_isBlankFrom n (offset + 1) _).onward
      · exact .refl _

theorem isBlankFrom_onText {offset : Nat}
    (hagree : AgreeBelow (isBlankFrom n offset c).2.examinedEnd c.text other)
    (hn : c.text.size - (c.position + offset) < n) (hm : other.size - (c.position + offset) < m) :
    isBlankFrom m offset (c.onText other) =
      ((isBlankFrom n offset c).1, (isBlankFrom n offset c).2.onText other) := by
  induction n generalizing c offset m with
  | zero => exact absurd hn (Nat.not_lt_zero _)
  | succ n ih =>
    obtain ⟨m, rfl⟩ : ∃ fuel, m = fuel + 1 := ⟨m - 1, by omega⟩
    have hbyte : (c.onText other).text[c.position + offset]? = c.text[c.position + offset]? :=
      (hagree _ ((onward_isBlankFrom n offset c).lt_examinedEnd offset)).symm
    rw [isBlankFrom_succ] at hagree
    rw [isBlankFrom_succ, isBlankFrom_succ,
      show (c.onText other).position = c.position from rfl, hbyte]
    cases hb : c.text[c.position + offset]? with
    | none => rfl
    | some b =>
      simp only [hb] at hagree ⊢
      by_cases hfeed : b = lineFeed
      · simp only [hfeed, if_true]
        rfl
      · by_cases hblank : isBlank b = true
        · simp only [hfeed, if_false, hblank, if_true] at hagree ⊢
          have hlt := (Array.getElem?_eq_some_iff.mp hb).1
          have hlt' : c.position + offset < other.size :=
            (Array.getElem?_eq_some_iff.mp (hbyte.trans hb)).1
          exact ih hagree (by simp only [ScanCursor.peek]; omega)
            (by simp only [ScanCursor.peek]; omega)
        · simp only [hfeed, if_false, hblank]
          rfl

theorem isBlankLine_onText
    (hagree : AgreeBelow (isBlankLine c).2.examinedEnd c.text other) :
    isBlankLine (c.onText other) = ((isBlankLine c).1, (isBlankLine c).2.onText other) :=
  isBlankFrom_onText hagree (by omega) (by simp only [ScanCursor.onText]; omega)

theorem dataEnds_onText {delimiter : Bytes} {statements : Bool}
    (hend : c.position < c.text.size ↔ c.position < other.size)
    (hagree : AgreeBelow (dataEnds delimiter statements c).2.examinedEnd c.text other) :
    dataEnds delimiter statements (c.onText other) =
      ((dataEnds delimiter statements c).1, (dataEnds delimiter statements c).2.onText other) := by
  have hatEnd : (c.onText other).atEnd = c.atEnd := by
    simp only [ScanCursor.atEnd, ScanCursor.onText, ge_iff_le, decide_eq_decide]
    omega
  rw [dataEnds_eq] at hagree
  rw [dataEnds_eq, dataEnds_eq, hatEnd]
  by_cases hdone : c.atEnd = true
  · simp only [hdone, if_true]
  simp only [hdone, Bool.false_eq_true, if_false] at hagree ⊢
  have hdelimiter : AgreeBelow (c.startsWith delimiter).2.examinedEnd c.text other := by
    refine hagree.mono ?_
    split
    · exact Nat.le_refl _
    · split
      · exact (ScanCursor.looked_startsWith _ statementStart).onward.examinedEnd
      · exact Nat.le_refl _
  rw [ScanCursor.startsWith_onText hdelimiter]
  by_cases hfound : (c.startsWith delimiter).1 = true
  · simp only [hfound, if_true]
  · simp only [hfound, Bool.false_eq_true, if_false] at hagree ⊢
    by_cases hstatements : statements = true
    · simp only [hstatements, if_true] at hagree ⊢
      exact ScanCursor.startsWith_onText hagree
    · simp only [hstatements, Bool.false_eq_true, if_false]

/-- Lines are passed in another text as long as it goes on like this one up to the offset at which
data ends, and beyond. -/
theorem dataLines_onText {delimiter : Bytes} {statements : Bool} {count stop : Nat}
    (hagree : AgreeBelow stop c.text other)
    (hexamined : (dataLines delimiter statements n count c).2.examinedEnd ≤ stop)
    (hposition : (dataLines delimiter statements n count c).2.position < stop)
    (hn : c.text.size - c.position < n) (hm : other.size - c.position < m) :
    dataLines delimiter statements m count (c.onText other) =
      ((dataLines delimiter statements n count c).1,
        (dataLines delimiter statements n count c).2.onText other) := by
  induction n generalizing c count m with
  | zero => exact absurd hn (Nat.not_lt_zero _)
  | succ n ih =>
    obtain ⟨m, rfl⟩ : ∃ fuel, m = fuel + 1 := ⟨m - 1, by omega⟩
    have hlooked := looked_dataEnds delimiter statements c
    have hahead : c.Onward (dataLines delimiter statements (n + 1) count c).2 := onward_dataLines
    -- That the text goes on is asked but not recorded.  Lines are passed beyond the cursor, or data
    -- ends at it, and both lie below `stop`.
    have hlt := hagree.lt_size_iff (Nat.lt_of_le_of_lt hahead.position hposition)
    cases h : (dataEnds delimiter statements c).1 with
    | true =>
      rw [dataLines_of_ends h] at hexamined hposition ⊢
      have hends := dataEnds_onText hlt (hagree.mono hexamined)
      rw [dataLines_of_ends (by rw [hends, h]), hends]
    | false =>
      rw [dataLines_of_data h] at hexamined hposition ⊢
      have hrest := restOfLine_of_dataEnds h
      have hpassed : (dataEnds delimiter statements c).2.advanceLine.markEnd.Onward
          (dataLines delimiter statements n (count + 1)
            (dataEnds delimiter statements c).2.advanceLine.markEnd).2 := onward_dataLines
      have hline : AgreeBelow (dataEnds delimiter statements c).2.advanceLine.examinedEnd
          c.text other := hagree.mono (Nat.le_trans hpassed.examinedEnd hexamined)
      have hends := dataEnds_onText hlt (hline.mono (ScanCursor.onward_advanceLine _).examinedEnd)
      rw [← hlooked.text] at hline
      rw [dataLines_of_data (by rw [hends, h]), hends, ScanCursor.advanceLine_onText hline]
      have htext : (dataEnds delimiter statements c).2.advanceLine.markEnd.text = c.text :=
        (ScanCursor.text_advanceLine _).trans hlooked.text
      have hfrom := hrest.lt
      have hfits := hrest.fits
      have hother := hlt.mp (by omega)
      exact ih (c := (dataEnds delimiter statements c).2.advanceLine.markEnd)
        (htext ▸ hagree) hexamined hposition (by rw [htext]; omega) (by omega)

/-! ## Tokens -/

section

variable {state : ScannerState} {valid : List Bool} {found : Scan} {stop : Nat}

theorem onward_scanData {delimiter : Bytes} (h : (scanData delimiter c state).1 = some found) :
    c.Onward found.cursor := by
  obtain ⟨-, -, rfl⟩ := scanData_eq_some_iff.mp h
  exact (looked_isBlankLine c).onward.trans onward_dataLines

theorem scanData_onText {delimiter : Bytes} (h : (scanData delimiter c state).1 = some found)
    (hagree : AgreeBelow stop c.text other) (hexamined : found.cursor.examinedEnd ≤ stop)
    (htokenEnd : found.cursor.tokenEnd < stop) :
    scanData delimiter (c.onText other) state =
      (some { found with cursor := found.cursor.onText other },
        (scanData delimiter c state).2) := by
  obtain ⟨hblank, hdata, rfl⟩ := scanData_eq_some_iff.mp h
  have hlooked := looked_isBlankLine c
  obtain ⟨hcount, -, hend⟩ := passed_dataLines c.text.size hdata
  rw [hend] at htokenEnd
  have hblank' := isBlankLine_onText (hagree.mono
    (Nat.le_trans onward_dataLines.examinedEnd hexamined))
  have hlines := dataLines_onText (m := other.size + 1) (hlooked.text ▸ hagree) hexamined htokenEnd
    (by rw [hlooked.text]; omega) (by omega)
  rw [scanData_of_not_blank (by rw [hblank', hblank]), scanData_of_not_blank hblank, hblank',
    show (c.onText other).text = other from rfl, hlines]
  simp only [gt_iff_lt, hcount, if_true]

/-- The delimiter is found in another text where it is found in this one. -/
theorem delimiterAt_onText (valid : List Bool) (state : ScannerState)
    (hagree : AgreeBelow (delimiterAt valid state c).2.examinedEnd c.text other) :
    delimiterAt valid state (c.onText other) =
      ((delimiterAt valid state c).1, (delimiterAt valid state c).2.onText other) := by
  unfold delimiterAt at hagree ⊢
  split at hagree
  · rename_i hasks
    rw [if_pos hasks, if_pos hasks]
    exact ScanCursor.startsWith_onText hagree
  · rename_i hasks
    rw [if_neg hasks, if_neg hasks]

theorem scan_onText (h : (scan c valid state).1 = some found)
    (hagree : AgreeBelow stop c.text other) (hstart : c.examinedEnd ≤ stop)
    (hexamined : found.cursor.examinedEnd ≤ stop) (htokenEnd : found.cursor.tokenEnd < stop) :
    scan (c.onText other) valid state =
      (some { found with cursor := found.cursor.onText other }, (scan c valid state).2) := by
  by_cases hvalue : Asks valid dlmValueToken
  · rw [scan_of_asks_value hvalue] at h ⊢
    obtain ⟨⟨v, d⟩, hv, rfl⟩ := Option.map_eq_some_iff.mp h
    rw [scan_of_asks_value hvalue, dlmValue?_onText hv (hagree.mono hexamined)]
    rfl
  by_cases hline : c.atLineStart = true
  · have hlooked := looked_delimiterAt valid state c
    have hline' := (ScanCursor.atLineStart_onText (hagree.mono hstart)).trans hline
    rw [scan_of_lineStart hvalue hline] at h ⊢
    rw [scan_of_lineStart hvalue hline']
    by_cases hdelimiter : (delimiterAt valid state c).1 = true
    · simp only [hdelimiter, if_true] at h ⊢
      obtain rfl := Option.some.inj h
      have hat := delimiterAt_onText valid state
        (hagree.mono (Nat.le_trans (ScanCursor.onward_advanceBy _ _).examinedEnd hexamined))
      have hdelimiter' : (delimiterAt valid state (c.onText other)).1 = true := by
        rw [hat, hdelimiter]
      simp only [hdelimiter', if_true, advanceBy_delimiterAt hdelimiter',
        advanceBy_delimiterAt hdelimiter]
      rw [hat]
      rfl
    · simp only [hdelimiter, Bool.false_eq_true, if_false] at h ⊢
      by_cases hasks : valid[dataLinesToken]?.getD false = true
      · simp only [hasks, if_true] at h ⊢
        have hat := delimiterAt_onText valid state
          (hagree.mono (Nat.le_trans (onward_scanData h).examinedEnd hexamined))
        simp only [hat, hdelimiter, Bool.false_eq_true, if_false]
        exact scanData_onText h (hlooked.text ▸ hagree) hexamined htokenEnd
      · simp [hasks] at h
  · rw [scan_of_not_lineStart hvalue hline] at h
    contradiction

end

end Glr.Jcl

namespace Glr

theorem Bytes.AgreeBelow.extract_eq {text other : Bytes} {start stop : Nat}
    (h : Bytes.AgreeBelow stop text other) :
    other.extract start stop = text.extract start stop := by
  refine Array.ext_getElem? fun i => ?_
  rw [Array.getElem?_extract, Array.getElem?_extract]
  by_cases hi : start + i < stop
  · have hsize := h.lt_size_iff hi
    rw [h _ hi]
    simp only [show i < min stop other.size - start ↔ i < min stop text.size - start by omega]
  · rw [if_neg (by omega), if_neg (by omega)]

namespace Parse

variable {l : Language} {text other : Bytes} {site : Site} {t : Subtree} {found : Scan}

theorem lineLookahead_eq {stop : Nat}
    (h : Bytes.AgreeBelow (stop + lineLookahead text stop) text other) :
    lineLookahead other stop = lineLookahead text stop := by
  unfold lineLookahead at h ⊢
  cases hfeed : text.lineFeedFrom? stop with
  | some i =>
    have hle := (Bytes.lineFeedFrom?_eq_some hfeed).1
    simp only [hfeed] at h
    rw [h.mono (by omega) |>.lineFeedFrom?_eq hfeed]
  | none =>
    simp only [hfeed] at h
    rw [← h.eq_of_size_lt (by omega), hfeed]

/-- What a token is made of that was found to end at some offset. -/
theorem foundToken?_eq_some {flags : List Bool} {start : Nat}
    (h : foundToken? l text site flags start found = some t) :
    ∃ stop, stop = min found.cursor.tokenEnd text.size ∧ start < stop ∧
      start + t.size.bytes = stop ∧
      t.info.lookahead = max (lineLookahead text stop) (found.cursor.examinedEnd - stop) := by
  unfold foundToken? at h
  split at h
  · simp only at h
    split at h
    · contradiction
    · rename_i hstop
      obtain rfl := Option.some.inj h
      refine ⟨_, rfl, Nat.lt_of_not_le hstop, ?_, rfl⟩
      show start + (text.extract start (min found.cursor.tokenEnd text.size)).size = _
      rw [Array.size_extract]
      omega
  · contradiction

/-- The same find makes the same token in every text that agrees as far as is recorded. -/
theorem foundToken?_onText {flags : List Bool} {start : Nat}
    (h : foundToken? l text site flags start found = some t)
    (hagree : Bytes.AgreeBelow (start + t.size.bytes + t.info.lookahead) text other) :
    foundToken? l other site flags start { found with cursor := found.cursor.onText other } =
      some t := by
  obtain ⟨stop, hstop, hlt, hend, hlookahead⟩ := foundToken?_eq_some h
  rw [hend, hlookahead] at hagree
  have hline := Nat.le_max_left (lineLookahead text stop) (found.cursor.examinedEnd - stop)
  have hpos := lineLookahead_pos text stop
  have hstop' : min (found.cursor.onText other).tokenEnd other.size = stop := by
    show min found.cursor.tokenEnd other.size = stop
    rcases Nat.lt_or_ge text.size found.cursor.tokenEnd with hbeyond | hwithin
    · rw [← hagree.eq_of_size_lt (by omega), ← hstop]
    · have := (hagree.lt_size_iff (i := stop - 1) (by omega)).mp (by omega)
      omega
  unfold foundToken? at h ⊢
  rw [← hstop] at h
  simp only [hstop'] at h ⊢
  rw [(hagree.mono (by omega)).extract_eq, lineLookahead_eq (hagree.mono (by omega))]
  exact h

theorem externalToken?_eq (hscanner : l.scanner = some Jcl.scanner) (text : Bytes) (site : Site) :
    externalToken? l text site =
      let flags := l.table.externals.map (SortedArray.contains (l.validTokens site.lexState))
      if !flags.contains true then (none, [])
      else
        let start := min site.position.bytes text.size
        let scanned := Jcl.scan (.begin text start) flags site.external
        match scanned.1.bind (foundToken? l text site flags start) with
        | some t =>
          (some t, scanned.2.map Event.scanner ++ [.externalToken start t.symbol t.size.bytes])
        | none => (none, scanned.2.map Event.scanner) := by
  unfold externalToken?
  rw [hscanner]
  rfl

/-- A token that the scanner finds is found with the same text, record and memory in every text that
goes on like this one up to the end of the lookahead that is recorded for it. -/
theorem externalToken?_recorded
    (hscanner : l.scanner = some Jcl.scanner) (ht : (externalToken? l text site).1 = some t)
    (hagree : Bytes.AgreeBelow (site.position.bytes + t.size.bytes + t.info.lookahead) text other) :
    externalToken? l other site = externalToken? l text site := by
  -- A record that goes beyond the text covers all of it: the other text is then the same.
  rcases Nat.lt_or_ge text.size (site.position.bytes + t.size.bytes + t.info.lookahead) with
    hbeyond | hwithin
  · rw [hagree.eq_of_size_lt hbeyond]
  rw [externalToken?_eq hscanner] at ht ⊢
  rw [externalToken?_eq hscanner]
  generalize l.table.externals.map (SortedArray.contains (l.validTokens site.lexState)) = flags
    at ht ⊢
  simp only at ht ⊢
  split at ht
  · contradiction
  rename_i hflags
  rw [if_neg hflags, if_neg hflags]
  cases hmade : (Jcl.scan (.begin text (min site.position.bytes text.size)) flags
      site.external).1.bind (foundToken? l text site flags (min site.position.bytes text.size)) with
  | none => simp [hmade] at ht
  | some made =>
    simp only [hmade] at ht ⊢
    obtain rfl := Option.some.inj ht
    obtain ⟨found, hfound, htoken⟩ := Option.bind_eq_some_iff.mp hmade
    obtain ⟨stop, hstop, hlt, hend, hlookahead⟩ := foundToken?_eq_some htoken
    have hstart : min site.position.bytes text.size = site.position.bytes := by omega
    rw [hstart] at hfound htoken hlt hend ⊢
    have hpos := lineLookahead_pos text stop
    have hother := (hagree.lt_size_iff (i := site.position.bytes) (by omega)).mp (by omega)
    have hscan := Jcl.scan_onText hfound hagree
      (by simp only [ScanCursor.examinedEnd, ScanCursor.begin]; omega) (by omega) (by omega)
    rw [Nat.min_eq_left (Nat.le_of_lt hother),
      show ScanCursor.begin other site.position.bytes =
        (ScanCursor.begin text site.position.bytes).onText other from rfl, hscan]
    simp only [Option.bind_some, foundToken?_onText htoken hagree]

/-- One line of data before the delimiter that was set: the line of the delimiter is recorded, and
what comes behind it may change. -/
theorem externalToken?_recorded_data :
    let table : Table := { (default : Table) with externals := [1, 2, 3] }
    let l : Language := ⟨0, table, [], #[#[1, 2]], some Jcl.scanner⟩
    let site : Site := ⟨Length.zero, 0, false, #[64, 64]⟩
    let text : Bytes := #[97, 10, 64, 64, 10, 120]
    let other : Bytes := #[97, 10, 64, 64, 10, 47, 47]
    ∃ t, l.scanner = some Jcl.scanner ∧ (externalToken? l text site).1 = some t ∧
      Bytes.AgreeBelow (site.position.bytes + t.size.bytes + t.info.lookahead) text other ∧
      externalToken? l other site = externalToken? l text site := by
  intro table l site text other
  have hfound : (externalToken? l text site).1.map
      (fun t => site.position.bytes + t.size.bytes + t.info.lookahead) = some 5 := by decide
  obtain ⟨t, ht, hrecord⟩ := Option.map_eq_some_iff.mp hfound
  have hagree : Bytes.AgreeBelow (site.position.bytes + t.size.bytes + t.info.lookahead)
      text other := by
    rw [hrecord]
    unfold Bytes.AgreeBelow
    decide
  exact ⟨t, rfl, ht, hagree, externalToken?_recorded rfl ht hagree⟩

end Parse

end Glr
