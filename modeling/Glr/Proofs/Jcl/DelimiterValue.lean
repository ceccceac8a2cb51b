import Glr.Proofs.Jcl.DataLines

/-!
# Glr.Proofs.Jcl.DelimiterValue

The value of a `DLM=` operand, written and read.  In quotes it is written with every quote twice,
so that a quote which another one does not follow ends it:

```
'   b₁ b₂ '' b₃ …   '   no quote
```

Without quotes it goes up to a byte that no such value has.
-/

namespace Glr.Jcl

/-- The bytes of a value with every quote twice. -/
def doubled (v : List UInt8) : List UInt8 :=
  v.flatMap fun b => if b = quoteByte then [b, b] else [b]

/-- A value in quotes. -/
def quoted (v : List UInt8) : List UInt8 := quoteByte :: doubled v ++ [quoteByte]

/-- The bytes that end a value without quotes. -/
def valueEnds : List UInt8 := [',', ')', ' ', '\t', '\r', '\n'].map Char.toUInt8

theorem endsValue_iff {b : UInt8} : endsValue b = true ↔ b ∈ valueEnds := by
  simp only [endsValue, isBlank, lineFeed, Bool.or_eq_true, beq_iff_eq, or_assoc, valueEnds,
    List.map_cons, List.map_nil, List.mem_cons, List.not_mem_nil, or_false]
  rfl

theorem doubled_cons_quote (v : List UInt8) :
    doubled (quoteByte :: v) = quoteByte :: quoteByte :: doubled v := rfl

theorem doubled_cons {b : UInt8} (h : b ≠ quoteByte) (v : List UInt8) :
    doubled (b :: v) = b :: doubled v := by simp [doubled, h]

theorem length_le_doubled (v : List UInt8) : v.length ≤ (doubled v).length := by
  induction v with
  | nil => exact Nat.le_refl _
  | cons b v ih =>
    by_cases h : b = quoteByte
    · rw [h, doubled_cons_quote]
      simp only [List.length_cons]
      omega
    · rw [doubled_cons h]
      simp only [List.length_cons]
      omega

variable {c : ScanCursor} {fuel : Nat} {value : Bytes} {b : UInt8}

/-! ## One byte -/

theorem lookahead_eq (c : ScanCursor) : c.lookahead = (c.text[c.position]?, c.lookahead.2) := rfl

theorem advance_lookahead_of_byte (h : c.text[c.position]? = some b) :
    c.lookahead.2.advance = c.next :=
  ScanCursor.advance_lookahead (Array.getElem?_eq_some_iff.mp h).1

theorem quotedValue?_of_stop
    (h : c.text[c.position]? = none ∨ c.text[c.position]? = some lineFeed) :
    quotedValue? fuel c value = none := by
  cases fuel with
  | zero => rfl
  | succ fuel =>
    rw [quotedValue?, lookahead_eq]
    rcases h with h | h
    · rw [h]
    · rw [h]
      rfl

theorem quotedValue?_of_byte (h : c.text[c.position]? = some b) (hfeed : b ≠ lineFeed)
    (hquote : b ≠ quoteByte) :
    quotedValue? (fuel + 1) c value = quotedValue? fuel c.next (value.push b) := by
  rw [quotedValue?, lookahead_eq, h]
  simp only [hfeed, hquote, if_false, advance_lookahead_of_byte h]

theorem quotedValue?_of_quotes (h : c.text[c.position]? = some quoteByte)
    (h' : c.text[c.position + 1]? = some quoteByte) :
    quotedValue? (fuel + 1) c value = quotedValue? fuel c.next.next (value.push quoteByte) := by
  have hnext : c.next.text[c.next.position]? = some quoteByte := h'
  rw [quotedValue?, lookahead_eq, h]
  simp only [show quoteByte ≠ lineFeed by decide, if_false, if_true, advance_lookahead_of_byte h]
  rw [lookahead_eq, hnext]
  simp only [if_true, advance_lookahead_of_byte hnext]

/-- A quote that no other one follows ends the value. -/
theorem quotedValue?_of_quote (h : c.text[c.position]? = some quoteByte)
    (h' : c.text[c.position + 1]? ≠ some quoteByte) :
    quotedValue? (fuel + 1) c value = some (value, c.next.lookahead.2) := by
  have hnext : c.next.text[c.next.position]? ≠ some quoteByte := h'
  rw [quotedValue?, lookahead_eq, h]
  simp only [show quoteByte ≠ lineFeed by decide, if_false, if_true, advance_lookahead_of_byte h]
  rw [lookahead_eq]
  cases hb : c.next.text[c.next.position]? with
  | none => rfl
  | some b => simp only [show b ≠ quoteByte from fun heq => hnext (heq ▸ hb), if_false]

theorem bareValue_of_stop (h : ∀ b, c.text[c.position]? = some b → endsValue b = true) :
    bareValue (fuel + 1) c value = (value, c.lookahead.2) := by
  rw [bareValue, lookahead_eq]
  cases hb : c.text[c.position]? with
  | none => rfl
  | some b => simp only [h b hb, if_true]

theorem bareValue_of_byte (h : c.text[c.position]? = some b) (hb : endsValue b = false) :
    bareValue (fuel + 1) c value = bareValue fuel c.next (value.push b) := by
  rw [bareValue, lookahead_eq, h]
  simp only [hb, Bool.false_eq_true, if_false, advance_lookahead_of_byte h]

theorem dlmValue?_of_quote (h : c.text[c.position]? = some quoteByte) :
    dlmValue? c = (quotedValue? (c.text.size + 1) c.next #[]).filter fun v => !v.1.isEmpty := by
  rw [dlmValue?, lookahead_eq, h]
  simp only [if_true, advance_lookahead_of_byte h]

theorem dlmValue?_of_not_quote (h : c.text[c.position]? ≠ some quoteByte) :
    dlmValue? c =
      (some (bareValue (c.text.size + 1) c.lookahead.2 #[])).filter fun v => !v.1.isEmpty := by
  rw [dlmValue?, lookahead_eq]
  cases hb : c.text[c.position]? with
  | none => rfl
  | some b => simp only [show b ≠ quoteByte from fun heq => h (heq ▸ hb), if_false]

/-! ## Values -/

/-- A value behind its first quote, up to the quote that ends it. -/
theorem quotedValue?_doubled (value : Bytes) {v bytes : List UInt8} (hv : lineFeed ∉ v)
    (hc : c.rest = doubled v ++ quoteByte :: bytes) (hbytes : bytes.head? ≠ some quoteByte)
    (hfuel : v.length < fuel) :
    ∃ e, quotedValue? fuel c value = some (value ++ v.toArray,
      { c with position := c.position + (doubled v).length + 1, examined := e }) := by
  induction v generalizing c fuel value with
  | nil =>
    obtain ⟨fuel, rfl⟩ := Nat.exists_eq_add_of_lt hfuel
    have hquote : c.text[c.position]? = some quoteByte := ScanCursor.getElem?_of_rest hc 0
    have hend : c.text[c.position + 1]? ≠ some quoteByte := by
      rw [ScanCursor.getElem?_of_rest hc 1]
      simpa [doubled, List.head?_eq_getElem?] using hbytes
    exact ⟨_, by rw [quotedValue?_of_quote hquote hend]; rfl⟩
  | cons b v ih =>
    rw [List.mem_cons, not_or] at hv
    obtain ⟨hb, hv⟩ := hv
    obtain ⟨fuel, rfl⟩ : ∃ n, fuel = n + 1 := ⟨fuel - 1, by omega⟩
    replace hfuel : v.length < fuel := Nat.lt_of_succ_lt_succ hfuel
    -- A quote of the value is two in the text, and one round passes both.
    by_cases hquote : b = quoteByte
    · subst hquote
      rw [doubled_cons_quote] at hc ⊢
      have h₀ : c.text[c.position]? = some quoteByte := ScanCursor.getElem?_of_rest hc 0
      have h₁ : c.text[c.position + 1]? = some quoteByte := ScanCursor.getElem?_of_rest hc 1
      obtain ⟨e, he⟩ := ih (value.push quoteByte) hv
        (ScanCursor.rest_next (ScanCursor.rest_next hc)) hfuel
      refine ⟨e, ?_⟩
      rw [quotedValue?_of_quotes h₀ h₁, he]
      simp [ScanCursor.next]
      omega
    · rw [doubled_cons hquote] at hc ⊢
      have h₀ : c.text[c.position]? = some b := ScanCursor.getElem?_of_rest hc 0
      obtain ⟨e, he⟩ := ih (value.push b) hv (ScanCursor.rest_next hc) hfuel
      refine ⟨e, ?_⟩
      rw [quotedValue?_of_byte h₀ (Ne.symm hb) hquote, he]
      simp [ScanCursor.next]
      omega

theorem quotedValue?_unclosed {v bytes : List UInt8} (hv : lineFeed ∉ v)
    (hc : c.rest = doubled v ++ bytes)
    (hbytes : bytes.head? = none ∨ bytes.head? = some lineFeed) :
    quotedValue? fuel c value = none := by
  induction v generalizing c fuel value with
  | nil =>
    refine quotedValue?_of_stop ?_
    have hstop : c.text[c.position]? = bytes[0]? := ScanCursor.getElem?_of_rest hc 0
    rwa [hstop, ← List.head?_eq_getElem?]
  | cons b v ih =>
    rw [List.mem_cons, not_or] at hv
    obtain ⟨hb, hv⟩ := hv
    cases fuel with
    | zero => rfl
    | succ fuel =>
      by_cases hquote : b = quoteByte
      · subst hquote
        rw [doubled_cons_quote] at hc
        rw [quotedValue?_of_quotes (ScanCursor.getElem?_of_rest hc 0)
          (ScanCursor.getElem?_of_rest hc 1)]
        exact ih hv (ScanCursor.rest_next (ScanCursor.rest_next hc))
      · rw [doubled_cons hquote] at hc
        rw [quotedValue?_of_byte (ScanCursor.getElem?_of_rest hc 0) (Ne.symm hb) hquote]
        exact ih hv (ScanCursor.rest_next hc)

theorem bareValue_append (value : Bytes) {v bytes : List UInt8} (hv : ∀ b ∈ v, endsValue b = false)
    (hc : c.rest = v ++ bytes) (hbytes : ∀ b, bytes.head? = some b → endsValue b = true)
    (hfuel : v.length < fuel) :
    ∃ e, bareValue fuel c value = (value ++ v.toArray,
      { c with position := c.position + v.length, examined := e }) := by
  induction v generalizing c fuel value with
  | nil =>
    obtain ⟨fuel, rfl⟩ : ∃ n, fuel = n + 1 := ⟨fuel - 1, by omega⟩
    have hstop : c.text[c.position]? = bytes[0]? := ScanCursor.getElem?_of_rest hc 0
    rw [← List.head?_eq_getElem?] at hstop
    exact ⟨_, by rw [bareValue_of_stop (hstop ▸ hbytes)]; rfl⟩
  | cons b v ih =>
    obtain ⟨fuel, rfl⟩ : ∃ n, fuel = n + 1 := ⟨fuel - 1, by omega⟩
    obtain ⟨e, he⟩ := ih (value.push b)
      (fun b' hb' => hv b' (List.mem_cons_of_mem _ hb')) (ScanCursor.rest_next hc)
      (Nat.lt_of_succ_lt_succ hfuel)
    refine ⟨e, ?_⟩
    rw [bareValue_of_byte (ScanCursor.getElem?_of_rest hc 0) (hv b List.mem_cons_self), he]
    simp [ScanCursor.next]
    omega

/-! ## Operands -/

section

variable {before v rest : List UInt8} {valid : List Bool} {state : ScannerState}

/-- A value counts unless it is empty. -/
theorem filter_some (v : List UInt8) (c : ScanCursor) :
    (some (#[] ++ v.toArray, c)).filter (fun found => !found.1.isEmpty) =
      if v = [] then none else some (v.toArray, c) := by
  cases v <;> simp [Option.filter]

theorem rest_begin (before bytes : List UInt8) :
    (ScanCursor.begin (before ++ bytes).toArray before.length).rest = bytes := by
  simp [ScanCursor.rest, ScanCursor.begin]

theorem scanned?_of_quote (h : Asks valid dlmValueToken) (bytes : List UInt8) :
    let text := (before ++ quoteByte :: bytes).toArray
    scanned? text before.length valid state =
      ((quotedValue? (text.size + 1) (ScanCursor.begin text before.length).next #[]).filter
        fun found => !found.1.isEmpty).map
        fun found => (dlmValueToken, found.2.tokenEnd, found.1) := by
  intro text
  have hquote : text[before.length]? = some quoteByte :=
    ScanCursor.getElem?_of_rest (rest_begin before (quoteByte :: bytes)) 0
  rw [scanned?_of_asks_value h, dlmValue?_of_quote hquote]
  rfl

theorem scanned?_quoted (h : Asks valid dlmValueToken) (hv : lineFeed ∉ v)
    (hrest : rest.head? ≠ some quoteByte) :
    scanned? (before ++ quoted v ++ rest).toArray before.length valid state =
      if v = [] then none
      else some (dlmValueToken, before.length + (quoted v).length, v.toArray) := by
  have htext : before ++ quoted v ++ rest =
      before ++ quoteByte :: (doubled v ++ quoteByte :: rest) := by simp [quoted]
  have hle := length_le_doubled v
  rw [htext, scanned?_of_quote h]
  have hfuel : v.length <
      (before ++ quoteByte :: (doubled v ++ quoteByte :: rest)).toArray.size + 1 := by
    simp
    omega
  obtain ⟨e, he⟩ := quotedValue?_doubled #[] hv (ScanCursor.rest_next (rest_begin before _)) hrest
    hfuel
  rw [he, filter_some]
  by_cases hempty : v = []
  · rw [if_pos hempty, if_pos hempty]
    rfl
  · rw [if_neg hempty, if_neg hempty]
    simp [quoted, ScanCursor.tokenEnd, ScanCursor.next, ScanCursor.begin]
    omega

theorem scanned?_unclosed (h : Asks valid dlmValueToken) (hv : lineFeed ∉ v)
    (hrest : rest.head? = none ∨ rest.head? = some lineFeed) :
    scanned? (before ++ quoteByte :: doubled v ++ rest).toArray before.length valid state =
      none := by
  rw [List.append_assoc, List.cons_append, scanned?_of_quote h,
    quotedValue?_unclosed hv (ScanCursor.rest_next (rest_begin before _)) hrest]
  rfl

theorem scanned?_bare (h : Asks valid dlmValueToken) (hv : v ≠ [])
    (hquote : v.head? ≠ some quoteByte) (hbytes : ∀ b ∈ v, b ∉ valueEnds)
    (hrest : ∀ b, rest.head? = some b → b ∈ valueEnds) :
    scanned? (before ++ v ++ rest).toArray before.length valid state =
      some (dlmValueToken, before.length + v.length, v.toArray) := by
  have hstart := rest_begin before (v ++ rest)
  rw [← List.append_assoc] at hstart
  have hle : v.length < (before ++ v ++ rest).toArray.size + 1 := by simp; omega
  generalize (before ++ v ++ rest).toArray = text at hstart hle ⊢
  have hfirst : text[before.length]? ≠ some quoteByte := by
    have hbyte : text[before.length]? = (v ++ rest)[0]? := ScanCursor.getElem?_of_rest hstart 0
    cases v with
    | nil => exact absurd rfl hv
    | cons b v => exact fun heq => hquote (hbyte.symm.trans heq)
  obtain ⟨e, he⟩ := bareValue_append (c := (ScanCursor.begin text before.length).lookahead.2)
    #[] (fun b hb => Bool.eq_false_iff.mpr (mt endsValue_iff.mp (hbytes b hb))) hstart
    (fun b hb => endsValue_iff.mpr (hrest b hb)) hle
  rw [scanned?_of_asks_value h, dlmValue?_of_not_quote hfirst,
    show (ScanCursor.begin text before.length).text = text from rfl, he, filter_some, if_neg hv]
  rfl

/-- Values of operands are read as they were written: one in quotes up to the quote that no other
one follows, one without quotes up to a byte that ends it.  A quoted value that the line or the text
ends, and an empty one, are not found. -/
theorem scanned?_value (before : List UInt8) {valid : List Bool} (state : ScannerState)
    (h : Asks valid dlmValueToken) :
    (∀ v rest, v ≠ [] → lineFeed ∉ v → rest.head? ≠ some quoteByte →
      scanned? (before ++ quoted v ++ rest).toArray before.length valid state =
        some (dlmValueToken, before.length + (quoted v).length, v.toArray)) ∧
    (∀ v rest, v ≠ [] → v.head? ≠ some quoteByte → (∀ b ∈ v, b ∉ valueEnds) →
      (∀ b, rest.head? = some b → b ∈ valueEnds) →
      scanned? (before ++ v ++ rest).toArray before.length valid state =
        some (dlmValueToken, before.length + v.length, v.toArray)) ∧
    (∀ v rest, lineFeed ∉ v → (rest.head? = none ∨ rest.head? = some lineFeed) →
      scanned? (before ++ quoteByte :: doubled v ++ rest).toArray before.length valid state =
        none) ∧
    (∀ rest, rest.head? ≠ some quoteByte →
      scanned? (before ++ quoted [] ++ rest).toArray before.length valid state = none) := by
  refine ⟨fun v rest hv hfeed hrest => ?_, fun v rest => scanned?_bare h,
    fun v rest => scanned?_unclosed h, fun rest hrest => ?_⟩
  · rw [scanned?_quoted h hfeed hrest, if_neg hv]
  · rw [scanned?_quoted h List.not_mem_nil hrest, if_pos rfl]

/-- Behind an equals sign: a dollar, a quote and a dollar in quotes, two dollars without, a quoted
value that the line ends, and an empty one. -/
theorem scanned?_value_dollars :
    let found? (bytes : List UInt8) :=
      scanned? ([61] ++ bytes).toArray 1 [true, false, true] (Bytes.ofString "@@")
    Asks [true, false, true] dlmValueToken ∧
      found? (quoted [36, 39, 36] ++ [44]) = some (dlmValueToken, 7, #[36, 39, 36]) ∧
      found? ([36, 36] ++ [10]) = some (dlmValueToken, 3, #[36, 36]) ∧
      found? (quoteByte :: doubled [36, 39] ++ [10]) = none ∧
      found? (quoted [] ++ [44]) = none := by
  have h : Asks [true, false, true] dlmValueToken := rfl
  have hplain : (36 : UInt8) ∉ valueEnds := by decide
  have hends : (10 : UInt8) ∈ valueEnds := by decide
  obtain ⟨hquoted, hbare, hunclosed, hempty⟩ := scanned?_value [61] (Bytes.ofString "@@") h
  exact ⟨h, hquoted [36, 39, 36] [44] (by decide) (by decide) (by decide),
    hbare [36, 36] [10] (by decide) (by decide) (by simpa using hplain) (by simpa using hends),
    hunclosed [36, 39] [10] (by decide) (by decide), hempty [44] (by decide)⟩

end

end Glr.Jcl
