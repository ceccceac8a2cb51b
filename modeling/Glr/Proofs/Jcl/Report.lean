import Glr.Jcl.Report
import Glr.Proofs.Text.Replaced

/-!
# Glr.Proofs.Jcl.Report

The table of extractions is read back as it was written, whatever the names in it are:

```
readTable? (csvReport es) = some (columns :: es.map Extraction.fields)
```

`readTable?` reads any table of comma-separated values, one character after another.  What it does
with the rest of a text depends only on its place in a field and on what it has read, so the text of
a field can be taken off the front, then the line of a record, then the table.
-/

namespace Glr.Jcl

namespace Csv

/-! ## A reader of tables -/

/-- The place of a reader in a field. -/
inductive Place where
  /-- Nothing of the field is read. -/
  | start
  /-- In a field without quotes. -/
  | bare
  /-- Between quotes. -/
  | quoted
  /-- Behind a quote, which ends the field unless another one follows. -/
  | closed

/-- What is read of a table: characters of a field, fields of a record, and records. -/
structure Reader where
  place : Place
  field : List Char
  record : List String
  records : List (List String)

namespace Reader

/-- The reader before a field. -/
def before (record : List String) (records : List (List String)) : Reader :=
  ⟨.start, [], record, records⟩

/-- One more character of the field. -/
def take (r : Reader) (place : Place) (c : Char) : Reader :=
  { r with place, field := r.field ++ [c] }

/-- The record with the field that ends here. -/
def fullRecord (r : Reader) : List String := r.record ++ [String.ofList r.field]

/-- The next character: none if it stands behind a closing quote. -/
def step (r : Reader) (c : Char) : Option Reader :=
  match r.place, c with
  | .start, '"' => some { r with place := .quoted }
  | .quoted, '"' => some { r with place := .closed }
  | .quoted, c => some (r.take .quoted c)
  | .closed, '"' => some (r.take .quoted '"')
  | _, ',' => some (before r.fullRecord r.records)
  | _, '\n' => some (before [] (r.records ++ [r.fullRecord]))
  | .closed, _ => none
  | _, c => some (r.take .bare c)

/-- All characters of a text. -/
def run (r : Reader) (cs : List Char) : Option Reader := cs.foldlM step r

/-- The records at the end of a text.  The last one may do without a line feed, and none is between
the last line feed and the end. -/
def finish (r : Reader) : Option (List (List String)) :=
  match r.place, r.record with
  | .quoted, _ => none
  | .start, [] => some r.records
  | _, _ => some (r.records ++ [r.fullRecord])

end Reader

/-- The records of a table. -/
def readTable? (text : String) : Option (List (List String)) :=
  ((Reader.before [] []).run text.toList).bind Reader.finish

namespace Reader

variable {place : Place} {field cs : List Char} {record : List String}
  {records : List (List String)}

theorem run_cons (r : Reader) (c : Char) (cs : List Char) :
    r.run (c :: cs) = (r.step c).bind fun r => r.run cs := rfl

theorem run_append (r : Reader) (cs ds : List Char) :
    r.run (cs ++ ds) = (r.run cs).bind fun r => r.run ds := by
  simp [run, List.foldlM_append]

/-! ## Fields -/

/-- A character that can stand in a field without quotes. -/
def IsPlain (c : Char) : Prop := c ≠ ',' ∧ c ≠ '"' ∧ c ≠ '\n'

theorem isPlain_of_not_needsQuotes {s : String} (h : needsQuotes s = false) :
    ∀ c ∈ s.toList, IsPlain c := by
  intro c hc
  simpa [IsPlain, and_assoc] using List.any_eq_false.mp h c hc

theorem isPlain_of_isDigit {c : Char} (h : c.isDigit = true) : IsPlain c := by
  refine ⟨?_, ?_, ?_⟩ <;> (rintro rfl; exact absurd h (by decide))

theorem run_bare (h : ∀ c ∈ cs, IsPlain c) :
    run ⟨.bare, field, record, records⟩ cs = some ⟨.bare, field ++ cs, record, records⟩ := by
  induction cs generalizing field with
  | nil => simp [run]
  | cons c cs ih =>
    obtain ⟨hcomma, hquote, hfeed⟩ := h c List.mem_cons_self
    have hstep : step ⟨.bare, field, record, records⟩ c =
        some ⟨.bare, field ++ [c], record, records⟩ := by
      simp [step, take]
    rw [run_cons, hstep, Option.bind_some, ih fun d hd => h d (List.mem_cons_of_mem _ hd)]
    simp

theorem run_quoted (cs : List Char) :
    run ⟨.quoted, field, record, records⟩ (cs.flatMap (Text.replacement '"' "\"\"")) =
      some ⟨.quoted, field ++ cs, record, records⟩ := by
  induction cs generalizing field with
  | nil => simp [run]
  | cons c cs ih =>
    have hstep : run ⟨.quoted, field, record, records⟩ (Text.replacement '"' "\"\"" c) =
        some ⟨.quoted, field ++ [c], record, records⟩ := by
      by_cases hquote : c = '"'
      · subst hquote
        rfl
      · simp [Text.replacement, hquote, run, step, take]
    rw [List.flatMap_cons, run_append, hstep, Option.bind_some, ih]
    simp

/-- A field is read as it was before it was written.  Where the reader stands then depends on the
quotes, but it is not between them. -/
theorem run_csvField (s : String) (record : List String) (records : List (List String)) :
    ∃ place, place ≠ .quoted ∧
      run (before record records) (csvField s).toList =
        some ⟨place, s.toList, record, records⟩ := by
  cases hquotes : needsQuotes s with
  | true =>
    -- The closing quote could be the first of two, so the reader waits for what comes next.
    have htext : (csvField s).toList =
        '"' :: (s.toList.flatMap (Text.replacement '"' "\"\"") ++ ['"']) := by
      rw [csvField, if_pos hquotes, String.toList_append, String.toList_append,
        ← Text.toList_replace]
      rfl
    refine ⟨.closed, by simp, ?_⟩
    rw [htext, run_cons]
    show run ⟨.quoted, [], record, records⟩ _ = _
    rw [run_append, run_quoted]
    rfl
  | false =>
    have hplain := isPlain_of_not_needsQuotes hquotes
    rw [csvField, if_neg (by simp [hquotes])]
    generalize s.toList = cs at hplain ⊢
    cases cs with
    | nil => exact ⟨.start, by simp, rfl⟩
    | cons c cs =>
      obtain ⟨hcomma, hquote, hfeed⟩ := hplain c List.mem_cons_self
      have hstep : step (before record records) c = some ⟨.bare, [c], record, records⟩ := by
        simp [step, before, take, hquote]
      refine ⟨.bare, by simp, ?_⟩
      rw [run_cons, hstep, Option.bind_some,
        run_bare fun d hd => hplain d (List.mem_cons_of_mem _ hd)]
      rfl

/-! ## Records -/

theorem step_comma (h : place ≠ .quoted) :
    step ⟨place, field, record, records⟩ ',' =
      some (before (record ++ [String.ofList field]) records) := by
  cases place <;> first | rfl | contradiction

theorem step_lineFeed (h : place ≠ .quoted) :
    step ⟨place, field, record, records⟩ '\n' =
      some (before [] (records ++ [record ++ [String.ofList field]])) := by
  cases place <;> first | rfl | contradiction

/-- The line of a record: its fields with commas between them. -/
def line (fields : List String) : List Char :=
  (",".intercalate (fields.map csvField)).toList ++ ['\n']

theorem run_line {fields : List String} (h : fields ≠ []) (record : List String)
    (records : List (List String)) :
    run (before record records) (line fields) =
      some (before [] (records ++ [record ++ fields])) := by
  induction fields generalizing record with
  | nil => contradiction
  | cons s fields ih =>
    obtain ⟨place, hplace, hfield⟩ := run_csvField s record records
    cases fields with
    | nil =>
      rw [line, List.map_singleton, String.intercalate_singleton, run_append, hfield,
        Option.bind_some, run_cons, step_lineFeed hplace, String.ofList_toList]
      rfl
    | cons t fields =>
      have hline : line (s :: t :: fields) = (csvField s).toList ++ ',' :: line (t :: fields) := by
        simp [line]
      rw [hline, run_append, hfield, Option.bind_some, run_cons, step_comma hplace,
        Option.bind_some, ih (by simp), String.ofList_toList]
      simp

theorem run_lines {rows : List (List String)} (h : ∀ fields ∈ rows, fields ≠ [])
    (records : List (List String)) :
    run (before [] records) (rows.flatMap line) = some (before [] (records ++ rows)) := by
  induction rows generalizing records with
  | nil => simp [run]
  | cons fields rows ih =>
    rw [List.flatMap_cons, run_append, run_line (h fields List.mem_cons_self), Option.bind_some,
      ih fun f hf => h f (List.mem_cons_of_mem _ hf)]
    simp

end Reader

/-- Any table is read back from its lines, as long as every record has a field. -/
theorem readTable?_of_lines {text : String} {rows : List (List String)}
    (htext : text.toList = rows.flatMap Reader.line) (h : ∀ fields ∈ rows, fields ≠ []) :
    readTable? text = some rows := by
  rw [readTable?, htext, Reader.run_lines h]
  rfl

example : readTable? "a,\"b\"\",\n\"\n" = some [["a", "b\",\n"]] := by decide

end Csv

/-! ## The table of extractions -/

open Csv

/-- The names of the columns, one by one. -/
def columns : List String :=
  ["File", "Jobs", "Programs", "Regular_Datasets", "GDG_Datasets", "Temp_Datasets",
    "Referback_Datasets", "Parse_Errors"]

namespace Extraction

/-- What the table tells of an extraction. -/
def fields (e : Extraction) : List String :=
  [e.file.getD "", ";".intercalate e.jobs, ";".intercalate e.programs,
    toString e.datasets.regular.length, toString e.datasets.gdg.length,
    toString e.datasets.temporary.length, toString e.datasets.referback.length,
    toString e.parseErrors]

end Extraction

/-- A number stands in the table without quotes. -/
theorem csvField_toString (n : Nat) : csvField (toString n) = toString n := by
  have hplain : needsQuotes (toString n) = false := by
    refine List.any_eq_false.mpr fun c hc => ?_
    have hdigit : c.isDigit = true :=
      Nat.isDigit_of_mem_toDigits (by decide) (by decide) (Nat.toList_repr ▸ hc)
    obtain ⟨hcomma, hquote, hfeed⟩ := Reader.isPlain_of_isDigit hdigit
    simp [hcomma, hquote, hfeed]
  rw [csvField, hplain, if_neg Bool.false_ne_true]

theorem line_columns : Reader.line columns = csvHeader.toList ++ ['\n'] := by
  decide

theorem line_fields (e : Extraction) : Reader.line e.fields = e.csvRow.toList ++ ['\n'] := by
  rw [Reader.line, Extraction.fields, Extraction.csvRow]
  simp only [List.map_cons, List.map_nil, csvField_toString]

theorem toList_foldl_csvRow (es : List Extraction) (out : String) :
    (es.foldl (fun out e => out ++ e.csvRow ++ "\n") out).toList =
      out.toList ++ (es.map Extraction.fields).flatMap Reader.line := by
  induction es generalizing out with
  | nil => simp
  | cons e es ih =>
    rw [List.foldl_cons, ih]
    simp [line_fields]

/-- The table of extractions is read back: the names of the columns, and a record of each
extraction. -/
theorem readTable?_csvReport (es : List Extraction) :
    readTable? (csvReport es) = some (columns :: es.map Extraction.fields) := by
  refine readTable?_of_lines ?_ ?_
  · rw [csvReport, toList_foldl_csvRow, List.flatMap_cons, line_columns]
    simp
  · simp [columns, Extraction.fields]

end Glr.Jcl
