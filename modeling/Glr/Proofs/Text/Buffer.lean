import Glr.Parser
import Glr.Proofs.Reparse
import Glr.Proofs.Tree.Edit

/-!
# Glr.Proofs.Text.Buffer

A buffer counts characters and lines, an edit counts bytes.  Both tell the same
of a replacement: for a string `a ++ c`,

```
charIndex (size of a)  =  length of a
point?    (size of a)  =  extent of a
```

so a replacement between two character boundaries is `Edit.replace` on the
bytes, and any other is refused.  Only a line feed ends a line; a carriage
return or another line separator is a character like any other.

A buffer is stored in chunks, and nothing is said of where a chunk ends but
that it ends between two characters.  The chunks make up the text all the same.
-/

namespace Glr

/-! ## The bytes of a string -/

namespace Bytes

theorem toList_ofString (s : String) :
    (ofString s).toList = s.toList.flatMap String.utf8EncodeChar := by
  rw [ofString, String.toUTF8_eq_toByteArray, ← String.utf8Encode_toList, List.utf8Encode,
    List.data_toByteArray]

theorem ofString_append (a c : String) : ofString (a ++ c) = ofString a ++ ofString c := by
  apply Array.toList_inj.mp
  simp [toList_ofString]

theorem ofString_injective {a c : String} (h : ofString a = ofString c) : a = c :=
  String.toByteArray_inj.mp (ByteArray.ext h)

/-- An offset of a text between two of its characters, or at either end. -/
def BoundaryAt (text : Bytes) (byte : Nat) : Prop :=
  ∃ before after : String, text = ofString before ++ ofString after ∧ byte = (ofString before).size

/-- The bytes that a list of characters takes. -/
theorem size_ofString (s : String) : (ofString s).size = (s.toList.map Char.utf8Size).sum := by
  rw [← Array.length_toList, toList_ofString, List.length_flatMap]
  simp

/-- The boundaries of a string are where it can be cut. -/
theorem boundaryAt_ofString {s : String} {byte : Nat} :
    (ofString s).BoundaryAt byte ↔
      ∃ before after : String, s = before ++ after ∧ byte = (ofString before).size := by
  constructor
  · rintro ⟨a, c, h, hbyte⟩
    exact ⟨a, c, ofString_injective (h.trans (ofString_append a c).symm), hbyte⟩
  · rintro ⟨a, c, rfl, hbyte⟩
    exact ⟨a, c, ofString_append a c, hbyte⟩

/-- The first byte of a character does not continue one. -/
theorem isTail_eq_false {first : UInt8} (h : first.IsUTF8FirstByte) :
    Utf8.isTail first = false := by
  have hall : ∀ i : Fin 256, (UInt8.ofFin i).IsUTF8FirstByte →
      Utf8.isTail (UInt8.ofFin i) = false := by decide +kernel
  exact hall first.toFin h

/-- No string begins with a byte that continues a character. -/
theorem isTail_head_ofString {s : String} {first : UInt8} (h : (ofString s)[0]? = some first) :
    Utf8.isTail first = false := by
  rw [← Array.getElem?_toList, toList_ofString] at h
  cases hs : s.toList with
  | nil => simp [hs] at h
  | cons c cs =>
    rw [hs, List.flatMap_cons, List.getElem?_append_left (by simp [c.utf8Size_pos])] at h
    obtain ⟨hpos, rfl⟩ := List.getElem?_eq_some_iff.mp h
    exact isTail_eq_false UInt8.isUTF8FirstByte_getElem_zero_utf8EncodeChar

end Bytes

namespace Buffer

variable {b : Buffer} {byte : Nat}

/-! ## Characters and offsets -/

theorem charAt_append (before after : List Char) :
    charAt (before ++ after) (before.map Char.utf8Size).sum = before.length := by
  induction before with
  | nil =>
    cases after with
    | nil => rfl
    | cons c _ => simp [charAt, Nat.not_le.mpr c.utf8Size_pos]
  | cons c before ih => simp [charAt, ih]

theorem charStart_append (before after : List Char) :
    charStart (before ++ after) before.length = (before.map Char.utf8Size).sum := by
  rw [charStart, List.take_left, Bytes.size_ofString, String.toList_ofList]

/-- A boundary is the start of a character, the one behind all characters before it. -/
theorem charIndex_append {before after : String} (h : b.content = before ++ after) :
    b.charIndex (Bytes.ofString before).size = .ok before.toList.length := by
  simp only [charIndex, h, String.toList_append, Bytes.size_ofString, charAt_append,
    charStart_append, if_true]

theorem charIndex_eq_error (h : ¬b.text.BoundaryAt byte) :
    b.charIndex byte = .error (.notCharBoundary byte) := by
  rw [charIndex]
  split
  · rename_i hstart
    refine absurd (Bytes.boundaryAt_ofString.mpr ?_) h
    refine ⟨.ofList (b.content.toList.take (charAt b.content.toList byte)),
      .ofList (b.content.toList.drop (charAt b.content.toList byte)), ?_, ?_⟩
    · rw [← String.ofList_append, List.take_append_drop, String.ofList_toList]
    · exact hstart.symm
  · rfl

/-! ## Lines and points -/

/-- The row and column of an offset, from the line feeds before it and the start of
its line. -/
def place (bs : List UInt8) (k : Nat) : Point :=
  let row := (bs.take k).count lineFeed
  ⟨row, k - ((linesOf bs).take row).flatten.length⟩

theorem place_lineFeed (bs : List UInt8) (k : Nat) :
    place (lineFeed :: bs) (k + 1) = Point.zero.step lineFeed + place bs k := by
  simp only [place, List.take_succ_cons, List.count_cons_self]
  cases hrow : (bs.take k).count lineFeed with
  | zero => simp [Point.add_def, Point.step, Point.zero, linesOf]
  | succ row =>
    simp [Point.add_def, Point.step, Point.zero, linesOf]
    omega

theorem place_of_ne {b : UInt8} (h : b ≠ lineFeed) (bs : List UInt8) (k : Nat) :
    place (b :: bs) (k + 1) = Point.zero.step b + place bs k := by
  simp only [place, List.take_succ_cons, List.count_cons_of_ne h]
  cases hl : linesOf bs with
  | nil => exact absurd hl (linesOf_ne_nil bs)
  | cons line lines =>
    cases hrow : (bs.take k).count lineFeed with
    | zero => simp [Point.add_def, Point.step, h, Point.zero, Nat.add_comm]
    | succ row => simp [Point.add_def, Point.step, h, Point.zero, linesOf, hl]

/-- Lines and columns counted so are those that a scan of the bytes counts. -/
theorem place_eq (bs : List UInt8) {k : Nat} (h : k ≤ bs.length) :
    place bs k = (bs.take k).foldl Point.step .zero := by
  induction bs generalizing k with
  | nil =>
    obtain rfl := Nat.le_zero.mp h
    rfl
  | cons b bs ih =>
    cases k with
    | zero => simp [place, Point.zero]
    | succ k =>
      rw [List.take_succ_cons, List.foldl_cons, Point.foldl_step_eq_add,
        ← ih (Nat.le_of_succ_le_succ h)]
      by_cases hb : b = lineFeed
      · rw [hb, place_lineFeed]
      · exact place_of_ne hb bs k

/-- The point of an offset is the extent of the text before it. -/
theorem point?_eq (h : byte ≤ b.text.size) :
    b.point? byte = some (extentOf (b.text.extract 0 byte)) := by
  rw [point?, if_neg (Nat.not_lt.mpr h), extentOf, ← Array.foldl_toList, Array.toList_extract]
  exact congrArg some ((place_eq _ (by simpa using h)).trans (by simp [List.extract]))

/-! ## One replacement -/

/-- What becomes of a text, and what is answered, when its bytes `start..stop` are
to be replaced: the replacement is made and told as `Edit.replace` tells it, or
the first condition that the range breaks is named. -/
inductive Replaces (text : Bytes) (start stop : Nat) (new : Bytes) :
    Except BufferError Edit → Bytes → Prop where
  | done (hle : start ≤ stop) (hsize : stop ≤ text.size) (hstart : text.BoundaryAt start)
      (hstop : text.BoundaryAt stop)
      (hvalid : (Edit.replace text start stop new).validate text.size = .ok ()) :
      Replaces text start stop new (.ok (Edit.replace text start stop new))
        (text.extract 0 start ++ new ++ text.extract stop text.size)
  | outOfBounds (h : ¬(start ≤ stop ∧ stop ≤ text.size)) :
      Replaces text start stop new (.error (.outOfBounds start stop text.size)) text
  | splitsAtStart (hle : start ≤ stop) (hsize : stop ≤ text.size) (h : ¬text.BoundaryAt start) :
      Replaces text start stop new (.error (.notCharBoundary start)) text
  | splitsAtStop (hle : start ≤ stop) (hsize : stop ≤ text.size) (hstart : text.BoundaryAt start)
      (h : ¬text.BoundaryAt stop) :
      Replaces text start stop new (.error (.notCharBoundary stop)) text

section Replacement

variable {start stop : Nat} {new : String}

/-- A replacement is made exactly where the range lies in the text and splits no
character. -/
theorem Replaces.isOk_iff {text new text' : Bytes} {answer : Except BufferError Edit}
    (h : Replaces text start stop new answer text') :
    (∃ e, answer = .ok e) ↔
      start ≤ stop ∧ stop ≤ text.size ∧ text.BoundaryAt start ∧ text.BoundaryAt stop := by
  cases h with
  | done hle hsize hstart hstop _ => exact iff_of_true ⟨_, rfl⟩ ⟨hle, hsize, hstart, hstop⟩
  | outOfBounds h => exact iff_of_false (by simp) fun hn => h ⟨hn.1, hn.2.1⟩
  | splitsAtStart _ _ h => exact iff_of_false (by simp) fun hn => h hn.2.2.1
  | splitsAtStop _ _ _ h => exact iff_of_false (by simp) fun hn => h hn.2.2.2

open Request in
/-- A replacement step by step: the first check that fails ends it, and the buffer
is not touched before the last one. -/
theorem replace_on :
    (replace start stop new).on b =
      if start ≤ stop ∧ stop ≤ b.text.size then
        match b.charIndex start, b.charIndex stop with
        | .ok first, .ok last =>
          (.ok ⟨⟨start, (b.point? start).getD .zero⟩, ⟨stop, (b.point? stop).getD .zero⟩,
              ⟨start + (Bytes.ofString new).size,
                ((b.point? start).getD .zero).advance (Bytes.ofString new)⟩⟩,
            (b.remove first last).insertAt first new)
        | .ok _, .error e => (.error e, b)
        | .error e, _ => (.error e, b)
      else (.error (.outOfBounds start stop b.text.size), b) := by
  unfold replace
  rw [bind_on_of_ok _ (get_on b)]
  by_cases h : start ≤ stop ∧ stop ≤ b.text.size
  · have hcheck : ¬(stop < start ∨ b.text.size < stop) := by omega
    rw [if_pos h]
    simp only [gt_iff_lt, Bool.or_eq_true, decide_eq_true_eq, hcheck, if_false]
    cases hfirst : b.charIndex start with
    | error e => exact bind_on_of_error _ (ofExcept_on b _)
    | ok first =>
      rw [bind_on_of_ok _ (ofExcept_on b _)]
      cases hlast : b.charIndex stop with
      | error e => exact bind_on_of_error _ (ofExcept_on b _)
      | ok last => rfl
  · have hcheck : stop < start ∨ b.text.size < stop := by omega
    rw [if_neg h]
    simp only [gt_iff_lt, Bool.or_eq_true, decide_eq_true_eq, hcheck, if_true]
    exact throw_on b _

/-- The points that a buffer finds in its lines are those of the bytes. -/
theorem edit_eq (hle : start ≤ stop) (hsize : stop ≤ b.text.size) (new : Bytes) :
    (⟨⟨start, (b.point? start).getD .zero⟩, ⟨stop, (b.point? stop).getD .zero⟩,
        ⟨start + new.size, ((b.point? start).getD .zero).advance new⟩⟩ : Edit) =
      Edit.replace b.text start stop new := by
  have hsizes : (b.text.extract 0 start).size = start ∧ (b.text.extract 0 stop).size = stop := by
    simp only [Array.size_extract]
    omega
  rw [point?_eq (Nat.le_trans hle hsize), point?_eq hsize, Edit.replace_eq hle hsize,
    Length.of_append]
  simp only [Length.of, hsizes]
  rfl

/-- What the buffer holds is cut out and put together by characters, but that is a
matter of bytes. -/
theorem text_remove_insertAt {before after before' after' : String}
    (h : b.content = before ++ after) (h' : b.content = before' ++ after') :
    ((b.remove before.toList.length before'.toList.length).insertAt before.toList.length new).text =
      b.text.extract 0 (Bytes.ofString before).size ++ Bytes.ofString new ++
        b.text.extract (Bytes.ofString before').size b.text.size := by
  have htake : b.content.toList.take before.toList.length = before.toList := by simp [h]
  have hdrop : b.content.toList.drop before'.toList.length = after'.toList := by simp [h']
  have hbefore : b.text.extract 0 (Bytes.ofString before).size = Bytes.ofString before := by
    rw [text, h, Bytes.ofString_append]
    simp
  have hafter : b.text.extract (Bytes.ofString before').size b.text.size =
      Bytes.ofString after' := by
    rw [text, h', Bytes.ofString_append]
    simp
  simp only [remove, insertAt, htake, hdrop, String.toList_ofList, List.take_left, List.drop_left]
  rw [text, hbefore, hafter]
  simp only [String.ofList_append, String.ofList_toList, Bytes.ofString_append]

/-- The buffer replaces as the bytes do. -/
theorem replaces_replace (b : Buffer) (start stop : Nat) (new : String) :
    Replaces b.text start stop (Bytes.ofString new) ((replace start stop new).on b).1
      ((replace start stop new).on b).2.text := by
  rw [replace_on]
  by_cases h : start ≤ stop ∧ stop ≤ b.text.size
  · rw [if_pos h]
    by_cases hstart : b.text.BoundaryAt start
    · by_cases hstop : b.text.BoundaryAt stop
      · obtain ⟨before, after, hcontent, hbefore⟩ := Bytes.boundaryAt_ofString.mp hstart
        obtain ⟨before', after', hcontent', hbefore'⟩ := Bytes.boundaryAt_ofString.mp hstop
        have hfirst : b.charIndex start = .ok before.toList.length :=
          hbefore ▸ charIndex_append hcontent
        have hlast : b.charIndex stop = .ok before'.toList.length :=
          hbefore' ▸ charIndex_append hcontent'
        simp only [hfirst, hlast]
        rw [edit_eq h.1 h.2, text_remove_insertAt hcontent hcontent', ← hbefore, ← hbefore']
        exact .done h.1 h.2 hstart hstop (Edit.validate_replace h.1 h.2)
      · obtain ⟨before, after, hcontent, hbefore⟩ := Bytes.boundaryAt_ofString.mp hstart
        have hfirst : b.charIndex start = .ok before.toList.length :=
          hbefore ▸ charIndex_append hcontent
        simp only [hfirst, charIndex_eq_error hstop]
        exact .splitsAtStop h.1 h.2 hstart hstop
    · simp only [charIndex_eq_error hstart]
      exact .splitsAtStart h.1 h.2 hstart
  · rw [if_neg h]
    exact .outOfBounds h

end Replacement

/-! ## Calls one after another -/

/-- A call of an editor. -/
inductive Call where
  | replace (start stop : Nat) (new : String)
  | insert (byte : Nat) (new : String)
  | delete (start stop : Nat)
  deriving DecidableEq, Repr

/-- What a call asks of the buffer. -/
def Call.request : Call → Request Edit
  | .replace start stop new => Buffer.replace start stop new
  | .insert byte new => Buffer.insert byte new
  | .delete start stop => Buffer.delete start stop

/-- Where the text that a call replaces starts. -/
def Call.start : Call → Nat
  | .replace start _ _ | .insert start _ | .delete start _ => start

/-- Where the text that a call replaces ends. -/
def Call.stop : Call → Nat
  | .replace _ stop _ | .insert stop _ | .delete _ stop => stop

/-- The text that a call puts in. -/
def Call.new : Call → String
  | .replace _ _ new | .insert _ new => new
  | .delete _ _ => ""

theorem Call.request_eq (call : Call) :
    call.request = Buffer.replace call.start call.stop call.new := by
  cases call <;> rfl

/-- Makes calls, each of the buffer that the one before left. -/
def run (b : Buffer) : List Call → List (Except BufferError Edit) × Buffer
  | [] => ([], b)
  | call :: calls =>
    let (answer, next) := call.request.on b
    let (answers, last) := next.run calls
    (answer :: answers, last)

/-- What becomes of a text, and what is answered, when calls are made one after
another. -/
inductive Edits : Bytes → List Call → List (Except BufferError Edit) → Bytes → Prop where
  | nil {text : Bytes} : Edits text [] [] text
  | cons {text next last : Bytes} {call : Call} {calls : List Call}
      {answer : Except BufferError Edit} {answers : List (Except BufferError Edit)}
      (hcall : Replaces text call.start call.stop (Bytes.ofString call.new) answer next)
      (hcalls : Edits next calls answers last) :
      Edits text (call :: calls) (answer :: answers) last

theorem edits_run (b : Buffer) (calls : List Call) :
    Edits b.text calls (b.run calls).1 (b.run calls).2.text := by
  induction calls generalizing b with
  | nil => exact .nil
  | cons call calls ih =>
    have hcall : Replaces b.text call.start call.stop (Bytes.ofString call.new)
        (call.request.on b).1 (call.request.on b).2.text := by
      rw [call.request_eq]
      exact replaces_replace b call.start call.stop call.new
    exact .cons hcall (ih _)

/-! ## Chunks -/

/-- Where the chunks of a text end: behind the offset that is asked for, between two
characters. -/
structure ChunkEnds (text : Bytes) (stop : Nat → Nat) : Prop where
  lt_stop : ∀ byte < text.size, byte < stop byte
  stop_le : ∀ byte < text.size, stop byte ≤ text.size
  boundary : ∀ byte < text.size, text.BoundaryAt (stop byte)

theorem isCharBoundary_of_boundaryAt (h : b.text.BoundaryAt byte) : b.isCharBoundary byte = true := by
  obtain ⟨before, after, htext, rfl⟩ := h
  rw [isCharBoundary, htext, Array.getElem?_append_right (Nat.le_refl _), Nat.sub_self]
  cases hhead : (Bytes.ofString after)[0]? with
  | none => rfl
  | some first => simp [Bytes.isTail_head_ofString hhead]

theorem chunkedText_cons {chunk : Bytes} (h : 0 < chunk.size) (chunks : List Bytes) :
    chunkedText (chunk :: chunks) = chunk ++ chunkedText chunks := by
  have hne : (!chunk.isEmpty) = true := by
    rw [Bool.not_eq_true', Array.isEmpty_eq_false_iff, ne_eq, ← Array.size_eq_zero_iff]
    omega
  have hassoc : Std.Associative fun x y : Bytes => x ++ y := ⟨fun _ _ _ => Array.append_assoc⟩
  rw [chunkedText, List.takeWhile_cons, if_pos hne, List.foldl_cons, Array.empty_append]
  calc (chunks.takeWhile fun c => !c.isEmpty).foldl (· ++ ·) chunk
    _ = (chunks.takeWhile fun c => !c.isEmpty).foldl (· ++ ·) (chunk ++ #[]) := by
      rw [Array.append_empty]
    _ = chunk ++ chunkedText chunks := List.foldl_assoc

section Chunks

variable {stop : Nat → Nat}

/-- The chunk of a boundary ends where chunks end, so it is not empty. -/
theorem chunkAt_eq (h : b.text.BoundaryAt byte) (hlt : byte < b.text.size) :
    b.chunkAt stop byte = b.text.extract byte (stop byte) := by
  rw [chunkAt, isCharBoundary_of_boundaryAt h]
  simp [hlt]

theorem byte_add_size_chunkAt (hstop : ChunkEnds b.text stop) (h : b.text.BoundaryAt byte)
    (hlt : byte < b.text.size) : byte + (b.chunkAt stop byte).size = stop byte := by
  have hgt := hstop.lt_stop byte hlt
  have hle := hstop.stop_le byte hlt
  rw [chunkAt_eq h hlt, Array.size_extract]
  omega

/-- The chunks from a boundary on make up the rest of the text. -/
theorem chunkedText_chunksFrom (hstop : ChunkEnds b.text stop) (hbyte : byte ≤ b.text.size)
    (h : b.text.BoundaryAt byte) :
    chunkedText (b.chunksFrom stop byte) = b.text.extract byte b.text.size := by
  fun_induction b.chunksFrom stop byte with
  | case1 byte hchunk ih =>
    have hlt : byte < b.text.size := lt_size_of_chunkAt hchunk
    have hle := hstop.stop_le byte hlt
    have hgt := hstop.lt_stop byte hlt
    rw [byte_add_size_chunkAt hstop h hlt] at ih
    rw [chunkedText_cons hchunk, byte_add_size_chunkAt hstop h hlt,
      ih hle (hstop.boundary byte hlt), chunkAt_eq h hlt, Array.extract_append_extract,
      Nat.min_eq_left (Nat.le_of_lt hgt), Nat.max_eq_right hle]
  | case2 byte hchunk =>
    -- A chunk is empty at the end of the text only.
    rcases Nat.eq_or_lt_of_le hbyte with rfl | hlt
    · simp [chunkedText]
    · have hadd := byte_add_size_chunkAt hstop h hlt
      have hgt := hstop.lt_stop byte hlt
      omega

/-- A buffer parses as its text does. -/
theorem parse_eq (hstop : ChunkEnds b.text stop) (l : Language) (limits : Parse.Limits)
    (old : Option Tree) : b.parse stop l limits old = l.parse limits b.text old := by
  have hstart : b.text.BoundaryAt 0 := ⟨"", b.content, by simp [Bytes.ofString, text], rfl⟩
  have hchunks := chunkedText_chunksFrom hstop (Nat.zero_le _) hstart
  rw [Array.extract_size] at hchunks
  rw [Buffer.parse, Language.parseChunks, hchunks]

end Chunks

/-- A buffer and its bytes agree along every run: each call replaces what
`Edit.replace` tells, or is refused for the first condition that it breaks, and
the text that is left is parsed as those bytes. -/
theorem edits_run_parse (s : String) (calls : List Call) :
    ∃ answers b, (ofString s).run calls = (answers, b) ∧
      Edits (Bytes.ofString s) calls answers b.text ∧
      ∀ stop, ChunkEnds b.text stop → ∀ (l : Language) (limits : Parse.Limits) old,
        b.parse stop l limits old = l.parse limits b.text old :=
  ⟨_, _, rfl, edits_run (ofString s) calls, fun _ hstop => parse_eq hstop⟩

/-- The chunks of `aéx`, line feed, `√c` may end behind the line feed. -/
theorem edits_run_parse_twoChunks : ∃ l answers b,
    Language.ofGrammar 0 .threeLines none = .ok l ∧
    (ofString "aé\rb\nc").run [.delete 2 3, .replace 3 6 "x\n√"] = (answers, b) ∧
    Edits (Bytes.ofString "aé\rb\nc") [.delete 2 3, .replace 3 6 "x\n√"] answers b.text ∧
    answers.map Except.toOption = [none, some ⟨⟨3, ⟨0, 3⟩⟩, ⟨6, ⟨1, 0⟩⟩, ⟨8, ⟨1, 3⟩⟩⟩] ∧
    b.text = Bytes.ofString "aéx\n√c" ∧
    ChunkEnds b.text (fun byte => if byte < 5 then 5 else 9) ∧
    b.parse (fun byte => if byte < 5 then 5 else 9) l {} none = l.parse {} b.text none := by
  have hl : (Language.ofGrammar 0 .threeLines none).toOption.any (fun _ => true) = true := by
    decide +kernel
  obtain ⟨l, hl, -⟩ := exists_ok hl
  obtain ⟨answers, b, hrun, hedits, hparse⟩ :=
    edits_run_parse "aé\rb\nc" [.delete 2 3, .replace 3 6 "x\n√"]
  have hanswers : (((ofString "aé\rb\nc").run [.delete 2 3, .replace 3 6 "x\n√"]).1.map
      Except.toOption) = [none, some ⟨⟨3, ⟨0, 3⟩⟩, ⟨6, ⟨1, 0⟩⟩, ⟨8, ⟨1, 3⟩⟩⟩] := by
    decide +kernel
  have htext : ((ofString "aé\rb\nc").run [.delete 2 3, .replace 3 6 "x\n√"]).2.text =
      Bytes.ofString "aéx\n√c" := by
    decide +kernel
  rw [hrun] at hanswers htext
  have hsize : b.text.size = 9 := by rw [htext]; decide +kernel
  have hends : ChunkEnds b.text (fun byte => if byte < 5 then 5 else 9) := by
    refine ⟨fun byte h => ?_, fun byte h => ?_, fun byte h => ?_⟩
    · rw [hsize] at h
      split <;> omega
    · rw [hsize]
      split <;> omega
    · rw [htext]
      split
      · exact ⟨"aéx\n", "√c", by decide +kernel, by decide +kernel⟩
      · exact ⟨"aéx\n√c", "", by decide +kernel, by decide +kernel⟩
  exact ⟨l, answers, b, hl, hrun, hedits, hanswers, htext, hends, hparse _ hends l {} none⟩

end Buffer

end Glr
