import Glr.Text.Edit

/-!
# Glr.Text.Buffer

An editable text that describes its own edits.  A replacement must lie inside
the text and may not split a character; then the buffer holds the text with
the range replaced, and the returned `Edit` tells a tree what changed.

The buffer counts characters and lines: an offset is turned into the number of
its character and the number of its line, and these into offsets again.
-/

namespace Glr

/-- An editable text. -/
structure Buffer where
  content : String
  deriving DecidableEq, Repr, Inhabited

/-- Why a buffer refuses a replacement. -/
inductive BufferError where
  /-- The range runs backwards or past the end of the text. -/
  | outOfBounds (start stop len : Nat)
  /-- A boundary of the range splits a character. -/
  | notCharBoundary (byte : Nat)
  deriving DecidableEq, Repr

/-- The text of a buffer error. -/
def BufferError.message : BufferError → String
  | .outOfBounds start stop len =>
    s!"byte range {start}..{stop} is invalid for a text of {len} bytes"
  | .notCharBoundary byte => s!"byte {byte} is not on a character boundary"

namespace Buffer

/-- The buffer that holds a string. -/
def ofString (s : String) : Buffer := ⟨s⟩

/-- The bytes of the text. -/
def text (b : Buffer) : Bytes := Bytes.ofString b.content

/-! ## Lines -/

/-- Number of lines; a line feed at the end starts an empty last line. -/
def lineCount (b : Buffer) : Nat := (extentOf b.text).row + 1

/-- The text cut after each line feed; the last line may be empty. -/
def linesOf : List UInt8 → List (List UInt8)
  | [] => [[]]
  | b :: rest =>
    if b = lineFeed then [b] :: linesOf rest
    else
      match linesOf rest with
      | line :: lines => (b :: line) :: lines
      | [] => [[b]]

theorem linesOf_ne_nil (bs : List UInt8) : linesOf bs ≠ [] := by
  cases bs with
  | nil => simp [linesOf]
  | cons b rest =>
    unfold linesOf
    split
    · simp
    · split <;> simp

theorem flatten_linesOf (bs : List UInt8) : (linesOf bs).flatten = bs := by
  induction bs with
  | nil => rfl
  | cons b rest ih =>
    unfold linesOf
    split
    · simp [ih]
    · split
      · rename_i line lines h
        rw [h] at ih
        simpa using ih
      · rename_i h
        exact absurd h (linesOf_ne_nil rest)

/-- A text has one line more than line feeds. -/
theorem length_linesOf (bs : List UInt8) :
    (linesOf bs).length = (bs.foldl Point.step Point.zero).row + 1 := by
  induction bs with
  | nil => rfl
  | cons b rest ih =>
    rw [List.foldl_cons, Point.foldl_step_eq_add, Point.row_add]
    unfold linesOf
    by_cases h : b = lineFeed
    · simp [h, Point.step, Point.zero] at ih ⊢
      omega
    · have hne := linesOf_ne_nil rest
      simp only [h, if_false, Point.step, Point.zero] at ih ⊢
      split
      · rename_i hl
        simp only [hl, List.length_cons] at ih ⊢
        omega
      · rename_i hl
        exact absurd hl hne

/-- The text of one line, with its line feed. -/
def line? (b : Buffer) (row : Nat) : Option Bytes := (linesOf b.text.toList)[row]?.map List.toArray

/-- The lines that there are to ask for are those that are counted. -/
theorem isSome_line?_iff (b : Buffer) (row : Nat) :
    (b.line? row).isSome = true ↔ row < b.lineCount := by
  rw [line?, Option.isSome_map, lineCount, extentOf, ← Array.foldl_toList, ← length_linesOf]
  simp

/-- The number of the line that an offset lies in: the line feeds before it. -/
def lineAt (b : Buffer) (byte : Nat) : Nat := (b.text.toList.take byte).count lineFeed

/-- Where a line starts: behind all lines before it. -/
def lineStart (b : Buffer) (row : Nat) : Nat := ((linesOf b.text.toList).take row).flatten.length

/-- Row and column of an offset, if it lies inside the text or at its end. -/
def point? (b : Buffer) (byte : Nat) : Option Point :=
  if byte > b.text.size then none
  else
    let row := b.lineAt byte
    some ⟨row, byte - b.lineStart row⟩

/-! ## Characters -/

/-- The number of the character that an offset lies in: the characters that end
there or before. -/
def charAt : List Char → Nat → Nat
  | [], _ => 0
  | c :: cs, byte => if c.utf8Size ≤ byte then charAt cs (byte - c.utf8Size) + 1 else 0

/-- Where a character starts: behind all characters before it. -/
def charStart (cs : List Char) (i : Nat) : Nat := (Bytes.ofString (.ofList (cs.take i))).size

/-- The number of the character that starts at an offset. -/
def charIndex (b : Buffer) (byte : Nat) : Except BufferError Nat :=
  let i := charAt b.content.toList byte
  if charStart b.content.toList i = byte then .ok i else .error (.notCharBoundary byte)

/-- The buffer without the characters `first..last`. -/
def remove (b : Buffer) (first last : Nat) : Buffer :=
  ⟨.ofList (b.content.toList.take first ++ b.content.toList.drop last)⟩

/-- The buffer with a text before the character `i`. -/
def insertAt (b : Buffer) (i : Nat) (new : String) : Buffer :=
  ⟨.ofList (b.content.toList.take i ++ new.toList ++ b.content.toList.drop i)⟩

/-! ## Replacements -/

/-- What an editor asks of a buffer: it is answered or refused, and leaves some
buffer behind either way. -/
abbrev Request := ExceptT BufferError (StateM Buffer)

namespace Request

variable {α β : Type} (b : Buffer)

/-- Makes a request of a buffer. -/
def on (r : Request α) (b : Buffer) : Except BufferError α × Buffer := (r.run.run b).run

@[simp] theorem throw_on (e : BufferError) : on (throw e : Request α) b = (.error e, b) := rfl

@[simp] theorem get_on : on get b = (.ok b, b) := rfl

@[simp] theorem ofExcept_on (x : Except BufferError α) : on (ofExcept x) b = (x, b) := by
  cases x <;> rfl

/-- What follows an answered request finds the buffer that this one left. -/
theorem bind_on_of_ok {r : Request α} {a : α} {b b' : Buffer} (f : α → Request β)
    (h : r.on b = (.ok a, b')) : on (r >>= f) b = (f a).on b' := by
  show (ExceptT.bindCont f (r.on b).1).run (r.on b).2 = _
  rw [h]
  rfl

/-- Nothing follows a refused request. -/
theorem bind_on_of_error {r : Request α} {e : BufferError} {b b' : Buffer} (f : α → Request β)
    (h : r.on b = (.error e, b')) : on (r >>= f) b = (.error e, b') := by
  show (ExceptT.bindCont f (r.on b).1).run (r.on b).2 = _
  rw [h]
  rfl

end Request

/-- Replaces the bytes `start..stop` by a text and describes the change. -/
def replace (start stop : Nat) (new : String) : Request Edit := do
  let b ← get
  if start > stop || stop > b.text.size then throw (.outOfBounds start stop b.text.size)
  let first ← ofExcept (b.charIndex start)
  let last ← ofExcept (b.charIndex stop)
  let startPoint := (b.point? start).getD .zero
  let stopPoint := (b.point? stop).getD .zero
  modify fun b => b.remove first last
  modify fun b => b.insertAt first new
  return ⟨⟨start, startPoint⟩, ⟨stop, stopPoint⟩,
    ⟨start + (Bytes.ofString new).size, startPoint.advance (Bytes.ofString new)⟩⟩

/-- Puts a text at an offset. -/
def insert (byte : Nat) (new : String) : Request Edit := replace byte byte new

/-- Removes the bytes `start..stop`. -/
def delete (start stop : Nat) : Request Edit := replace start stop ""

/-! ## Chunks -/

/-- Whether an offset is the end of the text or the first byte of a character. -/
def isCharBoundary (b : Buffer) (byte : Nat) : Bool :=
  match b.text[byte]? with
  | none => true
  | some first => !Utf8.isTail first

/-- The text from an offset to the end of the chunk that it is stored in; empty at
the end and inside a character.  `stop` says where the chunk of an offset ends. -/
def chunkAt (b : Buffer) (stop : Nat → Nat) (byte : Nat) : Bytes :=
  if byte < b.text.size && b.isCharBoundary byte then b.text.extract byte (stop byte) else #[]

theorem lt_size_of_chunkAt {b : Buffer} {stop : Nat → Nat} {byte : Nat}
    (h : 0 < (b.chunkAt stop byte).size) : byte < b.text.size := by
  unfold chunkAt at h
  split at h
  · rename_i hbyte
    rw [Bool.and_eq_true, decide_eq_true_eq] at hbyte
    exact hbyte.1
  · contradiction

/-- The chunks from an offset on, each asked for where the one before ended, up to
an empty one. -/
def chunksFrom (b : Buffer) (stop : Nat → Nat) (byte : Nat) : List Bytes :=
  if _h : 0 < (b.chunkAt stop byte).size then
    b.chunkAt stop byte :: b.chunksFrom stop (byte + (b.chunkAt stop byte).size)
  else []
termination_by b.text.size - byte
decreasing_by
  have hlt : byte < b.text.size := lt_size_of_chunkAt _h
  omega

end Buffer

end Glr
