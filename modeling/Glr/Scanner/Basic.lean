import Glr.Log
import Glr.Text.Bytes

/-!
# Glr.Scanner.Basic

Scanners find the tokens that lexical rules cannot express.  A scanner is a
function; what it remembers between tokens is a text that it encodes itself,
and the parser keeps that text on the tokens.

A scanner reads through a cursor, which records how far into the text it has
looked:

```
cursor.examined   every byte at or after it is unknown to the scanner
```

so a change there cannot change the token.
-/

namespace Glr

/-- What a scanner remembers; the empty text at first. -/
abbrev ScannerState := Bytes

/-- A place in a text from which a scanner reads. -/
structure ScanCursor where
  text : Bytes
  /-- Where the token starts. -/
  start : Nat
  position : Nat
  /-- Where the token was said to end. -/
  mark : Option Nat
  /-- The end of what was looked at. -/
  examined : Nat
  deriving Repr

namespace ScanCursor

/-- A cursor at the start of a token. -/
def begin (text : Bytes) (start : Nat) : ScanCursor := ⟨text, start, start, none, start⟩

/-- The byte some way past the cursor, if the text goes that far. -/
def peek (c : ScanCursor) (offset : Nat) : Option UInt8 × ScanCursor :=
  (c.text[c.position + offset]?, { c with examined := max c.examined (c.position + offset + 1) })

/-- The byte at the cursor. -/
def lookahead (c : ScanCursor) : Option UInt8 × ScanCursor := c.peek 0

/-- Whether the text goes on with `part`. -/
def startsWith (c : ScanCursor) (part : Bytes) : Bool × ScanCursor :=
  (c.text.hasAt part c.position, { c with examined := max c.examined (c.position + part.size) })

/-- Passes one byte, unless the text ends here. -/
def advance (c : ScanCursor) : ScanCursor :=
  if c.position < c.text.size then { c with position := c.position + 1 } else c

/-- Passes some bytes. -/
def advanceBy (c : ScanCursor) : Nat → ScanCursor
  | 0 => c
  | n + 1 => c.advance.advanceBy n

/-- Whether the text ends at the cursor. -/
def atEnd (c : ScanCursor) : Bool := c.position ≥ c.text.size

/-- Passes the rest of the line and its line feed, looking at every byte of it
and, where there is no line feed, at the end of the text. -/
def advanceLine (c : ScanCursor) : ScanCursor :=
  match c.text.lineFeedFrom? c.position with
  | some i => { c with position := i + 1, examined := max c.examined (i + 1) }
  | none =>
    { c with position := max c.position c.text.size,
             examined := max c.examined (max c.position c.text.size + 1) }

/-- Ends the token at the cursor. -/
def markEnd (c : ScanCursor) : ScanCursor := { c with mark := some c.position }

/-- Whether a line starts at the cursor. -/
def atLineStart (c : ScanCursor) : Bool :=
  c.position == 0 || c.text[c.position - 1]? == some lineFeed

/-- The bytes passed since the token started. -/
def consumed (c : ScanCursor) : Nat := c.position - c.start

/-- Where the token ends: at the mark, or at the cursor if there is none. -/
def tokenEnd (c : ScanCursor) : Nat := c.mark.getD c.position

/-- The end of everything that was looked at or passed. -/
def examinedEnd (c : ScanCursor) : Nat := max c.examined c.position

/-! ## Reading on -/

theorem examined_le_peek (c : ScanCursor) (offset : Nat) :
    c.examined ≤ (c.peek offset).2.examined := Nat.le_max_left _ _

theorem examined_le_startsWith (c : ScanCursor) (part : Bytes) :
    c.examined ≤ (c.startsWith part).2.examined := Nat.le_max_left _ _

theorem examined_le_advanceLine (c : ScanCursor) : c.examined ≤ c.advanceLine.examined := by
  unfold advanceLine
  split <;> exact Nat.le_max_left _ _

theorem position_le_advance (c : ScanCursor) : c.position ≤ c.advance.position := by
  unfold advance
  split
  · exact Nat.le_succ _
  · exact Nat.le_refl _

theorem position_advanceBy (c : ScanCursor) (n : Nat) (h : c.position + n ≤ c.text.size) :
    (c.advanceBy n).position = c.position + n := by
  induction n generalizing c with
  | zero => rfl
  | succ n ih =>
    have hlt : c.position < c.text.size := by omega
    unfold advanceBy
    have ha : c.advance = { c with position := c.position + 1 } := by simp [advance, hlt]
    rw [ih c.advance (by rw [ha]; show c.position + 1 + n ≤ c.text.size; omega), ha]
    show c.position + 1 + n = c.position + (n + 1)
    omega

end ScanCursor

/-- A token that a scanner found: its number, the cursor after it, and what the
scanner remembers from here on. -/
structure Scan where
  token : Nat
  cursor : ScanCursor
  state : ScannerState
  deriving Repr

/-- A scanner.  It is told which of its tokens are valid and answers none or one
of them, with its reports; where it answers none, nothing else that it did
counts. -/
structure Scanner where
  scan : ScanCursor → List Bool → ScannerState → Option Scan × List Log.Event

end Glr
