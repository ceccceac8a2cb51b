import Glr.Scanner.Basic

/-!
# Glr.Jcl.Scanner

Data between statements.  The scanner remembers the delimiter that a `DLM=`
operand set, until the line with the delimiter; while it remembers nothing, the
delimiter is `/*` and a line with `//` ends the data, too.
-/

namespace Glr.Jcl

/-- The place of the data lines among the tokens of the scanner. -/
def dataLinesToken : Nat := 0

/-- The place of the delimiter. -/
def delimiterToken : Nat := 1

/-- The place of the value of a `DLM=` operand. -/
def dlmValueToken : Nat := 2

/-- The delimiter while none is set. -/
def defaultDelimiter : Bytes := Bytes.ofString "/*"

/-- What starts a statement. -/
def statementStart : Bytes := Bytes.ofString "//"

/-- The quote. -/
def quoteByte : UInt8 := 39

/-- Whether a byte is a blank within a line. -/
def isBlank (b : UInt8) : Bool := b == 32 || b == 9 || b == 13

/-- Whether a byte ends a value without quotes. -/
def endsValue (b : UInt8) : Bool := b == 44 || b == 41 || isBlank b || b == lineFeed

/-- Reads a value after its first quote: two quotes stand for one, and one ends
it.  There is none if the line ends first; `fuel` bounds the bytes. -/
def quotedValue? : Nat → ScanCursor → Bytes → Option (Bytes × ScanCursor)
  | 0, _, _ => none
  | fuel + 1, c, value =>
    match c.lookahead with
    | (none, _) => none
    | (some b, c) =>
      if b = lineFeed then none
      else if b = quoteByte then
        match c.advance.lookahead with
        | (some b, c) =>
          if b = quoteByte then quotedValue? fuel c.advance (value.push quoteByte)
          else some (value, c)
        | (none, c) => some (value, c)
      else quotedValue? fuel c.advance (value.push b)

/-- Reads a value without quotes; `fuel` bounds the bytes. -/
def bareValue : Nat → ScanCursor → Bytes → Bytes × ScanCursor
  | 0, c, value => (value, c)
  | fuel + 1, c, value =>
    match c.lookahead with
    | (none, c) => (value, c)
    | (some b, c) => if endsValue b then (value, c) else bareValue fuel c.advance (value.push b)

/-- Reads the value of a `DLM=` operand; an empty one does not count. -/
def dlmValue? (c : ScanCursor) : Option (Bytes × ScanCursor) :=
  let fuel := c.text.size + 1
  let found := match c.lookahead with
    | (some b, c) =>
      if b = quoteByte then quotedValue? fuel c.advance #[] else some (bareValue fuel c #[])
    | (none, c) => some (bareValue fuel c #[])
  found.filter fun v => !v.1.isEmpty

/-- Whether only blanks are left in the line, from some bytes past the cursor on;
`fuel` bounds the bytes. -/
def isBlankFrom : Nat → Nat → ScanCursor → Bool × ScanCursor
  | 0, _, c => (true, c)
  | fuel + 1, offset, c =>
    match c.peek offset with
    | (none, c) => (true, c)
    | (some b, c) =>
      if b = lineFeed then (true, c)
      else if isBlank b then isBlankFrom fuel (offset + 1) c
      else (false, c)

/-- Whether data ends at the cursor: with the text, at the delimiter, or at a
statement where `statements` end it. -/
def dataEnds (delimiter : Bytes) (statements : Bool) (c : ScanCursor) : Bool × ScanCursor :=
  if c.atEnd then (true, c)
  else
    match c.startsWith delimiter with
    | (true, c) => (true, c)
    | (false, c) => if statements then c.startsWith statementStart else (false, c)

/-- Passes lines of data, `count` of which were passed before; answers how many
there are.  `fuel` bounds the lines. -/
def dataLines (delimiter : Bytes) (statements : Bool) : Nat → Nat → ScanCursor → Nat × ScanCursor
  | 0, count, c => (count, c)
  | fuel + 1, count, c =>
    match dataEnds delimiter statements c with
    | (true, c) => (count, c)
    | (false, c) => dataLines delimiter statements fuel (count + 1) c.advanceLine.markEnd

/-- The report on data lines. -/
def dataReport (lines : Nat) : Log.Event := ⟨.trace, "in-stream data", [("lines", .nat lines)]⟩

/-- Finds data lines, if the line at the cursor is not blank.  A blank line after
a statement is no data. -/
def scanData (delimiter : Bytes) (c : ScanCursor) (state : ScannerState) :
    Option Scan × List Log.Event :=
  let fuel := c.text.size + 1
  match isBlankFrom fuel 0 c with
  | (true, _) => (none, [])
  | (false, c) =>
    let (lines, c) := dataLines delimiter state.isEmpty fuel 0 c
    (if lines > 0 then some ⟨dataLinesToken, c, state⟩ else none, [dataReport lines])

/-- Finds the tokens around data. -/
def scan (c : ScanCursor) (valid : List Bool) (state : ScannerState) :
    Option Scan × List Log.Event :=
  let isValid (token : Nat) : Bool := valid[token]?.getD false
  if isValid dlmValueToken then
    ((dlmValue? c).map fun (value, c) => ⟨dlmValueToken, c, value⟩, [])
  else if !c.atLineStart then (none, [])
  else
    let delimiter := if state.isEmpty then defaultDelimiter else state
    let (ends, c) := if isValid delimiterToken then c.startsWith delimiter else (false, c)
    if ends then (some ⟨delimiterToken, c.advanceBy delimiter.size, #[]⟩, [])
    else if isValid dataLinesToken then scanData delimiter c state
    else (none, [])

/-- The scanner of the language. -/
def scanner : Scanner := ⟨scan⟩

end Glr.Jcl
