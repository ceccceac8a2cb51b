import Glr.Scanner.Basic

/-!
# Glr.Scanner.Script

Scanners that are given as programs, one for each token.  The programs of the
valid tokens run in order, each from where the one before it got to, until one
finishes.
-/

namespace Glr.Script

/-- An instruction of a program. -/
inductive Instr where
  /-- Fails unless the text goes on with this, and passes it. -/
  | expect (part : Bytes)
  /-- Fails unless the text goes on with this. -/
  | check (part : Bytes)
  /-- Passes everything up to this, or to the end of the text. -/
  | skipTo (part : Bytes)
  /-- Passes the bytes that are among these. -/
  | skipAll (bytes : Bytes)
  | advance (count : Nat)
  | advanceLine
  | markEnd
  /-- Fails unless a line starts here. -/
  | atLineStart
  /-- Fails unless the text ends here, or unless it does not. -/
  | atEnd (expected : Bool)
  /-- Fails unless this byte, or the end of the text, is some way ahead. -/
  | peek (offset : Nat) (byte : Option UInt8)
  /-- Fails unless the scanner remembers this. -/
  | state (expected : ScannerState)
  /-- Remembers this. -/
  | remember (state : ScannerState)
  /-- Remembers in decimal how many bytes were passed. -/
  | rememberConsumed
  /-- Ends the scan with a token. -/
  | answer (token : Nat)
  | fail
  deriving Repr

/-- Where a program stands. -/
structure Machine where
  cursor : ScanCursor
  state : ScannerState
  deriving Repr

/-- How an instruction ends. -/
inductive Outcome where
  | next
  | failed
  | answered (token : Nat)
  deriving Repr

/-- Passes everything up to `part`; `fuel` bounds the bytes. -/
def skipTo (part : Bytes) : Nat → ScanCursor → ScanCursor
  | 0, c => c
  | fuel + 1, c =>
    if c.atEnd then c
    else
      match c.startsWith part with
      | (true, c) => c
      | (false, c) => skipTo part fuel c.advance

/-- Passes the bytes that are among some; `fuel` bounds their number. -/
def skipAll (bytes : Bytes) : Nat → ScanCursor → ScanCursor
  | 0, c => c
  | fuel + 1, c =>
    match c.lookahead with
    | (some b, c) => if bytes.contains b then skipAll bytes fuel c.advance else c
    | (none, c) => c

/-- Fails unless a test holds. -/
def Outcome.require (holds : Bool) : Outcome := if holds then .next else .failed

/-- Runs one instruction. -/
def Instr.run (i : Instr) (m : Machine) : Outcome × Machine :=
  let c := m.cursor
  let fuel := c.text.size + 1
  match i with
  | .expect part =>
    match c.startsWith part with
    | (true, c) => (.next, { m with cursor := c.advanceBy part.size })
    | (false, c) => (.failed, { m with cursor := c })
  | .check part =>
    let (holds, c) := c.startsWith part
    (.require holds, { m with cursor := c })
  | .skipTo part => (.next, { m with cursor := Script.skipTo part fuel c })
  | .skipAll bytes => (.next, { m with cursor := Script.skipAll bytes fuel c })
  | .advance count => (.next, { m with cursor := c.advanceBy (min count fuel) })
  | .advanceLine => (.next, { m with cursor := c.advanceLine })
  | .markEnd => (.next, { m with cursor := c.markEnd })
  | .atLineStart => (.require c.atLineStart, m)
  | .atEnd expected => (.require (c.atEnd == expected), m)
  | .peek offset byte =>
    let (b, c) := c.peek offset
    (.require (b == byte), { m with cursor := c })
  | .state expected => (.require (m.state == expected), m)
  | .remember s => (.next, { m with state := s })
  | .rememberConsumed => (.next, { m with state := Bytes.ofString (toString c.consumed) })
  | .answer token => (.answered token, m)
  | .fail => (.failed, m)

/-- Runs the program of a token; a program that finishes answers its token. -/
def runProgram (token : Nat) : List Instr → Machine → Option Nat × Machine
  | [], m => (some token, m)
  | i :: rest, m =>
    match i.run m with
    | (.next, m) => runProgram token rest m
    | (.failed, m) => (none, m)
    | (.answered t, m) => (some t, m)

/-- Runs the programs of the valid tokens, from the token with a number on. -/
def runPrograms (valid : List Bool) (token : Nat) : List (List Instr) → Machine → Option Scan
  | [], _ => none
  | p :: rest, m =>
    if valid[token]? == some true then
      match runProgram token p m with
      | (some t, m) => some ⟨t, m.cursor, m.state⟩
      | (none, m) => runPrograms valid (token + 1) rest m
    else runPrograms valid (token + 1) rest m

/-- The scanner of some programs. -/
def scanner (programs : List (List Instr)) : Scanner where
  scan cursor valid state := (runPrograms valid 0 programs ⟨cursor, state⟩, [])

end Glr.Script
