import Glr.Unicode.CharSet

/-!
# Glr.Regex.Syntax

Regular expressions over bytes.  A `Node` matches characters (the UTF-8 bytes
of a code point in a set), single bytes, or positions; repetition is greedy or
lazy, and of two alternatives the first one is preferred.  A text is matched
byte by byte.
-/

namespace Glr.Regex

open Unicode (CharSet)

/-- A test of a position.  Word tests say whether words are those of Unicode
(`true`) or of ASCII. -/
inductive Look where
  /-- The start of the text. -/
  | textStart
  /-- The end of the text. -/
  | textEnd
  /-- The start of a line; `crlf` has carriage returns end lines too. -/
  | lineStart (crlf : Bool)
  /-- The end of a line. -/
  | lineEnd (crlf : Bool)
  /-- A word on exactly one side. -/
  | wordBoundary (unicode : Bool)
  /-- A word on both sides or on none. -/
  | notWordBoundary (unicode : Bool)
  /-- A word after the position only. -/
  | wordStart (unicode : Bool)
  /-- A word before the position only. -/
  | wordEnd (unicode : Bool)
  /-- No word before the position. -/
  | wordStartHalf (unicode : Bool)
  /-- No word after the position. -/
  | wordEndHalf (unicode : Bool)
  deriving DecidableEq, Repr

/-- A regular expression. -/
inductive Node where
  /-- The empty text. -/
  | empty
  /-- One character of a set. -/
  | chars (set : CharSet)
  /-- One byte of a set. -/
  | bytes (set : CharSet)
  /-- A position. -/
  | look (l : Look)
  /-- One expression after another. -/
  | seq (first second : Node)
  /-- One of two expressions, preferably the first. -/
  | alt (first second : Node)
  /-- At least `least` and at most `most` times, preferably many if `greedy`. -/
  | times (body : Node) (least : Nat) (most : Option Nat) (greedy : Bool)
  /-- A group with a number. -/
  | group (index : Nat) (body : Node)
  deriving DecidableEq, Repr, Inhabited

/-- What changes the meaning of the characters of a pattern. -/
structure Flags where
  /-- `i`: letters match in either case. -/
  ignoreCase : Bool := false
  /-- `m`: `^` and `$` match at lines. -/
  multiLine : Bool := false
  /-- `s`: the dot matches line feeds. -/
  dotAll : Bool := false
  /-- `U`: quantifiers are lazy, and greedy with a question mark. -/
  swapGreed : Bool := false
  /-- `u`: characters are code points; without it, bytes. -/
  unicode : Bool := true
  /-- `R`: carriage returns end lines too. -/
  crlf : Bool := false
  /-- `x`: blanks and comments are skipped. -/
  verbose : Bool := false
  deriving DecidableEq, Repr

/-- Why a pattern is refused. -/
inductive Error where
  | missingOperand
  | badRepetition
  | unclosedGroup
  | unopenedGroup
  | unsupportedLookAround
  | unsupportedBackreference
  | badGroupName
  | badFlags
  | unclosedClass
  | badClassRange
  | badClassItem
  | badEscape
  | badCodePoint
  | unknownProperty
  | unicodeNotAllowed
  | nestedTooDeeply
  | tooLarge
  deriving DecidableEq, Repr

end Glr.Regex
