/-!
# Glr.Unicode.BreakData

Sets of code points that the rules for the bounds of graphemes, words and
sentences name.  A set is a text of hexadecimal numbers, two for each range:
the code points left out since the range before, and the distance from the
first to the last code point.
-/

namespace Glr.Unicode

/-- Characters that count as letters of words without being alphabetic. -/
def otherLetterData : List String :=
  [
    "2c2 3 c 5 6 1 5 6 1 0 1 10 25a 2 1 0 2b 0 68 0 11b 0 9ff8 e 9 1 67 1 3d0 0"
  ]

/-- Letters of scripts that write words without separators. -/
def complexContextData : List String :=
  [
    "e01 2f 1 1 c 6 3a 1 1 0 1 4 1 17 1 0 1 9 1 1 9 0 2 4 1 0 15 3 120 2a 14 0 10 5 4 3 3 0 3 1 7",
    "2 4 c c 0 6f1 33 23 0 4 0 173 1d 2 4 b 2b 4 19 56 34 52 0 8f38 4 1 9 a 4 61 16 3 0 3 31 1 0",
    "3 1 2 4 2 0 1 0 18 2 6c22 1a 25 6"
  ]

/-- Characters of no script of their own that are written with Katakana. -/
def otherKatakanaData : List String :=
  [
    "3031 4 65 1 3 0 5b 0 ce73 0"
  ]

/-- Characters inside words, between letters. -/
def midLetterData : List String :=
  [
    "3a 0 7c 0 2cf 0 1d7 0 94 0 1a32 0 ddeb 0 41 0 c4 0"
  ]

/-- Characters inside numbers, between digits. -/
def midNumData : List String :=
  [
    "2c 0 e 0 342 0 20a 0 82 1 5e 0 18b 0 184b 0 de0b 0 3 0 b7 0 e 0"
  ]

/-- Characters inside words and inside numbers. -/
def midNumLetData : List String :=
  [
    "2e 0 1fe9 1 a 0 de2d 0 b4 0 6 0"
  ]

/-- Characters that end lines, without the carriage return and the line feed. -/
def newlineData : List String :=
  [
    "b 1 78 0 1fa2 1"
  ]

/-- Spacing marks that do not extend the character before them. -/
def notSpacingMarkData : List String :=
  [
    "102b 1 b 0 29 2 2 6 15 0 3 5 2 0 a 2 9c4 0 1 1 9016 0 1 0 6ca2 1"
  ]

/-- Characters that belong to the one after them. -/
def prependData : List String :=
  [
    "600 5 d7 0 31 0 180 1 50 0 46b 0 1036e 0 f 0 f4 1 20d 0 56d 0 1 0 f8 0 49 5 2bc 0 1bb 0"
  ]

/-- Leading consonants of Hangul syllables. -/
def leadingJamoData : List String :=
  [
    "1100 5f 9800 1c"
  ]

/-- Vowels of Hangul syllables. -/
def vowelJamoData : List String :=
  [
    "1160 47 c608 16 959c 0 3 3"
  ]

/-- Trailing consonants of Hangul syllables. -/
def trailingJamoData : List String :=
  [
    "11a8 57 c5cb 30"
  ]

/-- Characters that end sentences like a full stop. -/
def fullStopData : List String :=
  [
    "2e 0 1ff5 0 de2d 0 bb 0"
  ]

/-- Punctuation after which a sentence goes on. -/
def sentenceContinueData : List String :=
  [
    "2c 1 c 1 342 0 1de 0 ae 1 1ea 0 1009 0 5 0 80a 1 fec 0 ce0e 1 1 1 1c 1 1d 1 2 1 2 0 a 0 a8 1",
    "c 1 48 0"
  ]

/-- Characters that end paragraphs. -/
def paragraphEndData : List String :=
  [
    "85 0 1fa2 1"
  ]

/-- Quotation marks that are no punctuation in pairs. -/
def otherCloseData : List String :=
  [
    "22 0 4 0 2733 5 69f 1 4 2 2 0 1c86a 2"
  ]


end Glr.Unicode
