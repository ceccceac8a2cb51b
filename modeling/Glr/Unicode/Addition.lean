import Glr.Unicode.Binary

/-!
# Glr.Unicode.Addition

Patterns know the characters of version 16 of the standard; names are read and
written by version 17, which adds some.  This module holds the sets of the later
version.
-/

namespace Glr.Unicode

/-! ## Data

Characters that version 17 of the standard adds to those of version 16.  A set
is a text of hexadecimal numbers, two for each range: the code points left out
since the range before, and the distance from the first to the last code point.
-/

/-- The added characters that print by themselves. -/
def addedVisibleData : List String :=
  [
    "88f 0 3cc 0 7f 0 13e4 0 ad4 0 7c37 1 2 0 1 0 1c 0 53d1 f 1bd 1 36 6 b71 19 56b 2 8 8 c88 0 3",
    "0 1 0 248 2b 4 9 50b6 18 2 18 11e 4 1801 7 509 15 61 72 3f07 2 1bd 16 f 10 17cf 1e 1 2 1 1 1",
    "6 2 4 9 1 fd8 0 9e 3 155 8 17b 3 32 0 3 0 39 0 4 0 1c 0 4 0 10a 0 bb3f 5 1762 b 5502 10c9"
  ]

/-- The added letters, and marks that are used like letters. -/
def addedAlphabeticData : List String :=
  [
    "88f 0 3cc 0 7f 0 9af1 1 2 0 1 0 1c 0 614e 19 56b 2 32 1 c64 7 248 2b 50c4 18 2 18 11e 4 1801",
    "7 509 15 61 72 58cd 1e 1 15 8 1 d03a 5 1762 b 5502 10c9"
  ]

/-- The added digits and other numbers. -/
def addedNumberData : List String :=
  [
    "11de0 9 520a 2"
  ]


/-! ## Sets -/

/-- Characters that a name may begin with: letters, and marks that are used like
letters. -/
def nameLetters : CharSet := alphabetic.union (dataSet addedAlphabeticData)

/-- Digits and other numbers, which a name may go on with. -/
def nameNumbers : CharSet := (categories ["Nd", "Nl", "No"]).union (dataSet addedNumberData)

/-- Characters that print nothing by themselves: controls, formats, code points
that are not assigned, separators other than the space, marks that extend the
character before them, and what is ignored where it is not supported. -/
def invisible : CharSet :=
  (CharSet.unions
    [ (categories ["Cc", "Cf", "Cs", "Co", "Cn", "Zl", "Zp", "Zs"]).diff (.singleton 32),
      graphemeExtend.inter (categories ["Mn", "Mc", "Me"]), defaultIgnorable ]).diff
    (dataSet addedVisibleData)

end Glr.Unicode
