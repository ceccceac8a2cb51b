import Glr.Unicode.BreakData
import Glr.Unicode.Category
import Glr.Unicode.Folding

/-!
# Glr.Unicode.Binary

Properties that a character has or has not, among them the digits, blanks and
word characters of patterns.  Sets that follow from others are computed by the
rules that derive them.
-/

namespace Glr.Unicode

/-! ## Data

Sets of code points that the general category does not tell.  A set is a text
of hexadecimal numbers, two for each range: the code points left out since the
range before, and the distance from the first to the last code point.
-/

/-- The ranges of the property `ASCII_Hex_Digit`. -/
def asciiHexDigitData : List String :=
  [
    "30 9 7 5 1a 5"
  ]

/-- The ranges of the property `Bidi_Control`. -/
def bidiControlData : List String :=
  [
    "61c 0 19f1 1 1a 4 37 3"
  ]

/-- The ranges of the property `Bidi_Mirrored`. -/
def bidiMirroredData : List String :=
  [
    "28 1 12 0 1 0 1c 0 1 0 1d 0 1 0 2d 0 f 0 e7e 3 75d 1 99c 1 a 1 36 1 e 1 b1 0 c0 3 3 5 3 0 3",
    "1 3 3 1 3 1 0 1 0 4 8 5 0 1 11 5 3 9 1 1 0 1 7 1 1f 2 3 5 0 9 1 2 12 5 1 9 4 2 1 4 17 2 f 8",
    "3 14 1 7 1 43d d 4a 0 2 3 1 1 1 2 5 3 5 2 3 d 193 15 2 5 1 d 8 0 7 5 3 0 4 4 1 1 2 4 4 0 1 2",
    "2 1 a 5 2 1 c 12 1 3 2 0 1 0 2 0 1 3 5 1 6 2 18 1 b 1 4 3 1 1 2 1 4 2a 2 7 1 27 5 0 1 0 3 4",
    "5 2 4 0 3 4 1 0 100 0 203 3 3 1 1 1 e 1 2 9 2b 7 1ab 9 2 7 ce3d 5 5 1 a2 1 12 0 1 0 1c 0 1 0",
    "1d 0 1 0 1 1 1 1 d777 0 39 0 39 0 39 0 39 0"
  ]

/-- The ranges of the property `Dash`. -/
def dashData : List String :=
  [
    "2d 0 55c 0 33 0 e41 0 405 0 809 5 3d 0 27 0 f 0 186 0 c04 0 2 0 1f 1 4 0 1c 0 1be 0 13 0 6f",
    "0 cd90 1 25 0 a 0 a9 0 e60 0 13e 0"
  ]

/-- The ranges of the property `Deprecated`. -/
def deprecatedData : List String :=
  [
    "149 0 529 0 903 0 1 0 829 1 8c5 5 2b9 1 ddcd6 0"
  ]

/-- The ranges of the property `Diacritic`. -/
def diacriticData : List String :=
  [
    "5e 0 1 0 47 0 6 0 4 0 2 1 1f7 9e 1 7 5 5 11 1 4 0 9 1 fd 4 d1 0 37 10 1 1a 1 0 1 1 1 0 86 7",
    "4 1 86 1 4 1 3 2 43 1a 5b a 3a a 22 1 7e 7 29 9 10 1b 3d 0 10 0 3 3 1c 0 4a 0 10 0 6e 0 10 0",
    "6e 0 10 0 2f 2 3c 0 10 0 7 0 77 0 6e 0 10 0 6e 0 10 0 6d 1 10 0 7c 0 6f 0 c 5 1 0 6b 0 d 4",
    "4b 1 1b 0 1 0 1 0 4 1 42 2 1 1 3e 0 70 0 1 1 28 1 4 4 19 6 1 0 a 1 2c1 2 3b4 1 1e 0 94 a 9 0",
    "15b 2 124 0 14 7 2 0 30 e 2 a 68 0 f 0 26 8 36 1 3a 0 b 1 42 1 40 5 52 18 4 0 6 0 2 2 32 3e",
    "59 b 25 a 1bd 0 1 2 b 2 d 2 d 2 d 1 cf0 2 13d 0 1fa 5 69 3 5f 0 7572 0 c 1 1 0 1c 1 52 1 e",
    "21 66 2 6d 1 c 0 25 0 97 0 1b 11 39 3 24 0 5f 0 c 0 24 0 95 2 41 3 33 0 64 4 9 2 80 1 4f30 0",
    "301 f 10e 0 1 0 2f 0 2d 1 43 0 2fc 0 49f 5 1 29 1 8 27d 2 4 0 a5 1 23b 5 26 0 1a 4 18f 2 46",
    "a 31 3 c0 0 29 0 48 1 78 1 3e 0 4c 0 9 2 68 1 b2 1 50 1 10 0 18 6 3 4 59 2 1 1 d 1 5f 0 3 0",
    "7b 1 fb 1 7e 0 76 1 73 0 10d 1 102 1 4 0 9c 0 53 0 12 0 51 0 1a5 0 102 0 1 1 51 0 1a9 1 17 0",
    "14ec e 2cd9 0 9c0 4 3b 6 234 1 222 10 50 1 3ffe 3 1 6 1 1 1f01 2d 2 16 220 2 3 5 8 7 2 6 1e",
    "3 e82 3d c2 6 177 0 3d 3 2fe 1 2e0 6 6d 2 1 2"
  ]

/-- The ranges of the property `Emoji`. -/
def emojiData : List String :=
  [
    "23 0 6 0 5 9 6f 0 4 0 1f8d 0 c 0 d8 0 16 0 5a 5 f 1 16f 1 c 0 a6 0 19 a 4 2 c7 0 e7 1 a 0 9",
    "0 3a 3 1 4 9 0 2 0 2 1 2 0 4 0 2 0 1 1 2 0 3 0 3 1 8 2 5 0 1 0 5 b b 1 2 0 1 1 1 0 12 0 2 1",
    "12 5 1 0 1 1 3 1 5 0 2 1 4 1 b 1 5 1 2 0 5 1 1 0 1 1 14 1 5 5 1 3 2 0 4 0 2 0 2 5 1 0 2 0 1",
    "0 1 0 6 0 3 0 6 0 a 1 f 0 2 0 4 0 1 0 4 2 1 0 b 1 30 2 9 0 e 0 e 0 174 1 1cf 2 13 1 33 0 4 0",
    "4da 0 c 0 259 0 1 0 1bd6a 0 ca 0 a0 1 c 1 e 0 2 9 4b 19 1 1 17 0 14 0 2 8 15 1 ae 21 2 6f 2",
    "1 1 2 2 52 2 2 1 106 1 3e b 5 1 17 7 1 2 7 c 0 2 3 2 0 4 1 d 1 2 0 8 1 9 0 5 2 c 2 8 2 2 0 1",
    "0 4 0 6 0 3 0 6 55 30 45 5 7 2 2 4 9 3 0 1 1 3 0 2 9 e3 b 4 0 11b 2e 1 9 1 b8 70 c 3 9 5 37",
    "7 e 2 a 6 8"
  ]

/-- The ranges of the property `Emoji_Component`. -/
def emojiComponentData : List String :=
  [
    "23 0 6 0 5 9 1fd3 0 d5 0 dd2b 0 f3d6 19 1fb 4 5b0 3 c066c 5f"
  ]

/-- The ranges of the property `Emoji_Modifier`. -/
def emojiModifierData : List String :=
  [
    "1f3fb 4"
  ]

/-- The ranges of the property `Emoji_Modifier_Base`. -/
def emojiModifierBaseData : List String :=
  [
    "261d 0 db 0 10 3 1cc77 0 3c 2 2 0 2 2 75 1 2 a 15 12 3 0 4 2 1 2 7 0 1 0 18 0 c9 1 4 0 15 0",
    "4 1 ae 2 3 4 53 0 10 2 9 0 b 0 23f 0 2 0 8 7 6 0 9 9 2 2 38 0 3d 1 1 1 1 0 11 2 1 c e5 2 2a",
    "8"
  ]

/-- The ranges of the property `Emoji_Presentation`. -/
def emojiPresentationData : List String :=
  [
    "231a 1 cd 3 3 0 2 0 209 1 15 1 32 b 2b 0 13 0 d 0 8 1 11 1 5 1 8 0 5 0 15 0 7 1 1 0 4 0 2 0",
    "7 0 4 1 1c 0 23 0 1 0 4 2 1 0 3d 2 18 0 e 0 35b 1 33 0 4 0 1c4ae 0 ca 0 be 0 2 9 4b 19 1 0",
    "18 0 14 0 2 4 1 2 15 1 ae 20 c 8 1 45 1 15 c 2a 4 4 c 10 3 0 3 46 1 0 1 ba 2 3e d 3 1 17 12",
    "0 1a 1 d 0 56 54 30 45 6 0 3 2 2 2 4 3 b 1 7 8 e3 b 4 0 11b 2e 1 9 1 b8 70 c 3 9 5 37 7 e 2",
    "a 6 8"
  ]

/-- The ranges of the property `Extended_Pictographic`. -/
def extendedPictographicData : List String :=
  [
    "a9 0 4 0 1f8d 0 c 0 d8 0 16 0 5a 5 f 1 16f 1 c 0 5f 0 46 0 19 a 4 2 c7 0 e7 1 a 0 9 0 3a 3 1",
    "5 1 b 1 71 a 75 2 a 1 0 1 0 6 0 3 0 6 0 a 1 f 0 2 0 4 0 1 0 4 2 1 0 b 4 2d 2 9 0 e 0 e 0 174",
    "1 1cf 2 13 1 33 0 4 0 4da 0 c 0 259 0 1 0 1bd66 ff d 2 1f 0 3c 5 c 1 e 0 2 9 12 38 1b e a 0",
    "14 0 2 8 1 3 9 1b1 5 13d 8 109 30 7f 74 b 55 2a c 3 38 7 a 5 28 7 1e 51 c 2e 1 9 1 1b8 100",
    "3fd"
  ]

/-- The ranges of the property `Extender`. -/
def extenderData : List String :=
  [
    "b7 0 218 1 36e 0 1b9 0 276 0 89 0 59 0 2f0 0 7f 0 943 0 38 0 263 0 18e 0 44 0 1389 0 2b 4 67",
    "1 5d 2 6f16 0 5f6 0 3c2 0 16 0 89 0 6c 0 15 1 547b 0 810 1 5cb 0 1b 0 4 0 4c7 0 125 0 74 1",
    "1f2 2 4cf 0 50a9 1 49c 1 1 0 7158 1 4b1 0 354 2"
  ]

/-- The ranges of the property `Grapheme_Link`. -/
def graphemeLinkData : List String :=
  [
    "94d 0 7f 0 7f 0 7f 0 7f 0 7f 0 7f 0 7f 0 6d 1 10 0 7c 0 6f 0 7f 0 c9 0 b4 1 6d9 1 1e 0 9d 0",
    "28d 0 e3 0 65 1 46 1 118b 0 7a86 0 25 0 97 0 8e 0 6c 0 135 0 f6 0 5e51 0 606 0 29 0 e 0 39 0",
    "79 1 8b 0 74 0 b4 0 62 0 80 2 71 0 7f 0 fc 0 7f 0 76 0 74 0 10d 0 103 1 a1 0 53 0 12 0 51 0",
    "1a5 0 104 1 51 0 1a9 1 41ec 0"
  ]

/-- The ranges of the property `Hex_Digit`. -/
def hexDigitData : List String :=
  [
    "30 9 7 5 1a 5 fea9 9 7 5 1a 5"
  ]

/-- The ranges of the property `Hyphen`. -/
def hyphenData : List String :=
  [
    "2d 0 7f 0 4dc 0 127b 0 809 1 e05 0 2e3 0 cd67 0 a9 0 57 0"
  ]

/-- The ranges of the property `ID_Compat_Math_Continue`. -/
def idCompatMathContinueData : List String :=
  [
    "b2 1 5 0 1fb6 0 3 a 1 e 173 0 4 0 16 0 1b4a2 0 19 0 1f 0 19 0 1f 0 19 0 1f 0 19 0 1f 0 19 0"
  ]

/-- The ranges of the property `ID_Compat_Math_Start`. -/
def idCompatMathStartData : List String :=
  [
    "2202 0 4 0 16 0 1b4a2 0 19 0 1f 0 19 0 1f 0 19 0 1f 0 19 0 1f 0 19 0"
  ]

/-- The ranges of the property `Ideographic`. -/
def ideographicData : List String :=
  [
    "3006 1 19 8 e 2 3c5 19bf 40 51ff 5900 16d 2 69 750a 0 1b 17f7 8 4d5 29 9 2467 18b 4d04 a6df",
    "20 1039 6 dd 2 1681 e 1d30 f 26d 9a2 21d 5e2 134a 5 105f"
  ]

/-- The ranges of the property `IDS_Binary_Operator`. -/
def idsBinaryOperatorData : List String :=
  [
    "2ff0 1 2 9 1f1 0"
  ]

/-- The ranges of the property `IDS_Trinary_Operator`. -/
def idsTrinaryOperatorData : List String :=
  [
    "2ff2 1"
  ]

/-- The ranges of the property `IDS_Unary_Operator`. -/
def idsUnaryOperatorData : List String :=
  [
    "2ffe 1"
  ]

/-- The ranges of the property `Join_Control`. -/
def joinControlData : List String :=
  [
    "200c 1"
  ]

/-- The ranges of the property `Logical_Order_Exception`. -/
def logicalOrderExceptionData : List String :=
  [
    "e40 4 7b 4 af0 2 2 0 90fa 1 2 0 1 1"
  ]

/-- The ranges of the property `Modifier_Combining_Mark`. -/
def modifierCombiningMarkData : List String :=
  [
    "654 1 2 0 83 0 6 0 3 1 1e1 1 1 2 3 0 1f 0"
  ]

/-- The ranges of the property `Noncharacter_Code_Point`. -/
def noncharacterCodePointData : List String :=
  [
    "fdd0 1f 20e 1 fffe 1 fffe 1 fffe 1 fffe 1 fffe 1 fffe 1 fffe 1 fffe 1 fffe 1 fffe 1 fffe 1",
    "fffe 1 fffe 1 fffe 1 fffe 1 fffe 1"
  ]

/-- The ranges of the property `Other_Alphabetic`. -/
def otherAlphabeticData : List String :=
  [
    "345 0 1d c 240 d 1 0 1 1 1 1 1 0 48 a 30 c 1 6 10 0 65 6 4 3 2 1 4 0 23 0 1e f 66 a 65 1 3 8",
    "1 2 1 3 6a 0 3c b 3 6 6 13 36 1 2 e 1 1 5 2 a 1 1d 2 3a 6 2 1 2 1 a 0 a 1 1d 2 3a 4 4 1 2 1",
    "4 0 1e 1 3 0 b 2 3a 7 1 2 1 1 15 1 16 2 4 2 3a 6 2 1 2 1 9 1 a 1 1e 0 3b 4 3 2 1 2 a 0 28 4",
    "39 6 1 2 1 2 8 1 b 1 1d 2 3a 6 1 2 1 2 8 1 b 1 f 0 c 3 3a 6 1 2 1 2 a 0 a 1 1d 2 4b 5 1 0 1",
    "7 12 1 3d 0 2 6 12 0 63 0 2 5 1 1 10 0 a3 12 9 a 1 23 6e b 1 0 2 3 17 3 4 2 1 2 2 6 3 3 d b",
    "1 0 a 3 674 1 1e 1 1e 1 1e 1 42 12 bc 1 22 0 76 b 4 8 de 4 39 9 2 13 4a 1 b 2 31 4 30 e 3c 2",
    "1e 8 2 1 39 a 32 12 19c 21 6c1 33 8f6 1f 7874 7 22 1 162 0 8 0 17 4 58 1 32 f 1 0 39 0 26 4",
    "1c b 2d 3 30 b 25 0 43 d c 0 8 1 2d 2 32 0 1 2 2 1 5 0 2c 4 5 0 ed 7 4f33 0 857 4 686 2 1 1",
    "5 3 314 3 41 0 141 1 4f 0 103 2 35 d 2d 1 b 2 2d 8 9 0 3d 2 24 b 12 1 39 2 30 c e 1 5c 8 2 0",
    "6 0 2 0 9d 9 17 3 3a 6 2 1 2 1 a 0 a 1 54 8 1 0 2 0 1 3 1 1 67 c 1 2 6a 11 ed 6 2 6 1d 1 52",
    "e 1 0 6a a 67 d 101 c f7 5 1 1 2 1 3 0 1 0 8e 6 2 5 4 0 1c 9 2a 4 1 3 12 a 2e d 197 7 1 6 53",
    "15 1 d 7a 5 3 0 1 1 1 2 1 0 3 0 42 4 1 1 1 3 15c 3 9 1 1 0 30 6 3 2 41dd 10 e20 0 1 36 7 3",
    "5d 1 4cac 0 2361 6 1 10 2 6 1 1 1 4 64 0 8b7 0 7e8 19 6 19 6 19"
  ]

/-- The ranges of the property `Other_Default_Ignorable_Code_Point`. -/
def otherDefaultIgnorableCodePointData : List String :=
  [
    "34f 0 e0f 1 653 1 8af 0 10fe 0 ce3b 0 4f 8 d0007 0 1 1d 60 7f f0 e0f"
  ]

/-- The ranges of the property `Other_Grapheme_Extend`. -/
def otherGraphemeExtendData : List String :=
  [
    "9be 0 18 0 166 0 18 0 66 0 18 0 e8 0 1 0 4 1 1 1 9 1 67 0 18 0 77 0 f 0 935 0 1e 0 400 0 5 0",
    "1 0 5 1 65 0 47 1 418 0 1021 1 7923 0 6c 0 55dd 1 1220 0 74 0 108 0 e 0 9 0 60 0 9 0 2 0 1 2",
    "5 0 e0 0 c 0 f1 0 106 0 279 0 c 0 603 0 50ae 1 6173 1 6 5 c2ead 5f"
  ]

/-- The ranges of the property `Other_ID_Continue`. -/
def otherIDContinueData : List String :=
  [
    "b7 0 2cf 0 fe1 8 668 0 631 1 10ed 0 ce69 0"
  ]

/-- The ranges of the property `Other_ID_Start`. -/
def otherIDStartData : List String :=
  [
    "1885 1 891 0 15 0 f6c 1"
  ]

/-- The ranges of the property `Other_Lowercase`. -/
def otherLowercaseData : List String :=
  [
    "aa 0 f 0 1f5 8 7 1 1e 4 60 0 34 0 d81 0 c2f 3e d 0 22 24 2b1 0 d 0 10 c d3 f 350 19 792 1",
    "7a1e 1 d2 0 81 2 3 1 362 3 9 0 5c16 0 2 2 1 29 1 8 d875 3d"
  ]

/-- The ranges of the property `Other_Math`. -/
def otherMathData : List String :=
  [
    "5e 0 371 2 2 0 1a 1 2 1 1c20 0 1b 2 b 0 20 3 18 1 e 1 41 c 4 0 3 1 4 4 12 0 4 0 2 9 1 0 3 4",
    "6 0 3 1 2 1 1 2 1 5 3 3 5 4 4b 4 2 3 1 1 1 1 1 0 1 4 2 1 4 1 4 11 2 1 1 0 1 6 1 0 6 1 122 3",
    "a8 1 1 0 18 0 11 0 1bd 1 c 8 5 4 5 1 2 1 3 4 e 0 1 0 2 5 18 1 39 0 1 0 1d 3 9 1 156 1 1f 9",
    "193 15 3f 3 20 1 d463 0 1 0 4 0 d3 0 1 0 d4c1 54 1 46 1 1 2 0 2 1 2 3 1 b 1 0 1 6 1 40 1 3 2",
    "7 1 6 1 1b 1 3 1 4 1 0 3 6 1 153 2 18 1 18 1 1e 1 18 1 1e 1 18 1 1e 1 18 1 1e 1 18 1 7 2 31",
    "1600 3 1 1a 1 1 1 0 2 0 1 9 1 3 1 0 1 0 6 0 4 0 1 0 1 0 1 2 1 1 1 0 2 0 1 0 1 0 1 0 1 0 1 1",
    "1 0 2 3 1 6 1 3 1 3 1 0 1 9 1 10 5 2 1 4 1 10"
  ]

/-- The ranges of the property `Other_Uppercase`. -/
def otherUppercaseData : List String :=
  [
    "2160 f 346 19 1cc60 19 6 19 6 19"
  ]

/-- The ranges of the property `Pattern_Syntax`. -/
def patternSyntaxData : List String :=
  [
    "21 e a 6 1a 3 1 0 1a 3 22 6 1 0 1 1 1 0 1 1 4 0 4 0 3 0 17 0 1f 0 1f18 17 8 e 2 12 1 9 131",
    "2cf a0 275 1e 46b 200 7f 181 2 4 18 f 0 cd0d 1 105 1"
  ]

/-- The ranges of the property `Pattern_White_Space`. -/
def patternWhiteSpaceData : List String :=
  [
    "9 4 12 0 64 0 1f88 1 18 1"
  ]

/-- The ranges of the property `Prepended_Concatenation_Mark`. -/
def prependedConcatenationMarkData : List String :=
  [
    "600 5 d7 0 31 0 180 1 50 0 107da 0 f 0"
  ]

/-- The ranges of the property `Quotation_Mark`. -/
def quotationMarkData : List String :=
  [
    "22 0 4 0 83 0 f 0 1f5c 7 19 1 e07 0 1c9 3 d 2 ce21 3 bd 0 4 0 5a 1"
  ]

/-- The ranges of the property `Radical`. -/
def radicalData : List String :=
  [
    "2e80 19 1 58 c d5"
  ]

/-- The ranges of the property `Regional_Indicator`. -/
def regionalIndicatorData : List String :=
  [
    "1f1e6 19"
  ]

/-- The ranges of the property `Sentence_Terminal`. -/
def sentenceTerminalData : List String :=
  [
    "21 0 c 0 10 0 549 0 93 2 b4 0 2b 2 f6 0 3d 0 1 0 3 1 125 1 6e4 1 316 0 4 1 305 0 c6 1 9d 1",
    "2d 0 5 0 13a 1 162 3 a2 1 a 1 2 1 1d 2 bb 1 41 1 3a4 0 17 1 9 2 caf 2 132 0 d 0 16 1 1ad 0",
    "74fc 0 10e 1 e3 0 3 0 17e 1 56 1 5f 0 98 1 93 2 90 1 f9 0 5226 0 2 1 3b 0 3 1 a9 0 c 0 10 0",
    "41 0 af4 1 4fd 4 2c 3 bd 1 75 3 7f 2 81 1 6 0 10 1 58 1 1 1 6c 0 12a 1 75 1 175 1 5 e 69 1",
    "f9 2 205 0 1 0 fb 1 57 1 1a4 1 2b4 1 4a 1 4b29 1 85 0 41 1 b 0 229 1 128 0 4e06 0 1de8 0"
  ]

/-- The ranges of the property `Soft_Dotted`. -/
def softDottedData : List String :=
  [
    "69 1 c4 0 119 0 1e 0 34 0 14 0 140 0 62 0 1 0 1909 0 33 0 d 0 3 0 84 0 9d 0 1a5 0 d6 1 b32 0",
    "1a7a5 1 32 1 32 1 32 1 32 1 32 1 32 1 32 1 32 1 32 1 32 1 32 1 32 1 886 0 131 1 1a 0"
  ]

/-- The ranges of the property `Terminal_Punctuation`. -/
def terminalPunctuationData : List String :=
  [
    "21 0 a 0 1 0 b 1 3 0 33e 0 8 0 201 0 39 0 48 0 e 0 1 2 b4 0 2b a 1 0 eb 1 36 5 1 7 1f 0 105",
    "1 4f4 1 ac 0 4 5 137 1 315 7 305 0 7c 2 47 1 9d 2 3 0 27 3 2 1 13a 1 162 3 a2 1 a 1 1 2 1d 2",
    "bb 4 3e 1 3a4 0 17 1 9 2 caf 2 132 0 d 0 4 0 a 0 1 1 3 1 1ac 1 74fb 1 10d 2 e3 4 17e 1 56 1",
    "5f 0 97 2 93 2 7f 0 10 1 f9 0 5226 0 2 1 39 2 1 3 a9 0 a 0 1 0 b 1 3 0 41 0 2 0 43a 0 30 0",
    "486 0 c7 0 136 1 98 5 44 5 59 3 3b8 4 2c 3 bd 6 70 3 7f 2 81 1 6 0 10 1 58 4 6c 0 12a 1 75 2",
    "c 1 166 3 3 e 69 1 f9 2 205 0 1 0 fb 1 57 1 4 1 19e 2 2d 0 285 1 4a 1 52b 4 45f9 1 85 0 41 2",
    "a 0 229 1 127 1 4e06 0 1de7 3"
  ]

/-- The ranges of the property `Unified_Ideograph`. -/
def unifiedIdeographData : List String :=
  [
    "3400 19bf 40 51ff 5a0e 1 1 0 1 1 a 0 1 0 1 1 2 2 105d6 a6df 20 1039 6 dd 2 1681 e 1d30 f 26d",
    "11a2 134a 5 105f"
  ]

/-- The ranges of the property `Variation_Selector`. -/
def variationSelectorData : List String :=
  [
    "180b 2 1 0 e5f0 f d02f0 ef"
  ]

/-- The ranges of the property `White_Space`. -/
def whiteSpaceData : List String :=
  [
    "9 4 12 0 64 0 1a 0 15df 0 97f a 1d 1 5 0 2f 0 fa0 0"
  ]

/-- Characters that `ID_Start` has and `XID_Start` has not. -/
def idNotXStartData : List String :=
  [
    "37a 0 ab8 0 7f 0 21e7 1 cbc1 5 196 1 74 0 1 0 1 0 1 0 1 0 1 0 1 0 1 0 11f 1"
  ]

/-- Characters that `ID_Continue` has and `XID_Continue` has not. -/
def idNotXContinueData : List String :=
  [
    "37a 0 2d20 1 cbc1 5 196 1 74 0 1 0 1 0 1 0 1 0 1 0 1 0 1 0"
  ]


/-! ## Sets that patterns use -/

/-- Decimal digits. -/
def digits : CharSet := categories ["Nd"]

/-- Blanks. -/
def blanks : CharSet := dataSet whiteSpaceData

/-- Letters, and numbers that are written with letters. -/
def letters : CharSet := categories ["Lu", "Ll", "Lt", "Lm", "Lo", "Nl"]

/-- Letters, and marks and numbers that are used like letters. -/
def alphabetic : CharSet := letters.union (dataSet otherAlphabeticData)

/-- Characters of words: letters, marks, digits, connectors and joiners. -/
def wordChars : CharSet :=
  CharSet.unions
    [alphabetic, categories ["Mn", "Mc", "Me", "Nd", "Pc"], dataSet joinControlData]

/-! ## Derived sets -/

/-- Characters of lower case. -/
def lowercase : CharSet := (categories ["Ll"]).union (dataSet otherLowercaseData)

/-- Characters of upper case. -/
def uppercase : CharSet := (categories ["Lu"]).union (dataSet otherUppercaseData)

/-- Characters that have a case. -/
def cased : CharSet := CharSet.unions [lowercase, uppercase, categories ["Lt"]]

/-- Marks that extend the character before them. -/
def graphemeExtend : CharSet := (categories ["Mn", "Me"]).union (dataSet otherGraphemeExtendData)

/-- Characters that stand for themselves, and may be extended. -/
def graphemeBase : CharSet :=
  ((categories ["Cc", "Cf", "Cs", "Co", "Cn", "Zl", "Zp"]).union graphemeExtend).complement
    CharSet.maxChar

/-- Marks that are written before the digits or letters that follow. -/
def prependedMarks : CharSet := dataSet prependedConcatenationMarkData

/-- Characters that show nothing where they are not supported. -/
def defaultIgnorable : CharSet :=
  (CharSet.unions
    [ categories ["Cf"], dataSet variationSelectorData,
      dataSet otherDefaultIgnorableCodePointData ]).diff
    (CharSet.unions
      [blanks, prependedMarks, .interval 0xFFF9 0xFFFB, .interval 0x13430 0x13440])

/-- Characters with a meaning in patterns, now or later. -/
def patternChars : CharSet := (dataSet patternSyntaxData).union (dataSet patternWhiteSpaceData)

/-- Characters that may begin an identifier. -/
def idStart : CharSet := (letters.union (dataSet otherIDStartData)).diff patternChars

/-- Characters that may continue an identifier. -/
def idContinue : CharSet :=
  (CharSet.unions
    [idStart, categories ["Mn", "Mc", "Nd", "Pc"], dataSet otherIDContinueData]).diff patternChars

/-- Characters that a mapping to lower case changes. -/
def changesWhenLowercased : CharSet := steppedSet changesWhenLowercasedData

/-- Characters that a mapping to title case changes. -/
def changesWhenTitlecased : CharSet := steppedSet changesWhenTitlecasedData

/-- Characters that a mapping to upper case changes. -/
def changesWhenUppercased : CharSet := steppedSet changesWhenUppercasedData

/-- Characters that the rules for case look through: marks, modifiers, formats
and punctuation inside words. -/
def caseIgnorable : CharSet :=
  CharSet.unions
    [ categories ["Mn", "Me", "Cf", "Lm", "Sk"], dataSet midLetterData, dataSet midNumLetData,
      .singleton 39 ]

/-! ## Sets by name -/

/-- The binary properties by their folded names. -/
def binaryProperties : List (List String × CharSet) :=
  [ (["asciihexdigit", "ahex"], dataSet asciiHexDigitData),
    (["alphabetic", "alpha"], alphabetic),
    (["bidicontrol", "bidic"], dataSet bidiControlData),
    (["bidimirrored", "bidim"], dataSet bidiMirroredData),
    (["caseignorable", "ci"], caseIgnorable),
    (["cased"], cased),
    (["changeswhencasefolded", "cwcf"], steppedSet changesWhenCasefoldedData),
    (["changeswhencasemapped", "cwcm"],
      CharSet.unions [changesWhenLowercased, changesWhenTitlecased, changesWhenUppercased]),
    (["changeswhenlowercased", "cwl"], changesWhenLowercased),
    (["changeswhentitlecased", "cwt"], changesWhenTitlecased),
    (["changeswhenuppercased", "cwu"], changesWhenUppercased),
    (["dash"], dataSet dashData),
    (["defaultignorablecodepoint", "di"], defaultIgnorable),
    (["deprecated", "dep"], dataSet deprecatedData),
    (["diacritic", "dia"], dataSet diacriticData),
    (["emoji"], dataSet emojiData),
    (["emojicomponent", "ecomp"], dataSet emojiComponentData),
    (["emojimodifier", "emod"], dataSet emojiModifierData),
    (["emojimodifierbase", "ebase"], dataSet emojiModifierBaseData),
    (["emojipresentation", "epres"], dataSet emojiPresentationData),
    (["extendedpictographic", "extpict"], dataSet extendedPictographicData),
    (["extender", "ext"], dataSet extenderData),
    (["graphemebase", "grbase"], graphemeBase),
    (["graphemeextend", "grext"], graphemeExtend),
    (["graphemelink", "grlink"], dataSet graphemeLinkData),
    (["hexdigit", "hex"], dataSet hexDigitData),
    (["hyphen"], dataSet hyphenData),
    (["idsbinaryoperator", "idsb"], dataSet idsBinaryOperatorData),
    (["idstrinaryoperator", "idst"], dataSet idsTrinaryOperatorData),
    (["idsunaryoperator", "idsu"], dataSet idsUnaryOperatorData),
    (["idcompatmathcontinue"], dataSet idCompatMathContinueData),
    (["idcompatmathstart"], dataSet idCompatMathStartData),
    (["idcontinue", "idc"], idContinue),
    (["idstart", "ids"], idStart),
    (["ideographic", "ideo"], dataSet ideographicData),
    (["joincontrol", "joinc"], dataSet joinControlData),
    (["logicalorderexception", "loe"], dataSet logicalOrderExceptionData),
    (["lowercase", "lower"], lowercase),
    (["math"], (categories ["Sm"]).union (dataSet otherMathData)),
    (["modifiercombiningmark", "mcm"], dataSet modifierCombiningMarkData),
    (["noncharactercodepoint", "nchar"], dataSet noncharacterCodePointData),
    (["otheralphabetic", "oalpha"], dataSet otherAlphabeticData),
    (["otherdefaultignorablecodepoint", "odi"], dataSet otherDefaultIgnorableCodePointData),
    (["othergraphemeextend", "ogrext"], dataSet otherGraphemeExtendData),
    (["otheridcontinue", "oidc"], dataSet otherIDContinueData),
    (["otheridstart", "oids"], dataSet otherIDStartData),
    (["otherlowercase", "olower"], dataSet otherLowercaseData),
    (["othermath", "omath"], dataSet otherMathData),
    (["otheruppercase", "oupper"], dataSet otherUppercaseData),
    (["patternsyntax", "patsyn"], dataSet patternSyntaxData),
    (["patternwhitespace", "patws"], dataSet patternWhiteSpaceData),
    (["prependedconcatenationmark", "pcm"], prependedMarks),
    (["quotationmark", "qmark"], dataSet quotationMarkData),
    (["radical"], dataSet radicalData),
    (["regionalindicator", "ri"], dataSet regionalIndicatorData),
    (["sentenceterminal", "sterm"], dataSet sentenceTerminalData),
    (["softdotted", "sd"], dataSet softDottedData),
    (["terminalpunctuation", "term"], dataSet terminalPunctuationData),
    (["unifiedideograph", "uideo"], dataSet unifiedIdeographData),
    (["uppercase", "upper"], uppercase),
    (["variationselector", "vs"], dataSet variationSelectorData),
    (["whitespace", "wspace", "space"], blanks),
    (["xidcontinue", "xidc"], idContinue.diff (dataSet idNotXContinueData)),
    (["xidstart", "xids"], idStart.diff (dataSet idNotXStartData)) ]

/-- The binary property with a folded name. -/
def binary? (key : String) : Option CharSet :=
  (binaryProperties.find? fun e => e.1.contains key).map Prod.snd

end Glr.Unicode
