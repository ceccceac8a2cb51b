import Glr.Unicode.Binary
import Glr.Unicode.Script

/-!
# Glr.Unicode.Break

How characters count where a text is cut into graphemes, words and sentences.
Each of the three properties gives a character at most one value; the sets
below hold the characters of a value, and are computed by the rules that define
the values.
-/

namespace Glr.Unicode

/-- The character that joins the one before it to the one after it. -/
def joiner : CharSet := .singleton 0x200D

/-- Marks that change how the character before them is shown. -/
def modifiers : CharSet := graphemeExtend.union (dataSet emojiModifierData)

/-- Formats, without joiners and without marks before numbers and letters. -/
def formats : CharSet :=
  (categories ["Cf"]).diff
    (CharSet.unions [.interval 0x200C 0x200D, prependedMarks, graphemeExtend])

/-! ## Graphemes -/

/-- All Hangul syllables. -/
def hangulSyllables : CharSet := .interval 0xAC00 0xD7A3

/-- Hangul syllables without a trailing consonant: the first of each 28. -/
def openSyllables : CharSet := .ofRanges (stepRanges [0xAC00, 399, 28])

/-- The values of the grapheme property. -/
def graphemeBreaks : List (List String × CharSet) :=
  [ (["cr"], .singleton 13),
    (["control", "cn"],
      (CharSet.unions
        [ categories ["Cc", "Zl", "Zp"], formats,
          (categories ["Cn"]).inter defaultIgnorable ]).diff (.ofRanges [(10, 10), (13, 13)])),
    (["extend", "ex"], modifiers),
    (["l"], dataSet leadingJamoData),
    (["lf"], .singleton 10),
    (["lv"], openSyllables),
    (["lvt"], hangulSyllables.diff openSyllables),
    (["prepend", "pp"], dataSet prependData),
    (["regionalindicator", "ri"], dataSet regionalIndicatorData),
    (["spacingmark", "sm"],
      ((categories ["Mc"]).union (.ofRanges [(0xE33, 0xE33), (0xEB3, 0xEB3)])).diff
        (graphemeExtend.union (dataSet notSpacingMarkData))),
    (["t"], dataSet trailingJamoData),
    (["v"], dataSet vowelJamoData),
    (["zwj"], joiner) ]

/-! ## Words -/

/-- The mark of an abbreviation, the only mark before letters. -/
def abbreviationMark : CharSet := .singleton 0x70F

/-- Marks and modifiers after a letter. -/
def wordExtend : CharSet := (modifiers.union (categories ["Mc"])).diff joiner

/-- Digits, their separator, and the marks before them. -/
def numeric : CharSet :=
  CharSet.unions
    [digits, .ofRanges [(0x66B, 0x66B), (0x19DA, 0x19DA)], prependedMarks.diff abbreviationMark]

/-- Letters of the Katakana script, and what is written with them. -/
def katakana : CharSet := (scriptSet "Kana").union (dataSet otherKatakanaData)

/-- Hebrew letters, after which a double quote may belong to the word. -/
def hebrewLetters : CharSet := (scriptSet "Hebr").inter (categories ["Lo"])

/-- Letters of scripts that separate words. -/
def wordLetters : CharSet :=
  (alphabetic.union (dataSet otherLetterData)).diff
    (CharSet.unions
      [ dataSet ideographicData, katakana, scriptSet "Hira", wordExtend, hebrewLetters, numeric,
        dataSet complexContextData ])

/-- The values of the word property. -/
def wordBreaks : List (List String × CharSet) :=
  [ (["aletter", "le"], wordLetters),
    (["cr"], .singleton 13),
    (["doublequote", "dq"], .singleton 34),
    (["extend"], wordExtend),
    (["extendnumlet", "ex"], (categories ["Pc"]).union (.singleton 0x202F)),
    (["format", "fo"], formats.diff (.singleton 0x200B)),
    (["hebrewletter", "hl"], hebrewLetters),
    (["katakana", "ka"], katakana),
    (["lf"], .singleton 10),
    (["midletter", "ml"], dataSet midLetterData),
    (["midnum", "mn"], dataSet midNumData),
    (["midnumlet", "mb"], dataSet midNumLetData),
    (["newline", "nl"], dataSet newlineData),
    (["numeric", "nu"], numeric),
    (["regionalindicator", "ri"], dataSet regionalIndicatorData),
    (["singlequote", "sq"], .singleton 39),
    (["wsegspace"],
      (categories ["Zs"]).diff (.ofRanges [(0xA0, 0xA0), (0x2007, 0x2007), (0x202F, 0x202F)])),
    (["zwj"], joiner) ]

/-! ## Sentences -/

/-- Marks, modifiers and joiners after a letter. -/
def sentenceExtend : CharSet := CharSet.unions [graphemeExtend, categories ["Mc"], joiner]

/-- Letters of lower case; Georgian letters count as letters without case. -/
def sentenceLower : CharSet :=
  lowercase.diff (graphemeExtend.union (.ofRanges [(0x10D0, 0x10FA), (0x10FD, 0x10FF)]))

/-- Letters of upper case. -/
def sentenceUpper : CharSet :=
  (uppercase.union (categories ["Lt"])).diff (.ofRanges [(0x1C90, 0x1CBA), (0x1CBD, 0x1CBF)])

/-- Characters that end sentences, a full stop apart. -/
def sentenceEnds : CharSet := (dataSet sentenceTerminalData).diff (dataSet fullStopData)

/-- The values of the sentence property. -/
def sentenceBreaks : List (List String × CharSet) :=
  [ (["aterm", "at"], dataSet fullStopData),
    (["cr"], .singleton 13),
    (["close", "cl"], (categories ["Ps", "Pe", "Pi", "Pf"]).union (dataSet otherCloseData)),
    (["extend", "ex"], sentenceExtend),
    (["format", "fo"], formats.union abbreviationMark),
    (["lf"], .singleton 10),
    (["lower", "lo"], sentenceLower),
    (["numeric", "nu"], numeric.union (.singleton 0x66C)),
    (["oletter", "le"],
      (alphabetic.union (.singleton 0x5F3)).diff
        (CharSet.unions [sentenceLower, sentenceUpper, sentenceExtend])),
    (["scontinue", "sc"], dataSet sentenceContinueData),
    (["sterm", "st"], sentenceEnds),
    (["sep", "se"], dataSet paragraphEndData),
    (["sp"], blanks.diff ((dataSet paragraphEndData).union (.ofRanges [(10, 10), (13, 13)]))),
    (["upper", "up"], sentenceUpper) ]

/-- The set that a folded name has in a table of values. -/
def breakValue? (values : List (List String × CharSet)) (key : String) : Option CharSet :=
  (values.find? fun e => e.1.contains key).map Prod.snd

end Glr.Unicode
