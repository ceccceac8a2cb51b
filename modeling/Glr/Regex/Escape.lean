import Glr.Regex.Syntax
import Glr.Unicode.Folding
import Glr.Unicode.Property

/-!
# Glr.Regex.Escape

What a backslash means in a pattern: a character, a set of characters or a
position.  Reading starts after the backslash and answers what follows.
-/

namespace Glr.Regex

open Unicode (CharSet)

/-- What an escape stands for. -/
inductive Escaped where
  /-- A character; `byte` marks a code written as two hexadecimal digits. -/
  | char (code : Nat) (byte : Bool)
  /-- A set of characters, or of bytes where characters are bytes. -/
  | set (s : CharSet)
  /-- A position. -/
  | look (l : Look)
  deriving Repr

/-! ## Blanks -/

/-- Skips blanks and comments where they are skipped. -/
def skipBlanks (verbose inComment : Bool) : List Char → List Char
  | [] => []
  | c :: rest =>
    if !verbose then c :: rest
    else if inComment then skipBlanks verbose (c != '\n') rest
    else if Unicode.blanks.contains c.toNat then skipBlanks verbose false rest
    else if c = '#' then skipBlanks verbose true rest
    else c :: rest

/-- Skips blanks where the flags have them skipped. -/
def skip (flags : Flags) (cs : List Char) : List Char := skipBlanks flags.verbose false cs

/-- What is left is no longer. -/
theorem length_skipBlanks_le (verbose inComment : Bool) (cs : List Char) :
    (skipBlanks verbose inComment cs).length ≤ cs.length := by
  fun_induction skipBlanks verbose inComment cs <;> grind

/-- What is left is no longer. -/
theorem length_skip_le (flags : Flags) (cs : List Char) : (skip flags cs).length ≤ cs.length :=
  length_skipBlanks_le _ _ cs

/-- Splits off the longest start whose characters satisfy a test, with blanks
skipped after each of them. -/
def spanSkipping (flags : Flags) (test : Char → Bool) : List Char → List Char × List Char
  | [] => ([], [])
  | c :: rest =>
    if test c then
      let (taken, left) := spanSkipping flags test (skip flags rest)
      (c :: taken, left)
    else ([], c :: rest)
  termination_by cs => cs.length
  decreasing_by
    have := length_skip_le flags rest
    simp only [List.length_cons]
    omega

/-- All characters of a start satisfy the test. -/
theorem of_mem_spanSkipping {flags : Flags} {test : Char → Bool} {cs : List Char} {c : Char}
    (h : c ∈ (spanSkipping flags test cs).1) : test c := by
  fun_induction spanSkipping flags test cs with
  | case1 => simp at h
  | case2 d rest hd taken left heq ih =>
    rcases List.mem_cons.mp h with rfl | h
    · exact hd
    · exact ih (by simpa [heq] using h)
  | case3 => simp at h

/-- What is left after a start is empty or goes on with another character. -/
theorem spanSkipping_snd {flags : Flags} {test : Char → Bool} {cs : List Char} {c : Char}
    {rest : List Char} (h : (spanSkipping flags test cs).2 = c :: rest) : test c = false := by
  fun_induction spanSkipping flags test cs with
  | case1 => simp at h
  | case2 d more hd taken left heq ih => exact ih (by simpa [heq] using h)
  | case3 d more hd =>
    obtain ⟨rfl, rfl⟩ := List.cons.inj h
    simpa using hd

/-! ## Sets -/

/-- The largest element a set may have. -/
def limit (flags : Flags) : Nat := if flags.unicode then CharSet.maxChar else 255

/-- All that is not in a set. -/
def negateIf (flags : Flags) (negated : Bool) (s : CharSet) : CharSet :=
  if negated then s.negate (limit flags) else s

/-- Closes a set under case where case is ignored. -/
def foldIf (flags : Flags) (s : CharSet) : CharSet :=
  if flags.ignoreCase then (if flags.unicode then s.closeCase else s.closeAsciiCase) else s

/-- Digits of ASCII. -/
def asciiDigits : CharSet := .interval 48 57

/-- Blanks of ASCII. -/
def asciiBlanks : CharSet := .ofRanges [(9, 13), (32, 32)]

/-- Word characters of ASCII. -/
def asciiWord : CharSet := .ofRanges [(48, 57), (65, 90), (95, 95), (97, 122)]

/-- The set of `\d`, `\s`, `\w` and of their negations in upper case. -/
def shorthand? (flags : Flags) (c : Char) : Option CharSet :=
  let pick (unicode ascii : CharSet) (negated : Bool) : Option CharSet :=
    some (negateIf flags negated (if flags.unicode then unicode else ascii))
  match c with
  | 'd' => pick Unicode.digits asciiDigits false
  | 'D' => pick Unicode.digits asciiDigits true
  | 's' => pick Unicode.blanks asciiBlanks false
  | 'S' => pick Unicode.blanks asciiBlanks true
  | 'w' => pick Unicode.wordChars asciiWord false
  | 'W' => pick Unicode.wordChars asciiWord true
  | _ => none

/-- Splits a property at the first of `!=`, `:` and `=` that occurs in it. -/
def splitProperty (name : List Char) : Option (List Char × Bool × List Char) :=
  let rec at? (sep : List Char) (seen : List Char) : List Char → Option (List Char × List Char)
    | [] => none
    | c :: rest =>
      if sep.isPrefixOf (c :: rest) then some (seen.reverse, (c :: rest).drop sep.length)
      else at? sep (c :: seen) rest
  match at? ['!', '='] [] name with
  | some (a, b) => some (a, true, b)
  | none =>
    match at? [':'] [] name with
    | some (a, b) => some (a, false, b)
    | none => (at? ['='] [] name).map fun p => (p.1, false, p.2)

/-- The set of a property in braces, with whether its form negates it. -/
def namedProperty (name : List Char) : Except Error (CharSet × Bool) :=
  match splitProperty name with
  | some (property, negated, value) =>
    match Unicode.propertyValue? (String.ofList property) (String.ofList value) with
    | some s => .ok (s, negated)
    | none => .error .unknownProperty
  | none =>
    match Unicode.property? (String.ofList name) with
    | some s => .ok (s, false)
    | none => .error .unknownProperty

/-- Reads the property after `\p` or `\P`. -/
def propertyEscape (flags : Flags) (negated : Bool) (cs : List Char) :
    Except Error (Escaped × List Char) :=
  let finish (s : CharSet) (flipped : Bool) (rest : List Char) :
      Except Error (Escaped × List Char) :=
    if flags.unicode then .ok (.set (negateIf flags (negated != flipped) (foldIf flags s)), rest)
    else .error .unicodeNotAllowed
  match skip flags cs with
  | [] => .error .badEscape
  | '\x7b' :: rest =>
    match spanSkipping flags (· != '\x7d') (skip flags rest) with
    | (_, []) => .error .badEscape
    | (name, _ :: after) =>
      match namedProperty name with
      | .ok (s, flipped) => finish s flipped after
      | .error e => .error e
  | c :: rest =>
    if c = '\\' then .error .badEscape
    else
      match Unicode.property? (String.ofList [c]) with
      | some s => finish s false rest
      | none => .error .unknownProperty

/-! ## Characters by number -/

/-- The value of a hexadecimal digit in either case. -/
def hexValue? (c : Char) : Option Nat := Unicode.hexDigit? c.toLower

/-- The value of hexadecimal digits; there must be one at least. -/
def hexNumber? (ds : List Char) : Option Nat :=
  if ds.isEmpty then none
  else ds.foldlM (fun n d => (hexValue? d).map fun v => n * 16 + v) 0

/-- The character with a code point, if there is one. -/
def codePoint (n : Nat) (byte : Bool) (rest : List Char) : Except Error (Escaped × List Char) :=
  if n.isValidChar then .ok (.char n byte, rest) else .error .badCodePoint

/-- Splits off a number of characters, with blanks skipped between them. -/
def takeSkipping (flags : Flags) : Nat → List Char → Option (List Char × List Char)
  | 0, cs => some ([], cs)
  | count + 1, cs =>
    match skip flags cs with
    | [] => none
    | c :: rest => (takeSkipping flags count rest).map fun p => (c :: p.1, p.2)

/-- Reads a character number of `digits` digits, or any number in braces. -/
def hexEscape (flags : Flags) (digits : Nat) (cs : List Char) :
    Except Error (Escaped × List Char) :=
  match skip flags cs with
  | '\x7b' :: rest =>
    match spanSkipping flags (· != '\x7d') (skip flags rest) with
    | (_, []) => .error .badEscape
    | (ds, _ :: after) =>
      match hexNumber? ds with
      | some n => codePoint n false after
      | none => .error .badEscape
  | cs =>
    match takeSkipping flags digits cs with
    | none => .error .badEscape
    | some (ds, after) =>
      match hexNumber? ds with
      | some n => codePoint n (digits == 2) after
      | none => .error .badEscape

/-! ## Positions -/

/-- Whether a character belongs to the name of a kind of word boundary. -/
def isBoundaryChar (c : Char) : Bool := c.isAlpha || c == '-'

/-- The kind of word boundary with a name. -/
def namedBoundary? (unicode : Bool) (name : String) : Option Look :=
  match name with
  | "start" => some (.wordStart unicode)
  | "end" => some (.wordEnd unicode)
  | "start-half" => some (.wordStartHalf unicode)
  | "end-half" => some (.wordEndHalf unicode)
  | _ => none

/-- Reads what follows `\b`: a name in braces, or nothing. -/
def boundaryEscape (flags : Flags) (cs : List Char) : Except Error (Escaped × List Char) :=
  let plain : Except Error (Escaped × List Char) := .ok (.look (.wordBoundary flags.unicode), cs)
  match cs with
  | '\x7b' :: rest =>
    match skip flags rest with
    | [] => .error .badEscape
    | c :: more =>
      if isBoundaryChar c then
        match spanSkipping flags isBoundaryChar (c :: more) with
        | (name, '\x7d' :: after) =>
          match namedBoundary? flags.unicode (String.ofList name) with
          | some l => .ok (.look l, after)
          | none => .error .badEscape
        | _ => .error .badEscape
      else plain
  | _ => plain

/-! ## All escapes -/

/-- Characters with a meaning of their own. -/
def isMeta (c : Char) : Bool := "\\.+*?()|[]\x7b\x7d^$#&-~".toList.contains c

/-- Whether a backslash before the character leaves it as it is. -/
def isEscapable (c : Char) : Bool :=
  isMeta c || (c.toNat < 128 && !c.isAlphanum && c != '<' && c != '>')

/-- The control character that a letter stands for. -/
def control? (c : Char) : Option Nat :=
  match c with
  | 'a' => some 7
  | 'f' => some 12
  | 't' => some 9
  | 'n' => some 10
  | 'r' => some 13
  | 'v' => some 11
  | _ => none

/-- The position that a letter stands for, `\b` apart. -/
def position? (flags : Flags) (c : Char) : Option Look :=
  match c with
  | 'A' => some .textStart
  | 'z' => some .textEnd
  | 'B' => some (.notWordBoundary flags.unicode)
  | '<' => some (.wordStart flags.unicode)
  | '>' => some (.wordEnd flags.unicode)
  | _ => none

/-- Reads an escape, from after the backslash. -/
def escape (flags : Flags) (cs : List Char) : Except Error (Escaped × List Char) :=
  match cs with
  | [] => .error .badEscape
  | c :: rest =>
    if c.isDigit then .error .unsupportedBackreference
    else if c = 'x' then hexEscape flags 2 rest
    else if c = 'u' then hexEscape flags 4 rest
    else if c = 'U' then hexEscape flags 8 rest
    else if c = 'p' then propertyEscape flags false rest
    else if c = 'P' then propertyEscape flags true rest
    else if c = 'b' then boundaryEscape flags rest
    else
      match shorthand? flags c with
      | some s => .ok (.set s, rest)
      | none =>
        if isEscapable c then .ok (.char c.toNat false, rest)
        else
          match control? c with
          | some n => .ok (.char n false, rest)
          | none =>
            match position? flags c with
            | some l => .ok (.look l, rest)
            | none => .error .badEscape

/-- A text with a backslash before each character that has a meaning of its
own, so that it matches itself. -/
def quote (s : String) : String :=
  String.ofList (s.toList.flatMap fun c => if isMeta c then ['\\', c] else [c])

end Glr.Regex
