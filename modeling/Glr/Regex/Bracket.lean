import Glr.Regex.Escape

/-!
# Glr.Regex.Bracket

Sets of characters in brackets: single characters, ranges, escapes, named
ASCII classes, nested brackets, and the operators `&&`, `--` and `~~`, which
bind more loosely than juxtaposition and associate to the left.
-/

namespace Glr.Regex

open Unicode (CharSet)

/-- An operator between sets. -/
inductive SetOp where
  | inter
  | diff
  | symmDiff
  deriving DecidableEq, Repr

/-- The set of an operator and its operands. -/
def SetOp.apply (flags : Flags) (op : SetOp) (s t : CharSet) : CharSet :=
  let s := foldIf flags s
  let t := foldIf flags t
  match op with
  | .inter => s.inter t
  | .diff => s.diff t
  | .symmDiff => s.symmDiff t

/-- Some items of a bracket side by side: their elements, how many there are, and
how deeply they are nested. -/
structure Items where
  set : CharSet
  count : Nat
  depth : Nat

namespace Items

/-- No items. -/
def none : Items := ⟨.empty, 0, 0⟩

/-- How deeply items are nested as a whole: several of them are one level. -/
def level (i : Items) : Nat := if i.count > 1 then i.depth + 1 else i.depth

/-- One more item. -/
def add (i : Items) (s : CharSet) (depth : Nat) : Items :=
  ⟨i.set.union s, i.count + 1, max i.depth depth⟩

end Items

/-- An open bracket: whether it negates, its last operator with the set and the
depth of what stands before it, and what has been read since. -/
structure Bracket where
  negated : Bool
  pending : Option (SetOp × CharSet × Nat)
  current : Items

namespace Bracket

/-- The set read so far, the last operator applied. -/
def value (flags : Flags) (b : Bracket) : CharSet :=
  match b.pending with
  | some (op, s, _) => op.apply flags s b.current.set
  | none => b.current.set

/-- How deeply what has been read so far is nested. -/
def level (b : Bracket) : Nat :=
  match b.pending with
  | some (_, _, depth) => max depth b.current.level + 1
  | none => b.current.level

/-- The set of a bracket that closes. -/
def close (flags : Flags) (b : Bracket) : CharSet :=
  negateIf flags b.negated (foldIf flags (b.value flags))

/-- Adds an item. -/
def add (b : Bracket) (s : CharSet) (depth : Nat) : Bracket :=
  { b with current := b.current.add s depth }

/-- Starts the right operand of an operator. -/
def operator (flags : Flags) (b : Bracket) (op : SetOp) : Bracket :=
  { b with pending := some (op, b.value flags, b.level), current := .none }

end Bracket

/-- The named classes of ASCII. -/
def asciiClass? (name : String) : Option CharSet :=
  match name with
  | "alnum" => some (.ofRanges [(48, 57), (65, 90), (97, 122)])
  | "alpha" => some (.ofRanges [(65, 90), (97, 122)])
  | "ascii" => some (.interval 0 127)
  | "blank" => some (.ofRanges [(9, 9), (32, 32)])
  | "cntrl" => some (.ofRanges [(0, 31), (127, 127)])
  | "digit" => some asciiDigits
  | "graph" => some (.interval 33 126)
  | "lower" => some (.interval 97 122)
  | "print" => some (.interval 32 126)
  | "punct" => some (.ofRanges [(33, 47), (58, 64), (91, 96), (123, 126)])
  | "space" => some asciiBlanks
  | "upper" => some (.interval 65 90)
  | "word" => some asciiWord
  | "xdigit" => some (.ofRanges [(48, 57), (65, 70), (97, 102)])
  | _ => none

/-- Reads a named class from after its `[`, if one stands there. -/
def namedClass? (flags : Flags) (cs : List Char) : Option (CharSet × List Char) :=
  match cs with
  | ':' :: rest =>
    let (negated, rest) := match rest with
      | '^' :: more => (true, more)
      | _ => (false, rest)
    match rest.dropWhile (· != ':') with
    | ':' :: ']' :: after =>
      (asciiClass? (String.ofList (rest.takeWhile (· != ':')))).map fun s =>
        (negateIf flags negated (foldIf flags s), after)
    | _ => none
  | _ => none

/-- Reads the start of a bracket from after its `[`: a negation, and hyphens or a
closing bracket that stand for themselves. -/
def openBracket (flags : Flags) (cs : List Char) : Except Error (Bracket × List Char) :=
  let (negated, cs) := match skip flags cs with
    | '^' :: rest => (true, skip flags rest)
    | cs => (false, cs)
  let (hyphens, cs) := spanSkipping flags (· == '-') cs
  let start : Bracket :=
    ⟨negated, none, hyphens.foldl (fun i c => i.add (.singleton c.toNat) 0) .none⟩
  match cs with
  | [] => .error .unclosedClass
  | ']' :: rest =>
    if hyphens.isEmpty then .ok (start.add (.singleton 93) 0, rest) else .ok (start, cs)
  | _ => .ok (start, cs)

/-- Reads one item of a bracket: a character or an escape. -/
def bracketItem (flags : Flags) (cs : List Char) : Except Error (Escaped × List Char) :=
  match cs with
  | [] => .error .unclosedClass
  | '\\' :: rest => escape flags rest
  | c :: rest => .ok (.char c.toNat false, rest)

/-- The element that a character of a bracket stands for. -/
def element (flags : Flags) (code : Nat) (byte : Bool) : Except Error Nat :=
  if flags.unicode || byte || code < 128 then .ok code else .error .unicodeNotAllowed

/-- The character that decides whether a hyphen before it makes a range: the next
one, or the next one that is no blank where blanks are skipped.  A comment is
taken for its first character. -/
def afterHyphen? (flags : Flags) (cs : List Char) : Option Char :=
  let isBlank (c : Char) : Bool := Unicode.blanks.contains c.toNat
  if flags.verbose then
    match cs.dropWhile isBlank with
    | '#' :: rest => (rest.dropWhile isBlank).head?
    | cs => cs.head?
  else cs.head?

/-- Reads an item, or a range of characters. -/
def bracketRange (flags : Flags) (cs : List Char) : Except Error (CharSet × List Char) := do
  let (first, rest) ← bracketItem flags cs
  let rest := skip flags rest
  let single : Except Error (CharSet × List Char) :=
    match first with
    | .char code byte => (element flags code byte).map fun c => (.singleton c, rest)
    | .set s => .ok (s, rest)
    | .look _ => .error .badClassItem
  match rest with
  | [] => .error .unclosedClass
  | '-' :: more =>
    if afterHyphen? flags more == some ']' || afterHyphen? flags more == some '-' then single
    else
      let (last, after) ← bracketItem flags (skip flags more)
      match first, last with
      | .char a byteA, .char b byteB =>
        let low ← element flags a byteA
        let high ← element flags b byteB
        if low ≤ high then return (.interval low high, after) else throw .badClassRange
      | _, _ => throw .badClassItem
  | _ => single

/-- Reads brackets up to the end of the outermost one; `fuel` bounds the items.
Answers the set, the rest, and how deeply what stands inside is nested. -/
def brackets (flags : Flags) : Nat → Bracket → List Bracket → List Char →
    Except Error (CharSet × List Char × Nat)
  | 0, _, _, _ => .error .unclosedClass
  | fuel + 1, b, stack, cs =>
    match skip flags cs with
    | [] => .error .unclosedClass
    | '[' :: rest =>
      match namedClass? flags rest with
      | some (s, after) => brackets flags fuel (b.add s 0) stack after
      | none =>
        match openBracket flags rest with
        | .ok (inner, after) => brackets flags fuel inner (b :: stack) after
        | .error e => .error e
    | ']' :: rest =>
      match stack with
      | [] => .ok (b.close flags, rest, b.level)
      | outer :: stack => brackets flags fuel (outer.add (b.close flags) (b.level + 1)) stack rest
    | '&' :: '&' :: rest => brackets flags fuel (b.operator flags .inter) stack rest
    | '-' :: '-' :: rest => brackets flags fuel (b.operator flags .diff) stack rest
    | '~' :: '~' :: rest => brackets flags fuel (b.operator flags .symmDiff) stack rest
    | cs =>
      match bracketRange flags cs with
      | .ok (s, after) => brackets flags fuel (b.add s 0) stack after
      | .error e => .error e

/-- Reads a set in brackets, from after its `[`. -/
def bracketSet (flags : Flags) (cs : List Char) : Except Error (CharSet × List Char × Nat) :=
  match openBracket flags cs with
  | .ok (b, rest) => brackets flags (cs.length + 1) b [] rest
  | .error e => .error e

end Glr.Regex
