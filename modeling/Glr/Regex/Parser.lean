import Glr.Regex.Bracket
import Glr.Regex.Normal
import Glr.Unicode.Addition

/-!
# Glr.Regex.Parser

Reads a pattern into a `Node`.  The reader keeps the open groups on a stack;
each `step` takes one item, operator or bracket off the pattern.
-/

namespace Glr.Regex

open Unicode (CharSet)

namespace Parse

/-- A part of a sequence with how deeply it is nested; a change of flags is no
part that can be repeated. -/
inductive Item where
  | node (n : Node) (depth : Nat)
  | flags
  deriving Repr

/-- A group that is still open: its number if it has one, and what surrounds it:
the flags, the alternatives read so far and the current one, both in reverse. -/
structure Group where
  index : Option Nat
  flags : Flags
  alternatives : List (Node × Nat)
  items : List Item

/-- The reader. -/
structure State where
  flags : Flags := {}
  alternatives : List (Node × Nat) := []
  items : List Item := []
  stack : List Group := []
  groups : Nat := 0
  names : List String := []

/-- The sequence of some items in reverse, with its depth. -/
def sequence (rev : List Item) : Node × Nat :=
  let nodes := rev.reverse.filterMap fun
    | .node n d => some (n, d)
    | .flags => none
  let deepest := (nodes.map Prod.snd).foldl max 0
  (Node.sequence (nodes.map Prod.fst), if rev.length > 1 then deepest + 1 else deepest)

/-- The alternatives of a group that closes, with their depth. -/
def alternation (s : State) : Node × Nat :=
  let all := (sequence s.items :: s.alternatives).reverse
  let deepest := (all.map Prod.snd).foldl max 0
  (Node.alternation (all.map Prod.fst), if all.length > 1 then deepest + 1 else deepest)

/-- Adds a part to the current sequence. -/
def push (s : State) (n : Node) (depth : Nat) : State :=
  { s with items := .node n depth :: s.items }

/-! ## Single characters -/

/-- A literal character. -/
def literal (flags : Flags) (code : Nat) (byte : Bool) : Node :=
  if flags.unicode then .ofChars (foldIf flags (.singleton code))
  else if code < 128 then .bytes (foldIf flags (.singleton code))
  else if byte then .bytes (.singleton code)
  else .literal (Utf8.encode code)

/-- A set of characters, or of bytes where characters are bytes. -/
def setNode (flags : Flags) (s : CharSet) : Node := if flags.unicode then .ofChars s else .bytes s

/-- The dot. -/
def dot (flags : Flags) : Node :=
  let excluded : CharSet :=
    if flags.dotAll then .empty
    else if flags.crlf then .ofRanges [(10, 10), (13, 13)]
    else .singleton 10
  setNode flags (excluded.negate (limit flags))

/-- What an escape stands for outside brackets. -/
def escaped (flags : Flags) : Escaped → Node
  | .char code byte => literal flags code byte
  | .set s => setNode flags s
  | .look l => .look l

/-! ## Repetition -/

/-- Repeats the last part of the current sequence. -/
def quantify (s : State) (least : Nat) (most : Option Nat) (greedy : Bool) : Except Error State :=
  match s.items with
  | .node n depth :: items =>
    let repeated := n.repeated least most (greedy != s.flags.swapGreed)
    .ok { s with items := .node repeated (depth + 1) :: items }
  | _ => .error .missingOperand

/-- Takes the question mark that makes a repetition lazy. -/
def lazyMark : List Char → Bool × List Char
  | '?' :: rest => (false, rest)
  | cs => (true, cs)

/-- Reads a decimal number below 2^32, with blanks around it. -/
def decimal? (flags : Flags) (cs : List Char) : Option Nat × List Char :=
  let isBlank (c : Char) : Bool := Unicode.blanks.contains c.toNat
  let (digits, rest) := spanSkipping flags Char.isDigit (cs.dropWhile isBlank)
  let rest := rest.dropWhile isBlank
  let value := digits.foldl (fun n d => n * 10 + (d.toNat - 48)) 0
  (if digits.isEmpty || value ≥ 4294967296 then none else some value, rest)

/-- Reads the bounds of a repetition from after its opening brace. -/
def bounds (flags : Flags) (cs : List Char) : Except Error (Nat × Option Nat × List Char) :=
  match decimal? flags (skip flags cs) with
  | (some least, ',' :: rest) =>
    match skip flags rest with
    | '\x7d' :: after => .ok (least, none, after)
    | rest =>
      match decimal? flags rest with
      | (some most, '\x7d' :: after) =>
        if least ≤ most then .ok (least, some most, after) else .error .badRepetition
      | _ => .error .badRepetition
  | (some least, '\x7d' :: after) => .ok (least, some least, after)
  | _ => .error .badRepetition

/-! ## Groups -/

/-- Sets one flag. -/
def setFlag (flags : Flags) (c : Char) (on : Bool) : Option Flags :=
  match c with
  | 'i' => some { flags with ignoreCase := on }
  | 'm' => some { flags with multiLine := on }
  | 's' => some { flags with dotAll := on }
  | 'U' => some { flags with swapGreed := on }
  | 'u' => some { flags with unicode := on }
  | 'R' => some { flags with crlf := on }
  | 'x' => some { flags with verbose := on }
  | _ => none

/-- Reads flags up to the colon or parenthesis that ends them; `seen` holds the
characters read so far. -/
def readFlags (flags : Flags) (on : Bool) (seen : List Char) : List Char →
    Except Error (Flags × Char × List Char)
  | [] => .error .badFlags
  | c :: rest =>
    if c = ':' ∨ c = ')' then
      if seen.head? == some '-' then .error .badFlags
      else if c = ')' ∧ seen.isEmpty then .error .missingOperand
      else .ok (flags, c, rest)
    else if seen.contains c then .error .badFlags
    else if c = '-' then readFlags flags false (c :: seen) rest
    else
      match setFlag flags c on with
      | some flags => readFlags flags on (c :: seen) rest
      | none => .error .badFlags

/-- Whether a character may stand in the name of a group. -/
def isNameChar (first : Bool) (c : Char) : Bool :=
  c == '_' || Unicode.nameLetters.contains c.toNat ||
    (!first && (c == '.' || c == '[' || c == ']' || Unicode.nameNumbers.contains c.toNat))

/-- Whether some characters are the name of a group. -/
def isName : List Char → Bool
  | [] => false
  | c :: rest => isNameChar true c && rest.all (isNameChar false)

/-- Opens a group. -/
def openGroup (s : State) (index : Option Nat) (inner : Flags) : State :=
  { s with
    flags := inner
    alternatives := []
    items := []
    stack := ⟨index, s.flags, s.alternatives, s.items⟩ :: s.stack }

/-- Opens a group with the next number. -/
def openNumbered (s : State) : State :=
  { openGroup s (some (s.groups + 1)) s.flags with groups := s.groups + 1 }

/-- Opens a group with a name, read from after its `<`. -/
def openNamed (s : State) (cs : List Char) : Except Error (State × List Char) :=
  let name := cs.takeWhile (· != '>')
  match cs.dropWhile (· != '>') with
  | [] => .error .badGroupName
  | _ :: after =>
    if isName name && !s.names.contains (String.ofList name) then
      .ok ({ openNumbered s with names := String.ofList name :: s.names }, after)
    else .error .badGroupName

/-- Reads what follows an opening parenthesis. -/
def group (s : State) (cs : List Char) : Except Error (State × List Char) :=
  match skip s.flags cs with
  | '?' :: '=' :: _ => .error .unsupportedLookAround
  | '?' :: '!' :: _ => .error .unsupportedLookAround
  | '?' :: '<' :: '=' :: _ => .error .unsupportedLookAround
  | '?' :: '<' :: '!' :: _ => .error .unsupportedLookAround
  | '?' :: 'P' :: '<' :: rest => openNamed s rest
  | '?' :: '<' :: rest => openNamed s rest
  | '?' :: rest =>
    match readFlags s.flags true [] rest with
    | .ok (flags, ')', after) => .ok ({ s with flags, items := .flags :: s.items }, after)
    | .ok (flags, _, after) => .ok (openGroup s none flags, after)
    | .error e => .error e
  | cs => .ok (openNumbered s, cs)

/-- Closes the innermost group. -/
def closeGroup (s : State) : Except Error State :=
  match s.stack with
  | [] => .error .unopenedGroup
  | g :: stack =>
    let (body, depth) := alternation s
    let n := match g.index with
      | some index => .group index body
      | none => body
    .ok { s with
      flags := g.flags
      alternatives := g.alternatives
      items := .node n (depth + 1) :: g.items
      stack }

/-! ## The whole pattern -/

/-- Reads one character outside brackets. -/
def single (s : State) (c : Char) : Node :=
  if c = '.' then dot s.flags
  else if c = '^' then
    .look (if s.flags.multiLine then .lineStart s.flags.crlf else .textStart)
  else if c = '$' then .look (if s.flags.multiLine then .lineEnd s.flags.crlf else .textEnd)
  else literal s.flags c.toNat false

/-- Takes one item, operator or bracket off a pattern that is not empty. -/
def step (s : State) (c : Char) (rest : List Char) : Except Error (State × List Char) :=
  let uncounted (least : Nat) (most : Option Nat) : Except Error (State × List Char) :=
    let (greedy, after) := lazyMark rest
    (quantify s least most greedy).map fun s => (s, after)
  match c with
  | '(' => group s rest
  | ')' => (closeGroup s).map fun s => (s, rest)
  | '|' => .ok ({ s with alternatives := sequence s.items :: s.alternatives, items := [] }, rest)
  | '[' =>
    match bracketSet s.flags rest with
    | .ok (set, after, depth) => .ok (push s (setNode s.flags set) (depth + 1), after)
    | .error e => .error e
  | '?' => uncounted 0 (some 1)
  | '*' => uncounted 0 none
  | '+' => uncounted 1 none
  | '\x7b' =>
    match s.items with
    | .node .. :: _ =>
      match bounds s.flags rest with
      | .ok (least, most, after) =>
        let (greedy, after) := lazyMark (skip s.flags after)
        (quantify s least most greedy).map fun s => (s, after)
      | .error e => .error e
    | _ => .error .missingOperand
  | '\\' =>
    match escape s.flags rest with
    | .ok (e, after) => .ok (push s (escaped s.flags e) 0, after)
    | .error e => .error e
  | c => .ok (push s (single s c) 0, rest)

/-- How deeply the parts of a pattern may be nested. -/
def maxDepth : Nat := 250

/-- Reads a pattern to its end; `fuel` bounds the steps. -/
def run : Nat → State → List Char → Except Error Node
  | 0, _, _ => .error .tooLarge
  | fuel + 1, s, cs =>
    match skip s.flags cs with
    | [] =>
      if s.stack.isEmpty then
        let (n, depth) := alternation s
        if depth ≤ maxDepth then .ok n else .error .nestedTooDeeply
      else .error .unclosedGroup
    | c :: rest =>
      match step s c rest with
      | .ok (s, rest) => run fuel s rest
      | .error e => .error e

end Parse

/-- The expression of a pattern. -/
def Node.parse (pattern : String) : Except Error Node :=
  Parse.run (pattern.length + 1) {} pattern.toList

end Glr.Regex
