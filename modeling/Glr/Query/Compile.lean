import Glr.Language
import Glr.Query.Error
import Glr.Query.Pattern

/-!
# Glr.Query.Compile

Queries from texts.

```
query       = (pattern captures)*
pattern     = node | alternation | group | "_" | STRING
node        = "(" (KIND | "_" | "MISSING" [KIND | STRING]) item* ")"
group       = "(" item+ ")"
alternation = "[" (pattern captures)+ "]"
item        = "." | "!" FIELD | [FIELD ":"] pattern quantifier? captures | predicate
quantifier  = "?" | "*" | "+"
captures    = ("@" NAME)*
predicate   = "(" "#" NAME (("@" NAME) | STRING | NAME)* ")"
```

A semicolon starts a comment that runs to the end of the line.
-/

namespace Glr.Query

/-- An argument of a predicate as it is written; a capture with its offset. -/
inductive RawArgument where
  | capture (name : String) (offset : Nat)
  | text (s : String)
  deriving Repr, Inhabited

/-- A predicate as it is written, and its offset. -/
structure RawPredicate where
  name : String
  offset : Nat
  arguments : List RawArgument
  deriving Repr, Inhabited

/-- How far a query was read, and what it defined. -/
structure Progress where
  position : Nat := 0
  /-- The names of all captures, by number. -/
  names : List String := []
  /-- The captures of the pattern that is being read, and its predicates. -/
  defined : List Nat := []
  predicates : List RawPredicate := []
  deriving Repr, Inhabited

/-- Reads part of a query. -/
abbrev Reader := StateT Progress (Except Error)

/-- A pattern, or a predicate, which is no pattern. -/
inductive Parsed where
  | pattern (p : Pattern)
  | predicate
  deriving Inhabited

/-- What stands between the parentheses of a node or group: the steps, whether an
anchor follows the last one, and the fields that must not be filled. -/
structure Items where
  steps : List (Step Pattern)
  anchoredEnd : Bool
  absent : List FieldId
  deriving Inhabited

section

variable (l : Language) (source : Bytes)

/-! ## Characters -/

/-- The next byte. -/
def peek : Reader (Option UInt8) := do return source[(← get).position]?

/-- Passes one byte. -/
def bump : Reader Unit := modify fun s => { s with position := s.position + 1 }

/-- Stops with a problem at an offset. -/
def failAt {α : Type} (offset : Nat) (p : Problem) : Reader α := throw (.at source offset p)

/-- Stops with a problem here. -/
def fail {α : Type} (p : Problem) : Reader α := do failAt source (← get).position p

/-- Whether a byte is white space. -/
def isSpace (b : UInt8) : Bool := b == 32 || b == 9 || b == 10 || b == 12 || b == 13

/-- Whether a byte is a letter of ASCII. -/
def isLetter (b : UInt8) : Bool := (65 ≤ b && b ≤ 90) || (97 ≤ b && b ≤ 122)

/-- Whether a byte is a digit of ASCII. -/
def isDigit (b : UInt8) : Bool := 48 ≤ b && b ≤ 57

/-- Whether a byte can stand in a name. -/
def isNameByte (b : UInt8) : Bool :=
  isLetter b || isDigit b || b == '_'.toUInt8 || b == '-'.toUInt8 || b == '.'.toUInt8
    || b == '?'.toUInt8 || b == '!'.toUInt8

/-- The first offset from `start` on where a test fails, among `count`. -/
def passWhile (p : UInt8 → Bool) : Nat → Nat → Nat
  | 0, start => start
  | count + 1, start =>
    match source[start]? with
    | some b => if p b then passWhile p count (start + 1) else start
    | none => start

/-- The offset after white space and comments; `fuel` bounds their number. -/
def afterTrivia : Nat → Nat → Nat
  | 0, start => start
  | fuel + 1, start =>
    match source[start]? with
    | some b =>
      if isSpace b then afterTrivia fuel (start + 1)
      else if b == ';'.toUInt8 then
        afterTrivia fuel (passWhile source (· != lineFeed) (source.size - start) start)
      else start
    | none => start

/-- Passes white space and comments. -/
def skipTrivia : Reader Unit :=
  modify fun s => { s with position := afterTrivia source (source.size + 1) s.position }

/-- Passes one byte that has to come, after white space and comments. -/
def expect (c : Char) : Reader Unit := do
  skipTrivia source
  let found ← peek source
  if found = some c.toUInt8 then bump else fail source (.expected c.toUInt8 found)

/-- Reads a name, if there is one. -/
def name? : Reader (Option String) := do
  let s ← get
  let stop := passWhile source isNameByte (source.size - s.position) s.position
  if stop = s.position then return none
  set { s with position := stop }
  return some (Bytes.toStringLossy (source.extract s.position stop))

/-- Reads a name, or stops with a problem. -/
def requireName (p : Problem) : Reader String := do
  match ← name? source with
  | some name => return name
  | none => fail source p

/-- What a character stands for after a backslash. -/
def escaped (c : Char) : Char :=
  match c with
  | 'n' => '\n'
  | 't' => '\t'
  | 'r' => '\r'
  | '0' => Char.ofNat 0
  | c => c

/-- The value of a string from offset `start` on, and the offset after its quote;
`fuel` bounds the characters. -/
def stringFrom? : Nat → Nat → String → Option (String × Nat)
  | 0, _, _ => none
  | fuel + 1, start, value =>
    match Utf8.decode? source start with
    | none => none
    | some (c, width) =>
      let c := Char.ofNat c
      if c = '"' then some (value, start + width)
      else if c = '\\' then
        match Utf8.decode? source (start + width) with
        | some (c, w) => stringFrom? fuel (start + width + w) (value.push (escaped (Char.ofNat c)))
        | none => none
      else stringFrom? fuel (start + width) (value.push c)

/-- Reads a string. -/
def readString : Reader String := do
  let s ← get
  match stringFrom? source (source.size + 1) (s.position + 1) "" with
  | some (value, stop) =>
    set { s with position := stop }
    return value
  | none => failAt source s.position .unterminatedString

/-! ## Captures and predicates -/

/-- The number of a capture, a new one for a new name. -/
def captureIndex (name : String) : Reader Nat := do
  let s ← get
  match s.names.findIdx? (· == name) with
  | some i => return i
  | none =>
    set { s with names := s.names ++ [name] }
    return s.names.length

/-- Reads captures; `fuel` bounds their number. -/
def readCaptures : Nat → List Nat → Reader (List Nat)
  | 0, captures => return captures
  | fuel + 1, captures => do
    skipTrivia source
    if (← peek source) ≠ some '@'.toUInt8 then return captures
    bump
    let name ← requireName source .noCaptureName
    let i ← captureIndex name
    modify fun s => { s with defined := i :: s.defined }
    readCaptures fuel (captures ++ [i])

/-- Reads the arguments of a predicate and its parenthesis; `fuel` bounds their
number. -/
def readArguments : Nat → List RawArgument → Reader (List RawArgument)
  | 0, arguments => return arguments
  | fuel + 1, arguments => do
    skipTrivia source
    match ← peek source with
    | none => fail source .unterminatedPredicate
    | some b =>
      if b = ')'.toUInt8 then
        bump
        return arguments
      else if b = '@'.toUInt8 then
        let offset := (← get).position
        bump
        let name ← requireName source .noCaptureName
        readArguments fuel (arguments ++ [.capture name offset])
      else if b = '"'.toUInt8 then
        let s ← readString source
        readArguments fuel (arguments ++ [.text s])
      else if isLetter b || isDigit b || b = '_'.toUInt8 then
        let word ← name? source
        readArguments fuel (arguments ++ [.text (word.getD "")])
      else fail source (.unexpectedInPredicate b)

/-- Reads a predicate from its hash sign on. -/
def readPredicate : Reader Unit := do
  let offset := (← get).position
  bump
  let name ← requireName source .noPredicateName
  let arguments ← readArguments source (source.size + 1) []
  modify fun s => { s with predicates := s.predicates ++ [⟨name, offset, arguments⟩] }

/-- Finds the capture of an argument among those of the pattern. -/
def resolveArgument (a : RawArgument) : Reader Argument := do
  match a with
  | .text s => return .text s
  | .capture name offset =>
    let s ← get
    match (s.names.findIdx? (· == name)).filter s.defined.contains with
    | some i => return .capture i
    | none => failAt source offset (.undefinedCapture name)

/-- A name without the negations in front of it; `fuel` bounds their number. -/
def stripNegations : Nat → String → String
  | 0, name => name
  | fuel + 1, name =>
    if name.startsWith "not-" then stripNegations fuel (name.drop 4).toString else name

/-- The text of an argument. -/
def Argument.text? : Argument → Option String
  | .text s => some s
  | .capture _ => none

/-- The condition of a predicate from what follows its capture. -/
def readCondition (name : String) (offset : Nat) (rest : List Argument) : Reader Condition := do
  match stripNegations name.length name with
  | "eq?" =>
    match rest with
    | [other] => return .equals other
    | _ => failAt source offset (.notTwoArguments name)
  | "match?" =>
    match rest with
    | [.text pattern] =>
      match Regex.compile pattern with
      | .ok r => return .fits r
      | .error _ => failAt source offset .invalidRegex
    | [_] => failAt source offset (.notStringPattern name)
    | _ => failAt source offset (.notOnePattern name)
  | "any-of?" =>
    match rest.mapM Argument.text? with
    | none => failAt source offset (.notStrings name)
    | some [] => failAt source offset (.noValue name)
    | some values => return .anyOf values
  | _ => failAt source offset (.unknownPredicate name)

/-- Makes sense of a predicate once all captures of its pattern are known. -/
def resolvePredicate (p : RawPredicate) : Reader Predicate := do
  match p.arguments with
  | [] => failAt source p.offset (.noSubject p.name)
  | first :: rest =>
    match ← resolveArgument source first with
    | .text _ => failAt source p.offset (.noSubject p.name)
    | .capture i =>
      let rest ← rest.mapM (resolveArgument source)
      let condition ← readCondition source p.name p.offset rest
      return ⟨i, condition, p.name.startsWith "not-"⟩

/-! ## Patterns -/

/-- Stops unless the language has nodes of a kind. -/
def requireKind (offset : Nat) (kind : String) (named : Bool) (p : Problem) : Reader Unit :=
  if (l.symbolsOfKind kind named).isEmpty then failAt source offset p else return ()

/-- Reads the name of a field. -/
def readField : Reader FieldId := do
  let offset := (← get).position
  let name ← requireName source .noFieldName
  match l.fieldId? name with
  | some f => return f
  | none => failAt source offset (.unknownField name)

/-- Reads which missing tokens a pattern is about. -/
def readMissing : Reader KindTest := do
  skipTrivia source
  let offset := (← get).position
  match ← peek source with
  | some b =>
    if b = '"'.toUInt8 then
      let text ← readString source
      requireKind l source offset text false (.unknownKind text)
      return .missing (some (text, false))
    else if isLetter b || b = '_'.toUInt8 then
      let name := (← name? source).getD ""
      requireKind l source offset name true (.unknownKind name)
      return .missing (some (name, true))
    else return .missing none
  | none => return .missing none

/-- Reads which nodes a pattern is about. -/
def readTest : Reader KindTest := do
  let offset := (← get).position
  match ← requireName source .noNodeKind with
  | "_" => return .anyNamed
  | "MISSING" => readMissing l source
  | name =>
    requireKind l source offset name true (.unknownKind name)
    return .named name

/-- Reads how often a step matches. -/
def readQuantifier : Reader Quantifier := do
  let found := match ← peek source with
    | some b =>
      if b = '?'.toUInt8 then some Quantifier.zeroOrOne
      else if b = '*'.toUInt8 then some Quantifier.zeroOrMore
      else if b = '+'.toUInt8 then some Quantifier.oneOrMore
      else none
    | none => none
  match found with
  | some q =>
    bump
    return q
  | none => return .one

mutual
/-- Reads a pattern or a predicate; `fuel` bounds the depth and length of what is
read, here and below. -/
def readPattern : Nat → Reader Parsed
  | 0 => fail source .unexpectedEnd
  | fuel + 1 => do
    skipTrivia source
    match ← peek source with
    | none => fail source .unexpectedEnd
    | some b =>
      if b = '('.toUInt8 then readParenthesized fuel
      else if b = '['.toUInt8 then
        let start := (← get).position
        bump
        let alternatives ← readAlternatives fuel []
        if alternatives.isEmpty then failAt source start .emptyAlternation
        return .pattern (.alternation [] alternatives)
      else if b = '"'.toUInt8 then
        let offset := (← get).position
        let text ← readString source
        requireKind l source offset text false (.unknownAnonymous text)
        return .pattern (.ofTest (.anonymous text))
      else if b = '_'.toUInt8 then
        bump
        return .pattern (.ofTest .any)
      else fail source (.unexpected b)
/-- Reads a node, a group or a predicate. -/
def readParenthesized : Nat → Reader Parsed
  | 0 => fail source .unexpectedEnd
  | fuel + 1 => do
    bump
    skipTrivia source
    match ← peek source with
    | none => fail source .unexpectedEnd
    | some b =>
      if b = '#'.toUInt8 then
        readPredicate source
        return .predicate
      else if b = '('.toUInt8 || b = '['.toUInt8 || b = '"'.toUInt8 then
        let items ← readItems fuel ⟨[], false, []⟩
        if items.steps.isEmpty then fail source .emptyGroup
        if items.anchoredEnd || !items.absent.isEmpty then fail source .groupWithoutParent
        expect source ')'
        return .pattern (.ofGroup items.steps)
      else if b = ')'.toUInt8 then fail source .emptyPattern
      else
        let test ← readTest l source
        let items ← readItems fuel ⟨[], false, []⟩
        expect source ')'
        return .pattern (.node [] test items.absent items.anchoredEnd items.steps)
/-- Reads the items up to a closing parenthesis, behind those in `items`. -/
def readItems : Nat → Items → Reader Items
  | 0, _ => fail source .unexpectedEnd
  | fuel + 1, items => do
    skipTrivia source
    match ← peek source with
    | none => return items
    | some b =>
      if b = ')'.toUInt8 then return items
      else if b = '.'.toUInt8 then
        bump
        readItems fuel { items with anchoredEnd := true }
      else if b = '!'.toUInt8 then
        bump
        let f ← readField l source
        readItems fuel { items with absent := items.absent ++ [f] }
      else
        let field ← if isLetter b then do
            let f ← readField l source
            expect source ':'
            pure (some f)
          else pure none
        match ← readStep fuel field items.anchoredEnd with
        | some s => readItems fuel { items with steps := items.steps ++ [s], anchoredEnd := false }
        | none => readItems fuel items
/-- Reads a pattern with its quantifier and captures; a predicate is no step. -/
def readStep : Nat → Option FieldId → Bool → Reader (Option (Step Pattern))
  | 0, _, _ => fail source .unexpectedEnd
  | fuel + 1, field, anchored => do
    let offset := (← get).position
    match ← readPattern fuel with
    | .predicate =>
      if field.isSome || anchored then failAt source offset .predicateWithField
      return none
    | .pattern p =>
      let quantifier ← readQuantifier source
      let captures ← readCaptures source (source.size + 1) []
      return some ⟨field, p.addCaptures captures, quantifier, anchored⟩
/-- Reads the alternatives up to a closing bracket, behind some others. -/
def readAlternatives : Nat → List Pattern → Reader (List Pattern)
  | 0, _ => fail source .unexpectedEnd
  | fuel + 1, alternatives => do
    skipTrivia source
    match ← peek source with
    | none => fail source .unterminatedAlternation
    | some b =>
      if b = ']'.toUInt8 then
        bump
        return alternatives
      else
        let offset := (← get).position
        match ← readPattern fuel with
        | .predicate => failAt source offset .predicateInAlternation
        | .pattern p =>
          let captures ← readCaptures source (source.size + 1) []
          readAlternatives fuel (alternatives ++ [p.addCaptures captures])
end

/-- Whether a group at the top can be matched: it starts with a single pattern
and has no captures. -/
def isMatchable : Pattern → Bool
  | .group captures (first :: _) =>
    captures.isEmpty && first.quantifier = .one && !first.pattern.isGroup
  | .group _ [] => false
  | _ => true

/-- More calls than reading a query takes. -/
def readingBound : Nat := 4 * source.size + 8

/-- Reads a pattern at the top with its predicates. -/
def readRule (start : Nat) : Reader Rule := do
  match ← readPattern l source (readingBound source) with
  | .predicate => failAt source start .loosePredicate
  | .pattern p =>
    skipTrivia source
    match ← peek source with
    | some b =>
      if b = '?'.toUInt8 || b = '*'.toUInt8 || b = '+'.toUInt8 then fail source .looseQuantifier
    | none => pure ()
    let captures ← readCaptures source (source.size + 1) []
    let p := p.addCaptures captures
    if !isMatchable p then failAt source start .badTopGroup
    let predicates ← (← get).predicates.mapM (resolvePredicate source)
    return ⟨p, predicates, start⟩

/-- Reads all patterns, behind some others; `fuel` bounds their number. -/
def readRules : Nat → List Rule → Reader (List Rule)
  | 0, rules => return rules
  | fuel + 1, rules => do
    skipTrivia source
    match ← peek source with
    | none => return rules
    | some b =>
      let start := (← get).position
      modify fun s => { s with defined := [], predicates := [] }
      if b = '.'.toUInt8 then fail source .looseAnchor
      if b = '@'.toUInt8 then fail source .looseCapture
      let rule ← readRule l source start
      readRules fuel (rules ++ [rule])

end

end Glr.Query

namespace Glr

/-- A query for trees of a language. -/
structure Query where
  language : Language
  rules : List Query.Rule
  /-- The names of the captures, by number. -/
  captureNames : List String

/-- Reads a query. -/
def Query.compile (l : Language) (source : String) : Except Query.Error Query :=
  let bytes := Bytes.ofString source
  match (Query.readRules l bytes (bytes.size + 1) []).run {} with
  | .error e => .error e
  | .ok (rules, s) => .ok ⟨l, rules, s.names⟩

end Glr
