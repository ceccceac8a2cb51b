import Glr.FlatGrammar.Numbering

/-!
# Glr.FlatGrammar.Flatten

Flattens rules into productions.  `Flatten.rule` answers the alternatives of a
rule, each a list of steps; a repetition becomes a symbol with productions of
its own, and a rule that is declared inline is replaced by its body.

`FlatGrammar.ofGrammar` numbers the symbols of a grammar and flattens all its
rules.
-/

namespace Glr

namespace Flatten

open Glr.Numbering

/-- The most alternatives that a rule may have. -/
def maxAlternatives : Nat := 4096

/-- The alternative of one symbol. -/
def single (symbol : Symbol) : Alternative := { steps := [{ symbol }] }

/-- Two alternatives, one after the other. -/
def append (head tail : Alternative) : Alternative :=
  { head with
    steps := head.steps ++ tail.steps
    dynamicPrecedence := max head.dynamicPrecedence tail.dynamicPrecedence }

/-- The production of an alternative: it takes the precedence of its last step. -/
def production (lhs : Symbol) (a : Alternative) : Production :=
  let last := a.steps.getLast?
  { lhs
    steps := a.steps
    precedence := ((last.bind Step.precedence) <|> a.precedence).getD 0
    associativity := (last.bind Step.associativity) <|> a.associativity
    dynamicPrecedence := a.dynamicPrecedence }

/-- Adds a production for each distinct alternative. -/
def addProductions (lhs : Symbol) (as : List Alternative) : Numbered Unit :=
  modify fun s =>
    { s with productions := s.productions ++ (as.eraseDups.map (production lhs)).toArray }

/-- The name of the rule being flattened. -/
def currentName : Numbered String := do
  let s ← get
  match s.symbols[s.currentRule.getD endSymbol]? with
  | some info => return info.name
  | none => throw .panic

/-- The number of a field name. -/
def fieldId (name : String) : Numbered FieldId := do
  let s ← get
  match s.fields.idxOf? name with
  | some id => return id
  | none =>
    if s.fields.size ≤ errorSymbol then
      set { s with fields := s.fields.push name }
      return s.fields.size
    else throw .tooManySymbols

/-- The symbol that shows a node under another name; a visible symbol of that
name serves if there is one. -/
def labelSymbol (name : String) (named : Bool) : Numbered Symbol := do
  let fits (info : SymbolInfo) : Bool :=
    info.name == name && info.named == named && info.visible && info.kind != .endOfInput
  match (← get).symbols.findIdx? fits with
  | some symbol => return symbol
  | none => push ⟨name, named, true, .label⟩

/-- Makes a hidden symbol for the rule being flattened. -/
def helper (suffix : String) : Numbered Symbol := do
  let s ← get
  let owner := s.currentRule.getD endSymbol
  let count := (s.helperCounts.lookup owner).getD 0 + 1
  set { s with helperCounts := (owner, count) :: s.helperCounts }
  let name ← currentName
  push ⟨s!"{name}_{suffix}{count}", false, false, .auxiliary⟩

/-- The precedence levels of the names in the precedence lists: in a list of
`n` names the first has level `n` and the last has level 1, and the first list
that holds a name decides. -/
def precedenceLevels (g : Grammar) : List (String × Int) :=
  (g.precedences.getD []).flatMap fun entries =>
    entries.zipIdx.filterMap fun e =>
      (e.1.literal? <|> e.1.symbolName?).map fun name => (name, (entries.length : Int) - e.2)

/-- The level of a precedence rule. -/
def precedenceLevel (g : Grammar) (r : Rule) : Except GenerateError Int :=
  match r.precedence? with
  | some level => .ok level
  | none =>
    match r.precedenceName? with
    | none => .ok 0
    | some name =>
      match (precedenceLevels g).lookup name with
      | some level => .ok level
      | none => .error (.undefinedPrecedence name)

/-- Gives a precedence to an alternative and its steps where they have none. -/
def setPrecedence (level : Int) (associativity : Option Associativity) (a : Alternative) :
    Alternative :=
  let a := if a.precedence.isNone then { a with precedence := some level, associativity } else a
  { a with
    steps := a.steps.map fun s =>
      if s.precedence.isNone then { s with precedence := some level, associativity } else s }

/-- The associativity of a kind of precedence. -/
def associativityOf : RuleKind → Option Associativity
  | .precLeft => some .left
  | .precRight => some .right
  | _ => none

/-- Changes every step of some alternatives. -/
def mapSteps (f : Step → Step) (as : List Alternative) : List Alternative :=
  as.map fun a => { a with steps := a.steps.map f }

/-- The sequences of an alternative from each of two lists. -/
def cross (heads tails : List Alternative) : Numbered (List Alternative) := do
  if heads.length * tails.length > maxAlternatives then
    throw (.tooManyAlternatives (← currentName))
  return heads.flatMap fun head => tails.map (append head)

/-- A repetition: a symbol that is the body, or itself and the body. -/
def repetition (orNone : Bool) (body : List Alternative) : Numbered (List Alternative) := do
  let symbol ← helper "repeat"
  let again (a : Alternative) : Alternative :=
    { single symbol with
      steps := { symbol } :: a.steps, dynamicPrecedence := a.dynamicPrecedence }
  addProductions symbol (body.flatMap fun a => [again a, a])
  return single symbol :: (if orNone then [{}] else [])

/-- A label: of the steps if every alternative is a single one, otherwise
of a symbol made for the alternatives. -/
def rename (symbol : Symbol) (as : List Alternative) : Numbered (List Alternative) := do
  if as.all fun a => a.steps.length == 1 then
    return mapSteps (fun s => { s with label := some (s.label.getD symbol) }) as
  else
    let made ← helper "alias"
    addProductions made as
    return [{ steps := [{ symbol := made, label := some symbol }] }]

mutual

/-- The alternatives of a rule.  `expand` answers those of the body of a rule
that is declared inline. -/
def rule (g : Grammar) (expand : String → Numbered (List Alternative)) :
    Rule → Numbered (List Alternative)
  | .node k a c ms =>
    match k with
    | .blank => return [{}]
    | .string | .pattern | .token | .immediateToken => do
      return [single (← anonymousToken (.node k a c ms))]
    | .symbol => do
      let name := a.name.getD ""
      if (g.inlined.getD []).contains name then expand name
      else
        match (← get).lookup name with
        | some symbol => return [single symbol]
        | none => throw (.undefinedSymbol name)
    | .seq => sequence g expand [{}] ms
    | .choice => do
      let as ← alternatives g expand ms
      if as.length > maxAlternatives then throw (.tooManyAlternatives (← currentName))
      return as
    | .zeroOrMore => do
      let body ← content g expand k c
      repetition true body
    | .oneOrMore => do
      let body ← content g expand k c
      repetition false body
    | .prec | .precLeft | .precRight => do
      let level ← precedenceLevel g (.node k a c ms)
      let as ← content g expand k c
      return as.map (setPrecedence level (associativityOf k))
    | .precDynamic => do
      let level ← precedenceLevel g (.node k a c ms)
      let as ← content g expand k c
      return as.map fun a =>
        if a.dynamicPrecedence = 0 then { a with dynamicPrecedence := level } else a
    | .field =>
      match a.name with
      | none => throw (.missingValue k)
      | some name => do
        let id ← fieldId name
        let as ← content g expand k c
        return mapSteps (fun s => { s with field := some (s.field.getD id) }) as
    | .renamed => do
      let name ← (Rule.requireText (.node k a c ms) : Except _ _)
      let symbol ← labelSymbol name (a.named.getD false)
      let as ← content g expand k c
      rename symbol as
    | .reserved => content g expand k c

/-- The alternatives of a wrapped rule, which must be there. -/
def content (g : Grammar) (expand : String → Numbered (List Alternative)) (k : RuleKind) :
    Option Rule → Numbered (List Alternative)
  | none => throw (.missingContent k)
  | some r => rule g expand r

/-- The alternatives of all of some rules. -/
def alternatives (g : Grammar) (expand : String → Numbered (List Alternative)) :
    List Rule → Numbered (List Alternative)
  | [] => return []
  | r :: rs => do
    let first ← rule g expand r
    return first ++ (← alternatives g expand rs)

/-- The alternatives of some rules in sequence, after those before them. -/
def sequence (g : Grammar) (expand : String → Numbered (List Alternative))
    (heads : List Alternative) :
    List Rule → Numbered (List Alternative)
  | [] => return heads
  | r :: rs => do
    let tails ← rule g expand r
    sequence g expand (← cross heads tails) rs

end

/-- The alternatives of the body of a rule that is declared inline, inside the
bodies of the rules in `entered`; `fuel` bounds how many there can be. -/
def inlineBody (g : Grammar) : Nat → List String → String → Numbered (List Alternative)
  | fuel, entered, name =>
    if entered.contains name then throw (.recursiveInline name)
    else
      match g.rules.get? name with
      | none => throw (.undefinedSymbol name)
      | some body =>
        match fuel with
        | 0 => throw (.recursiveInline name)
        | fuel + 1 => rule g (inlineBody g fuel (name :: entered)) body

/-- The alternatives of a rule of a grammar. -/
def ruleOf (g : Grammar) (r : Rule) : Numbered (List Alternative) :=
  rule g (inlineBody g (g.inlined.getD []).length []) r

/-- Adds the productions of the rules that are neither tokens nor inline. -/
def rules (g : Grammar) : List (String × Rule) → Numbered Unit
  | [] => modify fun s => { s with currentRule := none }
  | (name, r) :: rest => do
    let s ← get
    match s.lookup name with
    | none => pure ()
    | some symbol =>
      unless s.isLexical symbol do
        set { s with currentRule := some symbol }
        addProductions symbol (← ruleOf g r)
    rules g rest

/-- The symbols of a list of names. -/
def symbolsOf (s : Numbering) (names : List String) : Except GenerateError (List Symbol) :=
  names.mapM fun name =>
    match s.lookup name with
    | some symbol => .ok symbol
    | none => .error (.undefinedSymbol name)

/-- The word token. -/
def wordOf (s : Numbering) : Option String → Except GenerateError (Option Symbol)
  | none => .ok none
  | some name =>
    match (s.lookup name).filter s.isLexical with
    | some symbol => .ok (some symbol)
    | none => .error (.invalidWord name)

/-- Numbers and flattens everything. -/
def grammar (g : Grammar) (start : String) : Numbered FlatGrammar := do
  let externals ← Numbering.externals (g.externals.getD [])
  Numbering.tokens g g.rules.entries
  let extras ← g.effectiveExtras.mapM (Numbering.extra g)
  Numbering.nonterminals g start (start :: g.rules.keys.filter (· != start))
  let startSymbol ← match (← get).lookup start with
    | some symbol => pure symbol
    | none => throw (.undefinedSymbol start)
  rules g g.rules.entries
  let s ← get
  let word ← (wordOf s g.word : Except _ _)
  let expectedConflicts ← ((g.conflicts.getD []).mapM (symbolsOf s) : Except _ _)
  return {
    symbols := s.symbols
    owners := s.owners
    productions := s.productions
    start := startSymbol
    lexRules := s.lexRules.toList
    extras
    externals
    fields := s.fields
    word
    expectedConflicts }

end Flatten

/-- The flat form of a grammar. -/
def FlatGrammar.ofGrammar (g : Grammar) : Except GenerateError FlatGrammar :=
  match g.startRule? with
  | none => .error .emptyGrammar
  | some start =>
    match g.rules.get? start with
    | none => .error (.undefinedSymbol start)
    | some r =>
      if r.isTerminal then .error (.tokenStartRule start)
      else ((Flatten.grammar g start).run Numbering.initial).map Prod.fst

end Glr
