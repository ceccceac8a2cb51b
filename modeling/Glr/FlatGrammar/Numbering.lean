import Glr.FlatGrammar.TokenRule

/-!
# Glr.FlatGrammar.Numbering

Numbers the symbols of a grammar: the end of the input, the external tokens,
the other tokens in the order in which the rules mention them, the extras, and
then the nonterminals, the start rule first.
-/

namespace Glr

/-- The symbols numbered so far and what else flattening collects. -/
structure Numbering where
  symbols : Array SymbolInfo
  owners : Array Symbol
  lexRules : Array LexRule := #[]
  /-- Tokens that rules mention without a name. -/
  anonymous : List (TokenKey × Symbol) := []
  /-- How many of them have no text to be named by. -/
  hiddenTokens : Nat := 0
  /-- The symbols of named rules and tokens. -/
  named : List (String × Symbol) := []
  fields : Array String := #[]
  productions : Array Production := #[]
  /-- The rule being flattened, if there is one. -/
  currentRule : Option Symbol := none
  /-- How many symbols each rule has had made for it. -/
  helperCounts : List (Symbol × Nat) := []

/-- Numbering symbols can fail. -/
abbrev Numbered := StateT Numbering (Except GenerateError)

namespace Numbering

/-- The end of the input is symbol zero. -/
def initial : Numbering where
  symbols := #[⟨"end", false, false, .endOfInput⟩]
  owners := #[endSymbol]

/-- The symbol of a name. -/
def lookup (s : Numbering) (name : String) : Option Symbol := s.named.lookup name

/-- Whether a symbol is a token other than the end of the input. -/
def isLexical (s : Numbering) (symbol : Symbol) : Bool :=
  match s.symbols[symbol]? with
  | some info => info.kind == .terminal || info.kind == .external
  | none => false

/-- Numbers one more symbol. -/
def push (info : SymbolInfo) : Numbered Symbol := fun s =>
  let symbol := s.symbols.size
  if symbol < errorSymbol then
    .ok (symbol, { s with
      symbols := s.symbols.push info
      owners := s.owners.push (s.currentRule.getD symbol) })
  else .error .tooManySymbols

/-- Gives a symbol a name; a later one takes the name over. -/
def bindName (name : String) (symbol : Symbol) : Numbered Unit :=
  modify fun s => { s with named := (name, symbol) :: s.named }

/-- Whether names of this form are hidden. -/
def isHiddenName (name : String) : Bool := name.toList.head? == some '_'

/-- Numbers the external tokens. -/
def externals : List Rule → Numbered (List Symbol)
  | [] => return []
  | r :: rs => do
    let (name, named) ← match r.kind with
      | .symbol => pure (r.attributes.name.getD "", true)
      | .string => (r.requireText.map fun s => (s, false) : Except _ _)
      | k => throw (.invalidExternal k)
    let symbol ← push ⟨name, named, !(named && isHiddenName name), .external⟩
    if named then bindName name symbol
    return symbol :: (← externals rs)

/-- Numbers a token with its lexical rule. -/
def addToken (key : TokenKey) (name : String) (named visible : Bool) : Numbered Symbol := do
  let symbol ← push ⟨name, named, visible, .terminal⟩
  modify fun s =>
    { s with lexRules := s.lexRules.push ⟨symbol, key.matcher, key.precedence, key.immediate⟩ }
  return symbol

/-- The symbol of a token without a name; equal tokens share one. -/
def anonymousToken (r : Rule) : Numbered Symbol := do
  let key ← r.tokenKey
  match (← get).anonymous.lookup key with
  | some symbol => return symbol
  | none =>
    let symbol ← match key.matcher with
      | .literal text => addToken key text false true
      | .pattern _ => do
        let count := (← get).hiddenTokens + 1
        modify fun s => { s with hiddenTokens := count }
        addToken key s!"_token{count}" false false
    modify fun s => { s with anonymous := (key, symbol) :: s.anonymous }
    return symbol

/-- The symbol of a token rule with a name. -/
def namedToken (g : Grammar) (name : String) : Numbered Symbol := do
  match (← get).lookup name with
  | some symbol => return symbol
  | none =>
    match g.rules.get? name with
    | none => throw (.undefinedSymbol name)
    | some r =>
      let key ← r.tokenKey
      let symbol ← addToken key name true (!isHiddenName name)
      bindName name symbol
      return symbol

/-- Whether a name is that of a token rule. -/
def isTokenRule (g : Grammar) (name : String) : Bool :=
  match g.rules.get? name with
  | some r => r.isTerminal
  | none => false

mutual

/-- Numbers the tokens that a rule mentions. -/
def ruleTokens (g : Grammar) : Rule → Numbered Unit
  | .node k a c ms =>
    match k with
    | .string | .pattern | .token | .immediateToken => do
      let _ ← anonymousToken (.node k a c ms)
    | .symbol =>
      match a.name with
      | some name => if isTokenRule g name then do let _ ← namedToken g name else pure ()
      | none => pure ()
    | _ => do
      contentTokens g c
      memberTokens g ms

/-- Numbers the tokens of a wrapped rule. -/
def contentTokens (g : Grammar) : Option Rule → Numbered Unit
  | none => pure ()
  | some r => ruleTokens g r

/-- Numbers the tokens of some rules. -/
def memberTokens (g : Grammar) : List Rule → Numbered Unit
  | [] => pure ()
  | r :: rs => do
    ruleTokens g r
    memberTokens g rs

end

/-- Numbers the tokens of all rules, in order of their first mention. -/
def tokens (g : Grammar) : List (String × Rule) → Numbered Unit
  | [] => pure ()
  | (name, r) :: rest => do
    if ((← get).lookup name).isNone then
      if r.isTerminal then
        let _ ← namedToken g name
      else ruleTokens g r
    tokens g rest

/-- The symbol of an extra. -/
def extra (g : Grammar) (r : Rule) : Numbered Symbol := do
  if r.kind = .symbol then
    let name := r.attributes.name.getD ""
    let s ← get
    match s.lookup name with
    | some symbol =>
      if s.isLexical symbol then return symbol
      else if isTokenRule g name then namedToken g name
      else throw (.nonTokenExtra name)
    | none => if isTokenRule g name then namedToken g name else throw (.nonTokenExtra name)
  else if r.isTerminal then anonymousToken r
  else throw (.nonTokenExtra r.typeName)

/-- Numbers the nonterminals with these names, except those that have a symbol
and those that are expanded where they are used. -/
def nonterminals (g : Grammar) (start : String) : List String → Numbered Unit
  | [] => pure ()
  | name :: rest => do
    unless ((← get).lookup name).isSome || (g.inlined.getD []).contains name do
      let symbol ← push ⟨name, true, name == start || !isHiddenName name, .nonterminal⟩
      bindName name symbol
    nonterminals g start rest

end Numbering

end Glr
