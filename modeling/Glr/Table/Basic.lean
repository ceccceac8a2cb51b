import Glr.Json.Value

/-!
# Glr.Table.Basic

The table of a language as plain data: its symbols, productions, lexical rules
and, for every state of the automaton, an entry for every symbol.  The entry
of a terminal numbers a list of actions, the entry of a nonterminal is the
state to go to plus one, and zero is no entry.
-/

namespace Glr

/-- Numbers a token or node kind. -/
abbrev Symbol := Nat

/-- Numbers a state of the automaton. -/
abbrev StateId := Nat

/-- Numbers a field name. -/
abbrev FieldId := Nat

/-- Numbers a production. -/
abbrev ProductionId := Nat

/-- The end of the input. -/
def endSymbol : Symbol := 0

/-- The symbol of error nodes and of text that is no token. -/
def errorSymbol : Symbol := 65535

/-- The version of the table format. -/
def tableVersion : Nat := 1

/-- What a symbol is. -/
inductive SymbolKind where
  /-- The end of the input. -/
  | endOfInput
  /-- A token matched by a literal or a pattern. -/
  | terminal
  /-- A token that a scanner finds. -/
  | external
  /-- A rule of the grammar. -/
  | nonterminal
  /-- A rule made for a repetition. -/
  | auxiliary
  /-- A name that nodes are shown under and no rule has. -/
  | label
  deriving DecidableEq, Repr, Inhabited

/-- Whether symbols of a kind are tokens. -/
def SymbolKind.isTerminal : SymbolKind → Bool
  | .endOfInput | .terminal | .external => true
  | .nonterminal | .auxiliary | .label => false

/-- How the nodes of a symbol are shown. -/
structure SymbolInfo where
  name : String
  /-- Named nodes come from named rules. -/
  named : Bool
  /-- Hidden nodes are stored but not shown. -/
  visible : Bool
  kind : SymbolKind
  deriving DecidableEq, Repr, Inhabited

/-- One action of the automaton. -/
inductive ParseAction where
  /-- Take the token and go to a state. -/
  | shift (state : StateId)
  /-- Replace the right-hand side of a production by its left-hand side. -/
  | reduce (production : ProductionId)
  /-- The input is complete. -/
  | accept
  deriving DecidableEq, Repr, Inhabited

/-- What a reduction does with its children. -/
structure ProductionInfo where
  lhs : Symbol
  /-- The field of each child. -/
  fields : List (Option FieldId)
  /-- The symbol each child is shown as, where it is not its own. -/
  labels : List (Option Symbol)
  dynamicPrecedence : Int
  deriving DecidableEq, Repr, Inhabited

/-- The number of children that a reduction takes, extras apart. -/
def ProductionInfo.childCount (p : ProductionInfo) : Nat := p.fields.length

/-- How a token matches text. -/
inductive TokenMatcher where
  /-- These bytes. -/
  | literal (text : String)
  /-- A regular expression. -/
  | pattern (source : String)
  deriving DecidableEq, Repr, Inhabited

/-- A rule that finds one kind of token. -/
structure LexRule where
  symbol : Symbol
  matcher : TokenMatcher
  /-- Decides between matches of the same length. -/
  precedence : Int
  /-- Matches only where no extra stands before. -/
  immediate : Bool
  deriving DecidableEq, Repr, Inhabited

/-- The table of a language. -/
structure Table where
  version : Nat
  name : String
  symbols : Array SymbolInfo
  fields : Array String
  productions : Array ProductionInfo
  stateCount : Nat
  /-- An entry for every state and symbol, state by state. -/
  entries : Array Nat
  /-- The lists of actions; the first one is empty. -/
  actionLists : Array (List ParseAction)
  /-- The tokens that are valid in each lexical state. -/
  lexStates : Array (List Symbol)
  /-- The lexical state of each state. -/
  stateLexStates : Array Nat
  lexRules : List LexRule
  /-- Tokens that may stand anywhere. -/
  extras : List Symbol
  /-- Tokens that a scanner finds, in its order. -/
  externals : List Symbol
  /-- The token that keywords are read as. -/
  word : Option Symbol
  startSymbol : Symbol
  deriving DecidableEq, Repr, Inhabited

end Glr
