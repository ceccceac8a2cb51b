import Glr.Grammar.Validate
import Glr.Table.Basic

/-!
# Glr.FlatGrammar.Basic

A grammar with numbered symbols and flat productions: every right-hand side is
a list of steps, and repetitions have become symbols of their own.
-/

namespace Glr

/-- Which of two reductions a chain of equal operators prefers. -/
inductive Associativity where
  | left
  | right
  deriving DecidableEq, Repr

/-- One symbol of a right-hand side. -/
structure Step where
  symbol : Symbol
  precedence : Option Int := none
  associativity : Option Associativity := none
  /-- The field of the node. -/
  field : Option FieldId := none
  /-- The symbol the node is shown as. -/
  label : Option Symbol := none
  deriving DecidableEq, Repr

/-- One way to read a rule, while the rule is being flattened. -/
structure Alternative where
  steps : List Step := []
  precedence : Option Int := none
  associativity : Option Associativity := none
  dynamicPrecedence : Int := 0
  deriving DecidableEq, Repr

/-- A production. -/
structure Production where
  lhs : Symbol
  steps : List Step
  precedence : Int
  associativity : Option Associativity
  dynamicPrecedence : Int
  deriving DecidableEq, Repr

/-- The symbols of the right-hand side. -/
def Production.rhs (p : Production) : List Symbol := p.steps.map Step.symbol

/-- A grammar with numbered symbols and flat productions. -/
structure FlatGrammar where
  symbols : Array SymbolInfo
  /-- The rule that each symbol belongs to; a repetition belongs to its rule. -/
  owners : Array Symbol
  productions : Array Production
  start : Symbol
  lexRules : List LexRule
  extras : List Symbol
  externals : List Symbol
  fields : Array String
  word : Option Symbol
  /-- Groups of rules whose conflicts are intended. -/
  expectedConflicts : List (List Symbol)

namespace FlatGrammar

/-- Whether a symbol is a token. -/
def isTerminal (g : FlatGrammar) (s : Symbol) : Bool :=
  match g.symbols[s]? with
  | some info => info.kind.isTerminal
  | none => false

/-- The name of a symbol. -/
def name (g : FlatGrammar) (s : Symbol) : String :=
  match g.symbols[s]? with
  | some info => info.name
  | none => "?"

/-- The rule that a symbol belongs to. -/
def owner (g : FlatGrammar) (s : Symbol) : Symbol := g.owners[s]?.getD s

end FlatGrammar

/-- Why no table can be made from a grammar. -/
inductive GenerateError where
  | emptyGrammar
  | validation (e : ValidationError)
  /-- A rule or declaration refers to a symbol that is not defined. -/
  | undefinedSymbol (name : String)
  /-- The start rule is a token. -/
  | tokenStartRule (name : String)
  /-- The word token is no token. -/
  | invalidWord (name : String)
  /-- A rule lacks its value. -/
  | missingValue (kind : RuleKind)
  /-- A rule lacks its content. -/
  | missingContent (kind : RuleKind)
  /-- An external token is neither a name nor a string. -/
  | invalidExternal (kind : RuleKind)
  /-- A token holds a rule that does not match text. -/
  | nonLexicalToken (kind : RuleKind)
  /-- An extra is no token. -/
  | nonTokenExtra (name : String)
  | tooManySymbols
  | tooManyStates
  /-- A rule can be read in too many ways. -/
  | tooManyAlternatives (rule : String)
  /-- A rule that is expanded where it is used refers to itself. -/
  | recursiveInline (name : String)
  /-- A precedence name is in no precedence list. -/
  | undefinedPrecedence (name : String)
  /-- An index is out of range.  This is no error of the grammar: generation is given up. -/
  | panic
  deriving DecidableEq, Repr

/-- The text of a generation error. -/
def GenerateError.message : GenerateError → String
  | .emptyGrammar => "grammar has no rules"
  | .validation e => e.message
  | .undefinedSymbol name => s!"undefined symbol '{name}'"
  | .tokenStartRule name => s!"start rule '{name}' must not be a token"
  | .invalidWord name => s!"word token '{name}' is not a token rule"
  | .missingValue kind => s!"{kind.name} rule is missing its value"
  | .missingContent kind => s!"{kind.name} rule is missing its content"
  | .invalidExternal kind => s!"external tokens must be names or strings, found {kind.name}"
  | .nonLexicalToken kind => s!"{kind.name} rules cannot appear inside a token"
  | .nonTokenExtra name => s!"extra '{name}' is not a token"
  | .tooManySymbols => "too many symbols"
  | .tooManyStates => "too many parser states"
  | .tooManyAlternatives rule => s!"rule '{rule}' expands into too many alternatives"
  | .recursiveInline name => s!"inline rule '{name}' is recursive"
  | .undefinedPrecedence name => s!"undefined precedence '{name}'"
  | .panic => "panic"

end Glr
