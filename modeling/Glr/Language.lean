import Glr.Regex.Matcher
import Glr.Scanner.Basic
import Glr.Sorted
import Glr.Table.Document
import Glr.Table.Generate
import Glr.Text.Quoted

/-!
# Glr.Language

A language is a table that is ready for use: its patterns are compiled, its
dimensions agree, and a scanner stands by if it has tokens for one.  The
lookups here are total: a state or symbol that the table does not have has no
entries.
-/

namespace Glr

/-- How a token matches text, compiled. -/
inductive Matcher where
  | literal (text : Bytes)
  | pattern (r : Regex)
  deriving Repr, Inhabited

namespace Matcher

/-- The length of the match at offset `start`; empty matches do not count. -/
def length? (m : Matcher) (text : Bytes) (start : Nat) : Option Nat :=
  let found := match m with
    | .literal part => if text.hasAt part start then some part.size else none
    | .pattern r => (r.findEnd? text start).map (· - start)
  found.filter (· > 0)

/-- Whether the token is a fixed text. -/
def isLiteral : Matcher → Bool
  | .literal _ => true
  | .pattern _ => false

end Matcher

/-- Why a table is no language. -/
inductive LoadError where
  /-- The text is no table. -/
  | unreadable
  | versionMismatch (found : Nat)
  | malformed (cells states : Nat)
  | missingScanner (name : String)
  | invalidPattern (token : String)
  deriving DecidableEq, Repr

/-- The text of an error; an unreadable table has none. -/
def LoadError.message : LoadError → String
  | .unreadable => ""
  | .versionMismatch found => s!"table version {found} is not supported (expected {tableVersion})"
  | .malformed cells states => s!"malformed table: expected {cells} cells for {states} states"
  | .missingScanner name =>
    s!"grammar '{name}' declares external tokens but no external scanner was provided"
  | .invalidPattern token => s!"invalid pattern for token '{token}'"

/-- Why a grammar is no language. -/
inductive BuildError where
  | generation (e : GenerateError)
  | loading (e : LoadError)
  deriving DecidableEq, Repr

/-- A language. -/
structure Language where
  /-- Tells languages apart that were loaded separately. -/
  handle : Nat
  table : Table
  /-- The lexical rules with what they match. -/
  rules : List (LexRule × Matcher)
  /-- The tokens that are valid in each lexical state. -/
  valid : Array (Array Symbol)
  scanner : Option Scanner

namespace Language

/-- The name of a symbol of a table, empty for one that it does not have. -/
private def nameIn (t : Table) (s : Symbol) : String :=
  match t.symbols[s]? with
  | some info => info.name
  | none => ""

/-- Compiles what a lexical rule matches. -/
def compileRule (t : Table) (rule : LexRule) : Except LoadError (LexRule × Matcher) :=
  match rule.matcher with
  | .literal text => .ok (rule, .literal (Bytes.ofString text))
  | .pattern source =>
    match Regex.compileToken source with
    | .ok r => .ok (rule, .pattern r)
    | .error _ => .error (.invalidPattern (nameIn t rule.symbol))

/-- Makes a table ready for use. -/
def ofTable (handle : Nat) (t : Table) (scanner : Option Scanner) : Except LoadError Language :=
  let cells := t.stateCount * t.symbols.size
  if t.version ≠ tableVersion then .error (.versionMismatch t.version)
  else if t.entries.size ≠ cells ∨ t.stateLexStates.size ≠ t.stateCount then
    .error (.malformed cells t.stateCount)
  else if !t.externals.isEmpty && scanner.isNone then .error (.missingScanner t.name)
  else do
    let rules ← t.lexRules.mapM (compileRule t)
    return ⟨handle, t, rules, t.lexStates.map List.toArray, scanner⟩

/-- Reads a table and makes it ready for use. -/
def ofJson (handle : Nat) (text : String) (scanner : Option Scanner) :
    Except LoadError Language :=
  match Table.parse? text with
  | some t => ofTable handle t scanner
  | none => .error .unreadable

/-- The language of a grammar. -/
def ofGrammar (handle : Nat) (g : Grammar) (scanner : Option Scanner) :
    Except BuildError Language :=
  match g.generate.1 with
  | .error e => .error (.generation e)
  | .ok t =>
    match ofTable handle t scanner with
    | .error e => .error (.loading e)
    | .ok l => .ok l

/-! ## Symbols and fields -/

variable (l : Language)

/-- Whether two languages are one. -/
def sameAs (other : Language) : Bool := l.handle == other.handle

/-- What the table says of a symbol. -/
def info? (s : Symbol) : Option SymbolInfo := l.table.symbols[s]?

/-- The kind of the nodes of a symbol. -/
def symbolName? (s : Symbol) : Option String :=
  if s = errorSymbol then some "ERROR" else (l.info? s).map SymbolInfo.name

/-- The kind of the nodes of a symbol, a question mark if there is none. -/
def kindOf (s : Symbol) : String := (l.symbolName? s).getD "?"

/-- Whether the nodes of a symbol are named. -/
def isNamed (s : Symbol) : Bool := s == errorSymbol || (l.info? s).any SymbolInfo.named

/-- Whether the nodes of a symbol are shown. -/
def isVisible (s : Symbol) : Bool := s == errorSymbol || (l.info? s).any SymbolInfo.visible

/-- The visible symbols of a kind. -/
def symbolsOfKind (kind : String) (named : Bool) : List Symbol :=
  if named && kind == "ERROR" then [errorSymbol]
  else l.table.symbols.toList.zipIdx.filterMap fun (info, s) =>
    if info.name == kind && info.named == named && info.visible && s < 65536 then some s else none

/-- The name of a field. -/
def fieldName? (f : FieldId) : Option String := l.table.fields[f]?

/-- The field of a name; of several the last one. -/
def fieldId? (name : String) : Option FieldId :=
  (l.table.fields.toList.zipIdx.reverse.find? fun entry => entry.1 == name && entry.2 < 65536).map
    Prod.snd

/-- What is shown of a language for inspection. -/
def describe : String :=
  s!"Language \x7b name: {Text.quote l.table.name}, symbols: {l.table.symbols.size}, "
    ++ s!"states: {l.table.stateCount}, external_scanner: {l.scanner.isSome} \x7d"

/-! ## The automaton -/

/-- The entry of a symbol in a state. -/
def cell (state : StateId) (s : Symbol) : Nat :=
  if s < l.table.symbols.size then
    l.table.entries[state * l.table.symbols.size + s]?.getD 0
  else 0

/-- Whether a symbol is no token. -/
def isNonterminal (s : Symbol) : Bool := (l.info? s).any fun info => !info.kind.isTerminal

/-- The actions on a token in a state. -/
def actions (state : StateId) (s : Symbol) : List ParseAction :=
  if l.isNonterminal s then [] else l.table.actionLists[l.cell state s]?.getD []

/-- Whether a state has an action on a token. -/
def hasActions (state : StateId) (s : Symbol) : Bool := !(l.actions state s).isEmpty

/-- The state after a node of a nonterminal. -/
def goto? (state : StateId) (s : Symbol) : Option StateId :=
  if l.isNonterminal s then
    match l.cell state s with
    | 0 => none
    | next + 1 => some next
  else none

/-- The lexical state of a state. -/
def lexState (state : StateId) : Nat := l.table.stateLexStates[state]?.getD 0

/-- The tokens that are valid in a lexical state, in order. -/
def validTokens (lexState : Nat) : Array Symbol := l.valid[lexState]?.getD #[]

/-- Whether a token may stand anywhere. -/
def isExtra (s : Symbol) : Bool := s < l.table.symbols.size && l.table.extras.contains s

/-- What a production does. -/
def production? (p : ProductionId) : Option ProductionInfo := l.table.productions[p]?

/-- What the first lexical rule of a symbol matches. -/
def matcher? (s : Symbol) : Option Matcher :=
  (l.rules.find? fun r => r.1.symbol == s).map Prod.snd

/-- What the word token matches. -/
def wordMatcher? : Option Matcher := l.table.word.bind l.matcher?

end Language

end Glr
