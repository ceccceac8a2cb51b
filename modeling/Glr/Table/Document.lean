import Glr.Json.Decode
import Glr.Json.Printer
import Glr.Table.Basic

/-!
# Glr.Table.Document

The document form of a table: `Table.encode` writes it, `Table.decode` reads
it back.
-/

namespace Glr

namespace SymbolKind

/-- Every kind, in the order of the format. -/
def all : List SymbolKind :=
  [.endOfInput, .terminal, .external, .nonterminal, .auxiliary, .label]

/-- The name of a kind in documents. -/
def name : SymbolKind → String
  | .endOfInput => "End"
  | .terminal => "Terminal"
  | .external => "External"
  | .nonterminal => "NonTerminal"
  | .auxiliary => "Auxiliary"
  | .label => "Alias"

/-- Reads a kind. -/
def decode : Json.Decoder SymbolKind
  | budget, v => (Json.Decode.variantName budget v).bind fun s => all.find? fun k => k.name == s

end SymbolKind

open Json.Decode

/-- The document of a symbol. -/
def SymbolInfo.encode (s : SymbolInfo) : Json :=
  .object [("name", .string s.name), ("named", .bool s.named), ("visible", .bool s.visible),
    ("kind", .string s.kind.name)]

/-- Reads a symbol. -/
def SymbolInfo.decode : Json.Decoder SymbolInfo
  | 0, _ => none
  | budget + 1, v => do
    let fs ← Json.Decode.fields ["name", "named", "visible", "kind"] v
    return {
      name := ← required string budget fs "name"
      named := ← required bool budget fs "named"
      visible := ← required bool budget fs "visible"
      kind := ← required SymbolKind.decode budget fs "kind" }

/-- The document of an action. -/
def ParseAction.encode : ParseAction → Json
  | .shift s => .object [("Shift", .nat s)]
  | .reduce p => .object [("Reduce", .nat p)]
  | .accept => .string "Accept"

/-- Reads an action. -/
def ParseAction.decode : Json.Decoder ParseAction
  | _, .string s => if s = "Accept" then some .accept else none
  | budget + 1, .object [(key, v)] =>
    if key = "Shift" then (nat32 budget v).map .shift
    else if key = "Reduce" then (nat32 budget v).map .reduce
    else
      match key, v with
      | "Accept", .null => some .accept
      | _, _ => none
  | _, _ => none

/-- The document of a production. -/
def ProductionInfo.encode (p : ProductionInfo) : Json :=
  .object [("lhs", .nat p.lhs), ("fields", .list (Json.option .nat) p.fields),
    ("aliases", .list (Json.option .nat) p.labels),
    ("dynamic_precedence", .int p.dynamicPrecedence)]

/-- Reads a production. -/
def ProductionInfo.decode : Json.Decoder ProductionInfo
  | 0, _ => none
  | budget + 1, v => do
    let fs ← Json.Decode.fields ["lhs", "fields", "aliases", "dynamic_precedence"] v
    return {
      lhs := ← required nat16 budget fs "lhs"
      fields := ← required (list (optional nat16)) budget fs "fields"
      labels := ← required (list (optional nat16)) budget fs "aliases"
      dynamicPrecedence := ← required int32 budget fs "dynamic_precedence" }

/-- The document of a matcher. -/
def TokenMatcher.encode : TokenMatcher → Json
  | .literal s => .object [("Literal", .string s)]
  | .pattern s => .object [("Pattern", .string s)]

/-- Reads a matcher. -/
def TokenMatcher.decode : Json.Decoder TokenMatcher
  | _ + 1, .object [(key, .string s)] =>
    if key = "Literal" then some (.literal s)
    else if key = "Pattern" then some (.pattern s)
    else none
  | _, _ => none

/-- The document of a lexical rule. -/
def LexRule.encode (r : LexRule) : Json :=
  .object [("symbol", .nat r.symbol), ("matcher", r.matcher.encode),
    ("precedence", .int r.precedence), ("immediate", .bool r.immediate)]

/-- Reads a lexical rule. -/
def LexRule.decode : Json.Decoder LexRule
  | 0, _ => none
  | budget + 1, v => do
    let fs ← Json.Decode.fields ["symbol", "matcher", "precedence", "immediate"] v
    return {
      symbol := ← required nat16 budget fs "symbol"
      matcher := ← required TokenMatcher.decode budget fs "matcher"
      precedence := ← required int32 budget fs "precedence"
      immediate := ← required bool budget fs "immediate" }

namespace Table

/-- The document of an array. -/
def encodeArray {α : Type} (f : α → Json) (xs : Array α) : Json := .list f xs.toList

/-- The members of the document of a table, with a given form of its entries. -/
def encodeWith (entries : Json) (t : Table) : Json :=
  .object [
    ("version", .nat t.version),
    ("name", .string t.name),
    ("symbols", encodeArray SymbolInfo.encode t.symbols),
    ("fields", encodeArray .string t.fields),
    ("productions", encodeArray ProductionInfo.encode t.productions),
    ("state_count", .nat t.stateCount),
    ("parse_table", entries),
    ("action_lists", encodeArray (.list ParseAction.encode) t.actionLists),
    ("lex_states", encodeArray (.list .nat) t.lexStates),
    ("state_lex_states", encodeArray .nat t.stateLexStates),
    ("lex_rules", .list LexRule.encode t.lexRules),
    ("extras", .list .nat t.extras),
    ("externals", .list .nat t.externals),
    ("word", Json.option .nat t.word),
    ("start_symbol", .nat t.startSymbol)]

/-- The document of a table. -/
def encode (t : Table) : Json := t.encodeWith (encodeArray .nat t.entries)

/-- The fields of a table in a document. -/
def fieldNames : List String :=
  ["version", "name", "symbols", "fields", "productions", "state_count", "parse_table",
    "action_lists", "lex_states", "state_lex_states", "lex_rules", "extras", "externals", "word",
    "start_symbol"]

/-- Reads an array. -/
def array {α : Type} (d : Json.Decoder α) : Json.Decoder (Array α)
  | budget, v => (list d budget v).map List.toArray

/-- Reads a table. -/
def decode : Json.Decoder Table
  | 0, _ => none
  | budget + 1, v => do
    let fs ← Json.Decode.fields fieldNames v
    return {
      version := ← required nat32 budget fs "version"
      name := ← required string budget fs "name"
      symbols := ← required (array SymbolInfo.decode) budget fs "symbols"
      fields := ← required (array string) budget fs "fields"
      productions := ← required (array ProductionInfo.decode) budget fs "productions"
      stateCount := ← required nat32 budget fs "state_count"
      entries := ← required (array nat32) budget fs "parse_table"
      actionLists := ← required (array (list ParseAction.decode)) budget fs "action_lists"
      lexStates := ← required (array (list nat16)) budget fs "lex_states"
      stateLexStates := ← required (array nat16) budget fs "state_lex_states"
      lexRules := ← required (list LexRule.decode) budget fs "lex_rules"
      extras := ← required (list nat16) budget fs "extras"
      externals := ← required (list nat16) budget fs "externals"
      word := ← defaulted none (optional nat16) budget fs "word"
      startSymbol := ← required nat16 budget fs "start_symbol" }

/-- The text of a table. -/
def toJson (t : Table) : String := t.encode.compact

/-- The text of a table, indented. -/
def toPrettyJson (t : Table) : String := t.encode.pretty

/-- Reads a table from its text. -/
def parse? (text : String) : Option Table := Json.decode? decode text

end Table

end Glr
