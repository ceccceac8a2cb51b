import Glr.Grammar.Rule
import Glr.Json.Printer

/-!
# Glr.Grammar.Basic

A grammar: named rules in declaration order, with the declarations that guide
the table construction.  The first rule is the start rule unless `start` names
another.  `Grammar.encode` and `Grammar.decode` are its document form.
-/

namespace Glr

/-- A grammar. -/
structure Grammar where
  name : String
  schema : Option String := none
  inherits : Option String := none
  /-- The start rule, if it is not the first. -/
  start : Option String := none
  rules : Dictionary Rule := .empty
  /-- Tokens that may stand between any two others. -/
  extras : Option (List Rule) := none
  /-- Tokens that a scanner finds. -/
  externals : Option (List Rule) := none
  /-- Rules that are expanded where they are used. -/
  inlined : Option (List String) := none
  /-- Lists of precedence names, tightest first. -/
  precedences : Option (List (List Rule)) := none
  /-- Groups of rules whose conflicts are intended. -/
  conflicts : Option (List (List String)) := none
  reserved : Option (Dictionary (List Rule)) := none
  /-- The token that keywords are read as. -/
  word : Option String := none
  supertypes : Option (List String) := none
  deriving Inhabited

namespace Grammar

/-! ## Building grammars -/

/-- Adds or replaces a rule. -/
def addRule (g : Grammar) (name : String) (r : Rule) : Grammar :=
  { g with rules := g.rules.insert name r }

/-- Adds a token that may stand between any two others. -/
def addExtra (g : Grammar) (r : Rule) : Grammar :=
  { g with extras := some (g.extras.getD [] ++ [r]) }

/-- Declares a token that a scanner finds. -/
def addExternal (g : Grammar) (name : String) : Grammar :=
  { g with externals := some (g.externals.getD [] ++ [Rule.sym name]) }

/-- Declares a group of rules whose conflicts are intended. -/
def addConflict (g : Grammar) (names : List String) : Grammar :=
  { g with conflicts := some (g.conflicts.getD [] ++ [names]) }

/-- Has a rule expanded where it is used. -/
def addInline (g : Grammar) (name : String) : Grammar :=
  { g with inlined := some (g.inlined.getD [] ++ [name]) }

/-- Sets the token that keywords are read as. -/
def setWord (g : Grammar) (name : String) : Grammar := { g with word := some name }

/-- Adds a list of precedence names, tightest first. -/
def addPrecedences (g : Grammar) (names : List String) : Grammar :=
  { g with precedences := some (g.precedences.getD [] ++ [names.map Rule.string]) }

/-- Sets the start rule. -/
def setStart (g : Grammar) (name : String) : Grammar := { g with start := some name }

/-! ## Reading grammars -/

/-- The name of the start rule. -/
def startRule? (g : Grammar) : Option String :=
  match g.start with
  | some name => some name
  | none => g.rules.keys.head?

/-- The extras; a grammar that does not mention any gets blanks. -/
def effectiveExtras (g : Grammar) : List Rule := g.extras.getD [Rule.pattern "\\s"]

/-- Whether some declared conflict holds all these names. -/
def declaresConflict (g : Grammar) (names : List String) : Bool :=
  (g.conflicts.getD []).any fun group => names.all group.contains

/-- Whether two grammars agree in every part. -/
def beq (g h : Grammar) : Bool :=
  g.name == h.name && g.schema == h.schema && g.inherits == h.inherits && g.start == h.start
    && g.rules.entries == h.rules.entries && g.extras == h.extras && g.externals == h.externals
    && g.inlined == h.inlined && g.precedences == h.precedences && g.conflicts == h.conflicts
    && g.reserved.map (·.entries) == h.reserved.map (·.entries) && g.word == h.word
    && g.supertypes == h.supertypes

instance : BEq Grammar := ⟨beq⟩

/-! ## Documents -/

/-- The document of a dictionary. -/
def encodeDictionary {α : Type} (f : α → Json) (d : Dictionary α) : Json :=
  .object (d.entries.map fun e => (e.1, f e.2))

/-- The document of some rules. -/
def encodeRules : List Rule → Json := Json.list Rule.encode

/-- The document of some names. -/
def encodeNames : List String → Json := Json.list .string

/-- The document of a grammar. -/
def encode (g : Grammar) : Json :=
  .object
    (Json.optionalMember "$schema" .string g.schema
      ++ [("name", .string g.name)]
      ++ Json.optionalMember "inherits" .string g.inherits
      ++ Json.optionalMember "start" .string g.start
      ++ [("rules", encodeDictionary Rule.encode g.rules)]
      ++ Json.optionalMember "extras" encodeRules g.extras
      ++ Json.optionalMember "externals" encodeRules g.externals
      ++ Json.optionalMember "inline" encodeNames g.inlined
      ++ Json.optionalMember "precedences" (Json.list encodeRules) g.precedences
      ++ Json.optionalMember "conflicts" (Json.list encodeNames) g.conflicts
      ++ Json.optionalMember "reserved" (encodeDictionary encodeRules) g.reserved
      ++ Json.optionalMember "word" .string g.word
      ++ Json.optionalMember "supertypes" encodeNames g.supertypes)

/-- The fields of a grammar in a document. -/
def fieldNames : List String :=
  ["$schema", "name", "inherits", "start", "rules", "extras", "externals", "inline", "precedences",
    "conflicts", "reserved", "word", "supertypes"]

open Json.Decode in
/-- Reads a grammar from its document. -/
def decode : Json.Decoder Grammar
  | 0, _ => none
  | budget + 1, v => do
    let fs ← fields fieldNames v
    let text (key : String) := defaulted none (optional string) budget fs key
    let names (key : String) := defaulted none (optional (list string)) budget fs key
    let rules (key : String) := defaulted none (optional (list Rule.decode)) budget fs key
    return {
      name := ← required string budget fs "name"
      schema := ← text "$schema"
      inherits := ← text "inherits"
      start := ← text "start"
      rules := ← required (dictionary Rule.decode) budget fs "rules"
      extras := ← rules "extras"
      externals := ← rules "externals"
      inlined := ← names "inline"
      precedences := ← defaulted none (optional (list (list Rule.decode))) budget fs "precedences"
      conflicts := ← defaulted none (optional (list (list string))) budget fs "conflicts"
      reserved := ← defaulted none (optional (dictionary (list Rule.decode))) budget fs "reserved"
      word := ← text "word"
      supertypes := ← names "supertypes" }

/-- The text of a grammar, indented. -/
def toJson (g : Grammar) : String := g.encode.pretty

/-- Reads a grammar from its text. -/
def parse? (text : String) : Option Grammar := Json.decode? decode text

end Grammar

end Glr
