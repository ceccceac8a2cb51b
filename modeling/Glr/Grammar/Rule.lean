import Glr.Json.Decode

/-!
# Glr.Grammar.Rule

The rule graph: a grammar maps names to rules, and a rule is a node of some
kind with attributes, a wrapped `content` and a list of `members`.  Every kind
of rule may carry every attribute, as documents do; the accessors answer only
for the kinds that give an attribute its meaning.
-/

namespace Glr

/-- The kinds of rules. -/
inductive RuleKind where
  /-- The empty rule. -/
  | blank
  /-- A literal token. -/
  | string
  /-- A token matched by a regular expression. -/
  | pattern
  /-- A reference to a named rule. -/
  | symbol
  /-- One of several alternatives. -/
  | choice
  /-- Rules in sequence. -/
  | seq
  /-- Zero or more occurrences. -/
  | zeroOrMore
  /-- One or more occurrences. -/
  | oneOrMore
  /-- Precedence without associativity. -/
  | prec
  /-- Left-associative precedence. -/
  | precLeft
  /-- Right-associative precedence. -/
  | precRight
  /-- Precedence between ambiguous parses. -/
  | precDynamic
  /-- A named edge to the nodes of a rule. -/
  | field
  /-- Another name for the node of a rule. -/
  | renamed
  /-- A rule collapsed into one token. -/
  | token
  /-- A token that no extra may precede. -/
  | immediateToken
  /-- A context of reserved words. -/
  | reserved
  deriving DecidableEq, Repr, Inhabited

namespace RuleKind

/-- Every kind, in the order of the format. -/
def all : List RuleKind :=
  [.blank, .string, .pattern, .symbol, .choice, .seq, .zeroOrMore, .oneOrMore, .prec, .precLeft,
    .precRight, .precDynamic, .field, .renamed, .token, .immediateToken, .reserved]

/-- The name of a kind in documents. -/
def name : RuleKind → String
  | .blank => "BLANK"
  | .string => "STRING"
  | .pattern => "PATTERN"
  | .symbol => "SYMBOL"
  | .choice => "CHOICE"
  | .seq => "SEQ"
  | .zeroOrMore => "REPEAT"
  | .oneOrMore => "REPEAT1"
  | .prec => "PREC"
  | .precLeft => "PREC_LEFT"
  | .precRight => "PREC_RIGHT"
  | .precDynamic => "PREC_DYNAMIC"
  | .field => "FIELD"
  | .renamed => "ALIAS"
  | .token => "TOKEN"
  | .immediateToken => "IMMEDIATE_TOKEN"
  | .reserved => "RESERVED"

/-- The kind with a given name. -/
def ofName? (s : String) : Option RuleKind := all.find? fun k => k.name == s

/-- Whether a rule of this kind is a token on its own. -/
def isTerminal : RuleKind → Bool
  | .string | .pattern | .token | .immediateToken => true
  | _ => false

end RuleKind

/-- The value of a rule: a precedence level, or a text. -/
inductive RuleValue where
  | integer (n : Int)
  | text (s : String)
  deriving DecidableEq, Repr

/-- What a rule carries beside its parts. -/
structure RuleAttributes where
  value : Option RuleValue := none
  name : Option String := none
  named : Option Bool := none
  flags : Option String := none
  contextName : Option String := none
  deriving DecidableEq, Repr, Inhabited

/-- A rule of a grammar. -/
inductive Rule where
  | node (kind : RuleKind) (attributes : RuleAttributes) (content : Option Rule)
    (members : List Rule)
  deriving Repr

namespace Rule

instance : Inhabited Rule := ⟨.node .blank {} none []⟩

/-! ## Parts and attributes -/

/-- The kind of a rule. -/
def kind : Rule → RuleKind
  | .node k _ _ _ => k

/-- The attributes of a rule. -/
def attributes : Rule → RuleAttributes
  | .node _ a _ _ => a

/-- The wrapped rule. -/
def content : Rule → Option Rule
  | .node _ _ c _ => c

/-- The member rules. -/
def members : Rule → List Rule
  | .node _ _ _ ms => ms

/-- The name of the rule's kind. -/
def typeName (r : Rule) : String := r.kind.name

/-- The direct parts: the wrapped rule, then the members. -/
def children (r : Rule) : List Rule := r.content.toList ++ r.members

/-- Whether the rule is a token on its own. -/
def isTerminal (r : Rule) : Bool := r.kind.isTerminal

/-- Whether the rule refers to another by name. -/
def isSymbol (r : Rule) : Bool := r.kind == .symbol

/-- The text among the attributes. -/
def text? (r : Rule) : Option String :=
  match r.attributes.value with
  | some (.text s) => some s
  | _ => none

/-- The name a symbol refers to. -/
def symbolName? (r : Rule) : Option String := if r.isSymbol then r.attributes.name else none

/-- The level of a precedence given as a number. -/
def precedence? (r : Rule) : Option Int :=
  match r.kind, r.attributes.value with
  | .prec, some (.integer n) | .precLeft, some (.integer n) | .precRight, some (.integer n)
  | .precDynamic, some (.integer n) => some n
  | _, _ => none

/-- The name of a precedence given by name. -/
def precedenceName? (r : Rule) : Option String :=
  match r.kind with
  | .prec | .precLeft | .precRight => r.text?
  | _ => none

/-- The text of a literal token. -/
def literal? (r : Rule) : Option String := if r.kind = .string then r.text? else none

/-- The source of a pattern token. -/
def pattern? (r : Rule) : Option String := if r.kind = .pattern then r.text? else none

/-- The new name that a renaming gives. -/
def newName? (r : Rule) : Option String := if r.kind = .renamed then r.text? else none

/-! ## Equality -/

mutual

/-- Whether two rules agree in every part. -/
def beq : Rule → Rule → Bool
  | .node k a c ms, .node k' a' c' ms' => k == k' && a == a' && beqOption c c' && beqList ms ms'

/-- Whether two optional rules agree. -/
def beqOption : Option Rule → Option Rule → Bool
  | none, none => true
  | some r, some r' => beq r r'
  | _, _ => false

/-- Whether two lists of rules agree. -/
def beqList : List Rule → List Rule → Bool
  | [], [] => true
  | r :: rs, r' :: rs' => beq r r' && beqList rs rs'
  | _, _ => false

end

instance : BEq Rule := ⟨beq⟩

/-! ## Documents -/

/-- A rule value in a document. -/
def encodeValue : RuleValue → Json
  | .integer n => .int n
  | .text s => .string s

mutual

/-- The document of a rule. -/
def encode : Rule → Json
  | .node k a c ms =>
    .object
      ([("type", .string k.name)]
        ++ Json.optionalMember "value" encodeValue a.value
        ++ Json.optionalMember "name" .string a.name
        ++ encodeContent c
        ++ (if ms.isEmpty then [] else [("members", .array (encodeList ms))])
        ++ Json.optionalMember "named" .bool a.named
        ++ Json.optionalMember "flags" .string a.flags
        ++ Json.optionalMember "context_name" .string a.contextName)

/-- The member for a wrapped rule. -/
def encodeContent : Option Rule → List (String × Json)
  | some r => [("content", encode r)]
  | none => []

/-- The documents of some rules. -/
def encodeList : List Rule → List Json
  | [] => []
  | r :: rs => encode r :: encodeList rs

end

open Json.Decode in
/-- A rule kind, by its name. -/
def decodeKind : Json.Decoder RuleKind
  | budget, v => (variantName budget v).bind RuleKind.ofName?

/-- A rule value: a 32-bit integer or a text. -/
def decodeValue : Json.Decoder RuleValue
  | _, .string s => some (.text s)
  | budget, v => (Json.Decode.int32 budget v).map .integer

/-- The fields of a rule in a document. -/
def fieldNames : List String :=
  ["type", "value", "name", "content", "members", "named", "flags", "context_name"]

open Json.Decode in
/-- Reads a rule from its document. -/
def decode : Json.Decoder Rule
  | 0, _ => none
  | budget + 1, v => do
    let fs ← fields fieldNames v
    let kind ← required decodeKind budget fs "type"
    let value ← defaulted none (optional decodeValue) budget fs "value"
    let name ← defaulted none (optional string) budget fs "name"
    let content ←
      match fs.lookup "content" with
      | none | some .null => some none
      | some c => (decode budget c).map some
    let members ←
      match fs.lookup "members" with
      | none => some []
      | some (.array items) =>
        match budget with
        | 0 => none
        | inner + 1 => items.mapM (decode inner)
      | some _ => none
    let named ← defaulted none (optional bool) budget fs "named"
    let flags ← defaulted none (optional string) budget fs "flags"
    let contextName ← defaulted none (optional string) budget fs "context_name"
    return .node kind { value, name, named, flags, contextName } content members

/-! ## Building rules -/

/-- A rule with attributes and no parts. -/
def bare (k : RuleKind) (a : RuleAttributes) : Rule := .node k a none []

/-- A rule around another. -/
def wrap (k : RuleKind) (a : RuleAttributes) (r : Rule) : Rule := .node k a (some r) []

/-- The empty rule. -/
def blank : Rule := bare .blank {}

/-- A literal token. -/
def string (s : String) : Rule := bare .string { value := some (.text s) }

/-- A token matched by a regular expression. -/
def pattern (s : String) : Rule := bare .pattern { value := some (.text s) }

/-- A reference to a rule. -/
def sym (name : String) : Rule := bare .symbol { name := some name }

/-- Rules in sequence. -/
def seq (members : List Rule) : Rule := .node .seq {} none members

/-- One of several rules. -/
def choice (members : List Rule) : Rule := .node .choice {} none members

/-- Zero or one occurrence. -/
def opt (r : Rule) : Rule := choice [r, blank]

/-- Zero or more occurrences. -/
def many (r : Rule) : Rule := wrap .zeroOrMore {} r

/-- One or more occurrences. -/
def some1 (r : Rule) : Rule := wrap .oneOrMore {} r

/-- A rule collapsed into one token. -/
def token (r : Rule) : Rule := wrap .token {} r

/-- A token that no extra may precede. -/
def immediateToken (r : Rule) : Rule := wrap .immediateToken {} r

/-- Precedence; inside a token it is lexical. -/
def prec (level : Int) (r : Rule) : Rule := wrap .prec { value := some (.integer level) } r

/-- Left-associative precedence. -/
def precLeft (level : Int) (r : Rule) : Rule := wrap .precLeft { value := some (.integer level) } r

/-- Right-associative precedence. -/
def precRight (level : Int) (r : Rule) : Rule :=
  wrap .precRight { value := some (.integer level) } r

/-- Precedence by name. -/
def precNamed (name : String) (r : Rule) : Rule := wrap .prec { value := some (.text name) } r

/-- Precedence between ambiguous parses. -/
def precDynamic (level : Int) (r : Rule) : Rule :=
  wrap .precDynamic { value := some (.integer level) } r

/-- Names the edge to the nodes of a rule. -/
def field (name : String) (r : Rule) : Rule := wrap .field { name := some name } r

/-- Gives the node of a rule another name. -/
def renamed (r : Rule) (name : String) (named : Bool) : Rule :=
  wrap .renamed { value := some (.text name), named := some named } r

end Rule

end Glr
