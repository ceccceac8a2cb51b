import Glr.Json.Token

/-!
# Glr.Json.Parser

Reads a value from its tokens with a stack of open arrays and objects.  Each
token is one `step`, so reading is a fold over the tokens: `Parse.run`.

The stack holds what is open around the place where the reader stands, the
innermost first; a value that is read whole is handed to the frame on top.
-/

namespace Glr.Json

/-- An object key, `none` when it holds half of a surrogate pair. -/
abbrev Key := Option String

namespace Parse

/-- An array or object that is still open, its parts in reverse. -/
inductive Frame where
  | items (rev : List Json)
  /-- An object waiting for the value of `key`. -/
  | members (rev : List (Key × Json)) (key : Key)
  deriving Repr

/-- What may come next. -/
inductive Expect where
  /-- A value. -/
  | value
  /-- A value, or the end of an array just opened. -/
  | valueOrEnd
  /-- A key of an object with these members. -/
  | key (rev : List (Key × Json))
  /-- A key, or the end of an object just opened. -/
  | keyOrEnd
  /-- The colon after a key. -/
  | colon
  /-- A comma or the end of the open array or object, after a value. -/
  | more (value : Json)
  deriving Repr

/-- The reader: what it expects, inside which arrays and objects. -/
structure State where
  expect : Expect
  stack : List Frame
  deriving Repr

/-- The object with these members; a key that is no string makes it foreign. -/
def closeObject (rev : List (Key × Json)) : Json :=
  match rev.reverse.mapM fun m => m.1.map fun key => (key, m.2) with
  | some members => .object members
  | none => .foreign

/-- The value that a single token stands for. -/
def scalar? : Token → Option Json
  | .null => some .null
  | .bool b => some (.bool b)
  | .int n => some (.int n)
  | .string s => some (.string s)
  | .fraction => some .foreign
  | .brokenString => some .foreign
  | _ => none

/-- A token where a value is expected. -/
def stepValue (stack : List Frame) : Token → Option State
  | .lbracket => some ⟨.valueOrEnd, .items [] :: stack⟩
  | .lbrace => some ⟨.keyOrEnd, stack⟩
  | t => (scalar? t).map fun v => ⟨.more v, stack⟩

/-- A token where a key is expected. -/
def stepKey (rev : List (Key × Json)) (stack : List Frame) : Token → Option State
  | .string s => some ⟨.colon, .members rev (some s) :: stack⟩
  | .brokenString => some ⟨.colon, .members rev none :: stack⟩
  | _ => none

/-- One token. -/
def step (s : State) (t : Token) : Option State :=
  match s.expect, s.stack with
  | .value, stack => stepValue stack t
  | .valueOrEnd, .items rev :: stack =>
    if t = .rbracket then some ⟨.more (.array rev.reverse), stack⟩
    else stepValue (.items rev :: stack) t
  | .valueOrEnd, _ => none
  | .keyOrEnd, stack =>
    if t = .rbrace then some ⟨.more (.object []), stack⟩ else stepKey [] stack t
  | .key rev, stack => stepKey rev stack t
  | .colon, stack => if t = .colon then some ⟨.value, stack⟩ else none
  | .more v, .items rev :: stack =>
    if t = .comma then some ⟨.value, .items (v :: rev) :: stack⟩
    else if t = .rbracket then some ⟨.more (.array (v :: rev).reverse), stack⟩
    else none
  | .more v, .members rev key :: stack =>
    if t = .comma then some ⟨.key ((key, v) :: rev), stack⟩
    else if t = .rbrace then some ⟨.more (closeObject ((key, v) :: rev)), stack⟩
    else none
  | .more _, [] => none

/-- All tokens, from a state. -/
def run (s : State) (ts : List Token) : Option State := ts.foldlM step s

/-- The value read when the tokens end. -/
def finish (s : State) : Option Json :=
  match s.expect, s.stack with
  | .more v, [] => some v
  | _, _ => none

end Parse

/-- The value of a list of tokens. -/
def ofTokens? (ts : List Token) : Option Json := (Parse.run ⟨.value, []⟩ ts).bind Parse.finish

/-- The value of a JSON text, if it is one. -/
def parse? (text : String) : Option Json := (Token.scan text.toList).bind ofTokens?

end Glr.Json
