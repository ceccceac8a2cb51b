import Glr.Json.Token

/-!
# Glr.Json.Printer

Two written forms of a value.  Both are lists of tokens and blanks: `compact`
has no blanks, `pretty` puts each item on a line of its own, indented by two
spaces per open array or object, and a space after each colon.
-/

namespace Glr.Json

/-- A token, or blanks between tokens. -/
inductive Piece where
  | token (t : Token)
  /-- One space. -/
  | space
  /-- A line feed and an indentation by `depth` steps of two spaces. -/
  | newline (depth : Nat)
  deriving Repr

/-- The characters of a piece. -/
def Piece.text : Piece → List Char
  | .token t => t.text
  | .space => [' ']
  | .newline depth => '\n' :: List.replicate (2 * depth) ' '

/-- The text of some pieces. -/
def render (pieces : List Piece) : String :=
  pieces.foldl (fun acc p => p.text.foldl String.push acc) ""

/-- The token of a value without parts. -/
def scalarToken : Json → Token
  | .bool b => .bool b
  | .int n => .int n
  | .string s => .string s
  | _ => .null

mutual

/-- The pieces of a value in compact form, before some others. -/
def compactPieces : Json → List Piece → List Piece
  | .array items, rest => .token .lbracket :: compactItems items (.token .rbracket :: rest)
  | .object members, rest => .token .lbrace :: compactMembers members (.token .rbrace :: rest)
  | .null, rest => .token .null :: rest
  | .bool b, rest => .token (.bool b) :: rest
  | .int n, rest => .token (.int n) :: rest
  | .string s, rest => .token (.string s) :: rest
  | .foreign, rest => .token .null :: rest

/-- The items of an array, separated by commas. -/
def compactItems : List Json → List Piece → List Piece
  | [], rest => rest
  | v :: vs, rest =>
    compactPieces v (if vs.isEmpty then rest else .token .comma :: compactItems vs rest)

/-- The members of an object, separated by commas. -/
def compactMembers : List (String × Json) → List Piece → List Piece
  | [], rest => rest
  | m :: ms, rest =>
    .token (.string m.1) :: .token .colon ::
      compactPieces m.2 (if ms.isEmpty then rest else .token .comma :: compactMembers ms rest)

end

mutual

/-- The pieces of a value in indented form, inside `depth` open brackets. -/
def prettyPieces (depth : Nat) : Json → List Piece → List Piece
  | .array [], rest => .token .lbracket :: .token .rbracket :: rest
  | .array (v :: vs), rest =>
    .token .lbracket ::
      prettyItems (depth + 1) (v :: vs) (.newline depth :: .token .rbracket :: rest)
  | .object [], rest => .token .lbrace :: .token .rbrace :: rest
  | .object (m :: ms), rest =>
    .token .lbrace ::
      prettyMembers (depth + 1) (m :: ms) (.newline depth :: .token .rbrace :: rest)
  | .null, rest => .token .null :: rest
  | .bool b, rest => .token (.bool b) :: rest
  | .int n, rest => .token (.int n) :: rest
  | .string s, rest => .token (.string s) :: rest
  | .foreign, rest => .token .null :: rest

/-- The items of an array, each on its own line. -/
def prettyItems (depth : Nat) : List Json → List Piece → List Piece
  | [], rest => rest
  | v :: vs, rest =>
    .newline depth ::
      prettyPieces depth v (if vs.isEmpty then rest else .token .comma :: prettyItems depth vs rest)

/-- The members of an object, each on its own line. -/
def prettyMembers (depth : Nat) : List (String × Json) → List Piece → List Piece
  | [], rest => rest
  | m :: ms, rest =>
    .newline depth :: .token (.string m.1) :: .token .colon :: .space ::
      prettyPieces depth m.2
        (if ms.isEmpty then rest else .token .comma :: prettyMembers depth ms rest)

end

/-- The text of a value without blanks. -/
def compact (v : Json) : String := render (compactPieces v [])

/-- The text of a value, indented. -/
def pretty (v : Json) : String := render (prettyPieces 0 v [])

end Glr.Json
