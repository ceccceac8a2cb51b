/-!
# Glr.Json.Value

JSON values with their members in written order.  Numbers are integers; a
well-formed text that names no such value (a fraction, an exponent, a string
with half of a surrogate pair) reads as `Json.foreign`, which may stand where
a value is ignored and nowhere else.
-/

namespace Glr

/-- A JSON value. -/
inductive Json where
  | null
  | bool (b : Bool)
  | int (n : Int)
  | string (s : String)
  | array (items : List Json)
  | object (members : List (String × Json))
  /-- Well-formed, but no value of this library. -/
  | foreign
  deriving Repr, Inhabited

namespace Json

/-- A natural number. -/
def nat (n : Nat) : Json := .int n

/-- An optional value, `null` when absent. -/
def option {α : Type} (f : α → Json) : Option α → Json
  | some a => f a
  | none => .null

/-- An array of values of one kind. -/
def list {α : Type} (f : α → Json) (items : List α) : Json := .array (items.map f)

/-- A member that is left out when it is absent. -/
def optionalMember {α : Type} (key : String) (f : α → Json) : Option α → List (String × Json)
  | some a => [(key, f a)]
  | none => []

/-- The first member of an object with a given key. -/
def get? (key : String) : Json → Option Json
  | .object members => (members.find? fun m => m.1 == key).map Prod.snd
  | _ => none

end Json

end Glr
