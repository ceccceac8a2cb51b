import Glr.Dictionary
import Glr.Json.Parser

/-!
# Glr.Json.Decode

Reading typed values from JSON.  A decoder takes the number of arrays and
objects that may still be opened, and refuses a value nested more deeply;
parts that a decoder ignores are not counted.
-/

namespace Glr.Json

/-- Reads a value of type `α` inside which `budget` brackets may be opened. -/
abbrev Decoder (α : Type) := Nat → Json → Option α

/-- How many brackets may stand open at once in a document that is decoded. -/
def maxDepth : Nat := 127

/-- Decodes a whole document. -/
def decode? {α : Type} (d : Decoder α) (text : String) : Option α := (parse? text).bind (d maxDepth)

namespace Decode

/-- A string. -/
def string : Decoder String
  | _, .string s => some s
  | _, _ => none

/-- A truth value. -/
def bool : Decoder Bool
  | _, .bool b => some b
  | _, _ => none

/-- An integer between two bounds. -/
def intIn (low high : Int) : Decoder Int
  | _, .int n => if low ≤ n ∧ n ≤ high then some n else none
  | _, _ => none

/-- A natural number below a bound. -/
def natBelow (bound : Nat) : Decoder Nat
  | _, .int n => if 0 ≤ n ∧ n < bound then some n.toNat else none
  | _, _ => none

/-- A 32-bit signed integer. -/
def int32 : Decoder Int := intIn (-2147483648) 2147483647

/-- A 32-bit natural number. -/
def nat32 : Decoder Nat := natBelow 4294967296

/-- A 16-bit natural number. -/
def nat16 : Decoder Nat := natBelow 65536

/-- A value that may be absent, written `null`. -/
def optional {α : Type} (d : Decoder α) : Decoder (Option α)
  | _, .null => some none
  | budget, v => (d budget v).map some

/-- An array of values of one kind. -/
def list {α : Type} (d : Decoder α) : Decoder (List α)
  | budget + 1, .array items => items.mapM (d budget)
  | _, _ => none

/-- An object read as a dictionary: a repeated key keeps its first place and
takes its last value. -/
def dictionary {α : Type} (d : Decoder α) : Decoder (Dictionary α)
  | budget + 1, .object members =>
    (members.mapM fun m => (d budget m.2).map fun v => (m.1, v)).map Dictionary.ofList
  | _, _ => none

/-- The name of a variant without contents: a string, or an object that maps
the name to `null`. -/
def variantName : Decoder String
  | _, .string s => some s
  | _ + 1, .object [(s, .null)] => some s
  | _, _ => none

/-- The fields of a record, by name.  An object may hold other members, which
are ignored, but no field twice; an array holds the fields in order and may
stop early. -/
def fields (names : List String) : Json → Option (List (String × Json))
  | .object members =>
    let known := members.filter fun m => names.contains m.1
    if (known.map Prod.fst).Nodup then some known else none
  | .array items => if items.length ≤ names.length then some (names.zip items) else none
  | _ => none

/-- A field that must be there. -/
def required {α : Type} (d : Decoder α) (budget : Nat) (fields : List (String × Json))
    (name : String) : Option α :=
  (fields.lookup name).bind (d budget)

/-- A field that takes a default when it is not there. -/
def defaulted {α : Type} (default : α) (d : Decoder α) (budget : Nat)
    (fields : List (String × Json)) (name : String) : Option α :=
  match fields.lookup name with
  | some v => d budget v
  | none => some default

end Decode

end Glr.Json
