import Glr.Unicode.Age
import Glr.Unicode.Break

/-!
# Glr.Unicode.Property

Sets of characters by name: the properties that a pattern may ask for.  Names
are folded before they are compared.
-/

namespace Glr.Unicode

/-- The set that a bare name stands for: a binary property, a general category
or a script. -/
def property? (name : String) : Option CharSet :=
  let key := foldName name
  binary? key <|> category? key <|> script? key

/-- The set that a property name with a value stands for. -/
def propertyValue? (property value : String) : Option CharSet :=
  let key := foldName value
  match foldName property with
  | "gc" => category? key
  | "generalcategory" => category? key
  | "sc" => script? key
  | "script" => script? key
  | "scx" => scriptExtension? key
  | "scriptextensions" => scriptExtension? key
  | "age" => age? key
  | "gcb" => breakValue? graphemeBreaks key
  | "graphemeclusterbreak" => breakValue? graphemeBreaks key
  | "wb" => breakValue? wordBreaks key
  | "wordbreak" => breakValue? wordBreaks key
  | "sb" => breakValue? sentenceBreaks key
  | "sentencebreak" => breakValue? sentenceBreaks key
  | _ => none

end Glr.Unicode
