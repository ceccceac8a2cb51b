/-!
# Glr.Unicode.Name

How names of properties and of their values are compared: without case, and
without blanks, hyphens and underscores.
-/

namespace Glr.Unicode

/-- A name without case, blanks, hyphens and underscores, and without characters
that no name has. -/
def foldChars (cs : List Char) : List Char :=
  (cs.filter fun c => c.toNat < 128 && c != ' ' && c != '-' && c != '_').map Char.toLower

/-- A name as it is compared: a leading `is` is left out, unless this leaves no
more than the letter of a category. -/
def foldName (s : String) : String :=
  match s.toList with
  | i :: s' :: rest =>
    if i.toLower == 'i' && s'.toLower == 's' then
      let folded := foldChars rest
      if folded == ['c'] then "isc" else String.ofList folded
    else String.ofList (foldChars (i :: s' :: rest))
  | cs => String.ofList (foldChars cs)

end Glr.Unicode
