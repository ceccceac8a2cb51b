import Glr.Regex.Syntax
import Glr.Text.Bytes

/-!
# Glr.Regex.Extent

What an expression says about all of its matches: how many bytes they take, and
whether they lie at the start or at the end of the text.
-/

namespace Glr.Regex.Node

open Unicode (CharSet)

/-- The least number of bytes that a match takes; `none` where a part that has
no match stands in the way. -/
def leastLength : Node → Option Nat
  | .empty => some 0
  | .chars s => s.first?.map Utf8.width
  | .bytes s => s.first?.map fun _ => 1
  | .look _ => some 0
  | .seq a b => do return (← a.leastLength) + (← b.leastLength)
  | .alt a b => do return min (← a.leastLength) (← b.leastLength)
  | .times body least _ _ => body.leastLength.map (least * ·)
  | .group _ body => body.leastLength

/-- The greatest number of bytes that a match takes; `none` where there is no
bound, or a part that has no match stands in the way. -/
def mostLength : Node → Option Nat
  | .empty => some 0
  | .chars s => s.last?.map Utf8.width
  | .bytes s => s.last?.map fun _ => 1
  | .look _ => some 0
  | .seq a b => do return (← a.mostLength) + (← b.mostLength)
  | .alt a b => do return max (← a.mostLength) (← b.mostLength)
  | .times body _ most _ => do return (← most) * (← body.mostLength)
  | .group _ body => body.mostLength

/-- Whether every match is seen to take at least one byte. -/
def consumes (n : Node) : Bool := n.leastLength.any (0 < ·)

/-- Whether every match is seen to start at the start of the text. -/
def pinned : Node → Bool
  | .empty => false
  | .chars _ => false
  | .bytes _ => false
  | .look l => l = .textStart
  | .seq a b => a.pinned || (a.mostLength = some 0 && b.pinned)
  | .alt a b => a.pinned && b.pinned
  | .times body least _ _ => least > 0 && body.pinned
  | .group _ body => body.pinned

/-- Whether every match is seen to end at the end of the text. -/
def pinnedAtEnd : Node → Bool
  | .empty => false
  | .chars _ => false
  | .bytes _ => false
  | .look l => l = .textEnd
  | .seq a b => b.pinnedAtEnd || (a.pinnedAtEnd && b.mostLength = some 0)
  | .alt a b => a.pinnedAtEnd && b.pinnedAtEnd
  | .times body least _ _ => least > 0 && body.pinnedAtEnd
  | .group _ body => body.pinnedAtEnd

end Glr.Regex.Node
