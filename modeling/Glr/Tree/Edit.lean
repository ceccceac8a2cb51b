import Glr.Log
import Glr.Text.Edit
import Glr.Tree.Basic

/-!
# Glr.Tree.Edit

Edits of trees.  An edit changes the sizes of the nodes that its range touches
or that looked at its text, and marks them; all other nodes stay as they are.

```
new size = old size - (old end - start) + (new end - start)
```
-/

namespace Glr

namespace Subtree

/-- What of an edit falls to the children of a node: where it starts, where the
replaced text ends, and the new text, unless some child has taken it. -/
structure Share where
  start : Length
  oldEnd : Length
  inserted : Option Length

/-- Whether an edit touches a child between two places, or text that had a say
in it. -/
def Share.touches (s : Share) (childStart childEnd : Length) (t : Subtree) : Bool :=
  childStart.bytes ≤ s.oldEnd.bytes && childEnd.bytes + t.info.lookahead > s.start.bytes

/-- Whether a child that ends at a place takes the new text: the first one that
reaches into the edit does, or that ends where text is only inserted. -/
def Share.goesTo (s : Share) (childEnd : Length) : Bool :=
  childEnd.bytes > s.start.bytes
    || childEnd.bytes == s.start.bytes && s.start.bytes == s.oldEnd.bytes

/-- The size of a node after an edit within it. -/
def sizeAfter (size oldEnd newEnd : Length) : Length :=
  if oldEnd.bytes < size.bytes then newEnd + (size - oldEnd) else newEnd

mutual
/-- Edits a node; places count from its start. -/
def edit (start oldEnd newEnd : Length) : Subtree → Subtree
  | .mk info children =>
    .mk { info with size := sizeAfter info.size oldEnd newEnd, changed := true }
      (editAll ⟨start, oldEnd, some (newEnd - start)⟩ Length.zero children)
/-- Edits some children, the first of which starts at a place. -/
def editAll (s : Share) (childStart : Length) : List (Child Subtree) → List (Child Subtree)
  | [] => []
  | ⟨field, t⟩ :: rest =>
    let childEnd := childStart + t.size
    if s.touches childStart childEnd t then
      let start := s.start.clamp childStart childEnd - childStart
      let oldEnd := s.oldEnd.clamp childStart childEnd - childStart
      if s.goesTo childEnd then
        ⟨field, edit start oldEnd (start + s.inserted.getD Length.zero) t⟩
          :: editAll { s with inserted := none } childEnd rest
      else ⟨field, edit start oldEnd (start + Length.zero) t⟩ :: editAll s childEnd rest
    else ⟨field, t⟩ :: editAll s childEnd rest
end

end Subtree

namespace Tree

/-- The tree after an edit of its text; an edit that does not fit the text is
refused. -/
def edit (t : Tree) (e : Edit) : Except EditError Tree :=
  match e.validate t.lenBytes with
  | .error err => .error err
  | .ok _ => .ok { t with root := t.root.edit e.start e.oldEnd e.newEnd }

/-- The tree after some edits, one after another. -/
def editAll (t : Tree) (edits : List Edit) : Except EditError Tree := edits.foldlM Tree.edit t

end Tree

/-- The report on an edit of a tree. -/
def Edit.event (e : Edit) : Log.Event :=
  ⟨.trace, "edited tree",
    [("start", .nat e.start.bytes), ("old_end", .nat e.oldEnd.bytes),
      ("new_end", .nat e.newEnd.bytes)]⟩

end Glr
