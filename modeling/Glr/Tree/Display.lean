import Glr.Tree.Cursor

/-!
# Glr.Tree.Display

Trees in writing.  `Tree.display` puts every node with a name on its own line,
with its span, indented under the nodes with a name around it:

```
(pair [0, 0] - [0, 5]
  key: (word [0, 0] - [0, 2])
  (MISSING word [0, 5] - [0, 5]))
```

`Node.toSexp` writes the same structure on one line, without spans.
-/

namespace Glr

/-! ## The way around a tree -/

/-- A stop on the way around a tree: a cursor that comes to a node or leaves it. -/
structure Visit where
  cursor : Cursor
  leaving : Bool

namespace Visit

/-- The next stop: into the first child, from a child on to its next sibling, and
from the last one back to the parent. -/
def next? (v : Visit) : Option Visit :=
  if v.leaving then
    match v.cursor.sibling? true with
    | some c => some ⟨c, false⟩
    | none => v.cursor.parent?.map fun c => ⟨c, true⟩
  else
    match v.cursor.firstChild? with
    | some c => some ⟨c, false⟩
    | none => some ⟨v.cursor, true⟩

/-- The stops from one on; `fuel` bounds their number. -/
def onward : Nat → Visit → List Visit
  | 0, _ => []
  | fuel + 1, v =>
    v :: match v.next? with
      | some w => onward fuel w
      | none => []

end Visit

/-- The way around a node and all that is visible under it: every node is come
to once and left once. -/
def Node.tour (n : Node) : List Visit := Visit.onward (2 * n.subtree.count) ⟨.start n, false⟩

/-- The visible nodes from here on down, in the order in which they begin. -/
def Node.walk (n : Node) : List Cursor :=
  n.tour.filterMap fun v => if v.leaving then none else some v.cursor

/-! ## Lines -/

/-- A tree in writing, up to some stop, and how many nodes with a name the cursor
has gone down from and not come back to. -/
structure Page where
  text : String := ""
  depth : Int := 0

/-- The line of a node, without its end. -/
def Cursor.headline (c : Cursor) : String :=
  let n := c.node
  let label := match c.fieldName? with
    | some name => name ++ ": "
    | none => ""
  let kind := if n.subtree.info.missing then "(MISSING " ++ n.kind else "(" ++ n.kind
  label ++ kind ++ " " ++ n.range.display

/-- Writes what belongs to a stop; only nodes with a name are written. -/
def Page.add (p : Page) (v : Visit) : Page :=
  let n := v.cursor.node
  -- the cursor goes down from a node and comes back to it only where there are children
  let level : Int := if n.children.isEmpty then 0 else 1
  if !n.isNamed then p
  else if v.leaving then ⟨p.text ++ ")", p.depth - level⟩
  else
    let gap := if p.text.isEmpty then "" else "\n"
    ⟨p.text ++ gap ++ "".pushn ' ' (2 * p.depth.toNat) ++ v.cursor.headline, p.depth + level⟩

/-- The tree in writing. -/
def Tree.display (t : Tree) : String := (t.rootNode.tour.foldl Page.add {}).text

/-- What is shown of a tree for inspection. -/
def Tree.describe (t : Tree) : String := s!"\x7bTree {t.rootNode.describe}\x7d"

/-! ## One line -/

namespace Subtree

/-- A text in which quotes are escaped. -/
def escapeQuotes (s : String) : String := s.replace "\"" "\\\""

mutual
/-- Writes a node with a name, or a missing token, behind `text`. -/
def addSexp (l : Language) (field : Option FieldId) (text : String) : Subtree → String
  | .mk info children =>
    if !info.named && !info.missing then text
    else
      let text := if text.isEmpty then text else text.push ' '
      let text := match field.bind l.fieldName? with
        | some name => text ++ name ++ ": "
        | none => text
      let kind := l.kindOf info.symbol
      if info.missing && !info.named then text ++ "(MISSING \"" ++ escapeQuotes kind ++ "\")"
      else
        let text := text ++ (if info.missing then "(MISSING " else "(") ++ kind
        (addSexpAll l text children).push ')'
/-- Writes the visible ones of some children behind `text`. -/
def addSexpAll (l : Language) (text : String) : List (Child Subtree) → String
  | [] => text
  | ⟨field, t⟩ :: rest =>
    addSexpAll l (if t.info.visible then addSexp l field text t else text) rest
end

end Subtree

/-- The node and what is under it on one line. -/
def Node.toSexp (n : Node) : String := n.subtree.addSexp n.tree.language none ""

end Glr
