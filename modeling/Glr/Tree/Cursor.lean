import Glr.Tree.Node

/-!
# Glr.Tree.Cursor

A place in a tree that moves.  A cursor never leaves the node it started on, so
it counts how far below that node it is.  A move that leads nowhere answers
`none`.
-/

namespace Glr

/-- A node, and how many steps it is below the node that the cursor started on. -/
structure Cursor where
  node : Node
  depth : Nat

namespace Cursor

/-- A cursor on its first node. -/
def start (n : Node) : Cursor := ⟨n, 0⟩

variable (c : Cursor)

/-- The field of the node; the first node has none. -/
def field? : Option FieldId := if c.depth = 0 then none else c.node.field?

/-- The name of that field. -/
def fieldName? : Option String := c.field?.bind c.node.tree.language.fieldName?

/-- One step down. -/
def enter (n : Node) : Cursor := ⟨n, c.depth + 1⟩

/-- To the first child. -/
def firstChild? : Option Cursor := c.node.children.head?.map c.enter

/-- To the last child. -/
def lastChild? : Option Cursor := c.node.children.getLast?.map c.enter

/-- To the parent. -/
def parent? : Option Cursor :=
  match c.depth, c.node.parent? with
  | depth + 1, some n => some ⟨n, depth⟩
  | _, _ => none

theorem parent?_enter {c : Cursor} {m : Node} (h : m ∈ c.node.children) :
    (c.enter m).parent? = some c := by
  simp [parent?, enter, Node.parent?_of_mem_children h]

theorem parent?_of_firstChild? {c d : Cursor} (h : c.firstChild? = some d) :
    d.parent? = some c := by
  obtain ⟨m, hm, rfl⟩ := Option.map_eq_some_iff.mp h
  exact parent?_enter (List.mem_of_mem_head? hm)

theorem parent?_of_lastChild? {c d : Cursor} (h : c.lastChild? = some d) :
    d.parent? = some c := by
  obtain ⟨m, hm, rfl⟩ := Option.map_eq_some_iff.mp h
  exact parent?_enter (List.mem_of_getLast? hm)

/-- To the next or the previous sibling. -/
def sibling? (forward : Bool) : Option Cursor :=
  if c.depth = 0 then none else (c.node.sibling? forward).map fun n => ⟨n, c.depth⟩

/-- To the first child that ends after a byte; answers its number, too. -/
def childForByte? (byte : Nat) : Option (Nat × Cursor) :=
  (c.node.children.zipIdx.find? fun (n, _) => n.endByte > byte).map fun (n, i) => (i, c.enter n)

/-- Up to the nearest node that contains a byte, over at most `depth` steps. -/
def climb (byte : Nat) : Nat → Node → Cursor
  | 0, n => ⟨n, 0⟩
  | depth + 1, n =>
    if n.contains byte then ⟨n, depth + 1⟩
    else
      match n.parent? with
      | some p => climb byte depth p
      | none => ⟨n, depth + 1⟩

/-- Down to the deepest node that contains a byte; `fuel` bounds the levels. -/
def sink (byte : Nat) : Nat → Cursor → Cursor
  | 0, c => c
  | fuel + 1, c =>
    match c.node.children.find? fun n => n.contains byte with
    | some n => sink byte fuel (c.enter n)
    | none => c

/-- To the deepest node that contains a byte, and whether there is one.  If not,
the cursor ends on its first node. -/
def seek (byte : Nat) : Bool × Cursor :=
  let c := climb byte c.depth c.node
  if c.node.contains byte then (true, sink byte c.node.subtree.count c) else (false, c)

end Cursor

end Glr
