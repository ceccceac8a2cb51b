import Glr.Tree.Basic

/-!
# Glr.Tree.Node

Places in a tree.  A node knows the way down to it, so the way up can be read
off that:

```
node.children[i].parent? = node
```

Without the way, a node is found again from the root: by where it starts and
ends, and by the place that tells it from others there.  Hidden nodes are stored
but cannot be reached; children and siblings are the visible ones.
-/

namespace Glr

/-- One step down: the node it starts from, which of its stored children it goes
to, and the field that the child fills. -/
structure Descent where
  parent : Subtree
  /-- Where the parent starts. -/
  start : Length
  index : Nat
  field : Option FieldId
  deriving Repr, Inhabited

/-- A node in its tree. -/
structure Node where
  tree : Tree
  subtree : Subtree
  start : Length
  /-- The steps from the root, the last one first. -/
  path : List Descent

/-- The root of a tree as a node. -/
def Tree.rootNode (t : Tree) : Node := ⟨t, t.root, Length.zero, []⟩

namespace Node

variable (n : Node)

/-- The kind of the node. -/
def kind : String := n.tree.language.kindOf n.subtree.symbol

/-- Whether the node is of a rule with a name. -/
def isNamed : Bool := n.subtree.info.named

/-- The first byte. -/
def startByte : Nat := n.start.bytes

/-- The byte after the last one. -/
def endByte : Nat := n.start.bytes + n.subtree.size.bytes

/-- The span of the node. -/
def range : Range := n.subtree.rangeAt n.start

/-- Whether a byte lies in the node. -/
def contains (byte : Nat) : Bool := n.startByte ≤ byte && byte < n.endByte

/-- The text of the node, in the text that the tree was made from; empty where
the node reaches beyond that, none where it is not UTF-8. -/
def text? (source : Bytes) : Option String :=
  if n.endByte ≤ source.size then Bytes.toString? (source.extract n.startByte n.endByte)
  else some ""

/-- The places of a node and its ancestors among their siblings, which tell nodes
of a tree apart. -/
def address (n : Node) : List Nat := n.path.map Descent.index

/-- Whether two nodes of a tree are one. -/
def isSame (a b : Node) : Bool := a.address == b.address

/-- Whether two nodes start at the same byte and have the same structure. -/
def sameAs (a b : Node) : Bool := a.startByte == b.startByte && a.subtree.sameAs b.subtree

/-- What is shown of a node for inspection. -/
def describe : String := s!"\x7bNode {n.kind} {n.range.display}\x7d"

/-! ## Down -/

/-- The nodes of some stored children of `n`, from the one with number `index`
on, which starts at a place. -/
def place (index : Nat) (start : Length) : List (Child Subtree) → List Node
  | [] => []
  | c :: rest =>
    ⟨n.tree, c.node, start, ⟨n.subtree, n.start, index, c.field⟩ :: n.path⟩
      :: place (index + 1) (start + c.node.size) rest

theorem length_place (n : Node) (i : Nat) (start : Length) (cs : List (Child Subtree)) :
    (n.place i start cs).length = cs.length := by
  induction cs generalizing i start with
  | nil => rfl
  | cons c cs ih => simp [place, ih]

theorem map_subtree_place (n : Node) (i : Nat) (start : Length) (cs : List (Child Subtree)) :
    (n.place i start cs).map Node.subtree = cs.map Child.node := by
  induction cs generalizing i start with
  | nil => rfl
  | cons c cs ih => simp [place, ih]

/-- The stored children, hidden ones too. -/
def storedChildren : List Node := n.place 0 n.start n.subtree.children

/-- The visible children. -/
def children : List Node := n.storedChildren.filter fun c => c.subtree.info.visible

/-- The visible children with a name. -/
def namedChildren : List Node := n.children.filter isNamed

/-- The number of visible children. -/
def childCount : Nat := n.subtree.info.visibleCount

/-- The number of visible children with a name. -/
def namedChildCount : Nat := n.subtree.info.namedCount

/-- One of the visible children. -/
def child? (i : Nat) : Option Node := n.children[i]?

/-- One of the visible children with a name. -/
def namedChild? (i : Nat) : Option Node := n.namedChildren[i]?

/-- The field that the node fills in its parent. -/
def field? : Option FieldId := n.path.head?.bind Descent.field

/-- The children that fill a field. -/
def childrenOfField (f : FieldId) : List Node := n.children.filter fun c => c.field? == some f

/-- The first child that fills a field. -/
def childOfField? (f : FieldId) : Option Node := n.children.find? fun c => c.field? == some f

/-- The children that fill a field of a name. -/
def childrenOfFieldName (name : String) : List Node :=
  match n.tree.language.fieldId? name with
  | some f => n.childrenOfField f
  | none => []

/-- The first child that fills a field of a name. -/
def childOfFieldName? (name : String) : Option Node :=
  (n.tree.language.fieldId? name).bind n.childOfField?

/-! ## Up and to the sides -/

/-- The node around this one. -/
def parent? : Option Node :=
  match n.path with
  | [] => none
  | d :: path => some ⟨n.tree, d.parent, d.start, path⟩

theorem parent?_of_mem_place {n m : Node} {i : Nat} {start : Length} {cs : List (Child Subtree)}
    (h : m ∈ n.place i start cs) : m.parent? = some n := by
  induction cs generalizing i start with
  | nil => simp [place] at h
  | cons c cs ih =>
    rcases List.mem_cons.mp h with rfl | h
    · rfl
    · exact ih h

theorem parent?_of_mem_children {n m : Node} (h : m ∈ n.children) : m.parent? = some n :=
  parent?_of_mem_place (List.mem_filter.mp h).1

/-- The place among the stored children of the parent. -/
def index : Nat := (n.path.head?.map Descent.index).getD 0

/-- The nearest stored child after or before one that is visible and, if asked
for, has a name. -/
def beside? (index : Nat) (forward named : Bool) : Option Node :=
  let accept (c : Node) : Bool := c.subtree.info.visible && (!named || c.isNamed)
  if forward then (n.storedChildren.drop (index + 1)).find? accept
  else (n.storedChildren.take index).reverse.find? accept

/-- The nearest sibling after or before this one that is visible. -/
def sibling? (forward : Bool) : Option Node :=
  n.parent?.bind fun p => p.beside? n.index forward false

/-! ## From the root -/

/-- The stored children of `p` that may hold the node, the last one first: of
those that start no later than it, the ones after the last that ends before it. -/
def holders (p : Node) : List Node :=
  (p.storedChildren.takeWhile fun c => c.startByte ≤ n.startByte).reverse.takeWhile
    fun c => n.endByte ≤ c.endByte

/-- The parent of the node and its place there, sought from `p` on down.  Where it
is none of the holders, it is in one of them.  `fuel` bounds the levels. -/
def locateIn? : Nat → Node → Option (Node × Nat)
  | 0, _ => none
  | fuel + 1, p =>
    let holders := n.holders p
    match holders.find? fun c => c.startByte == n.startByte && c.isSame n with
    | some c => some (p, c.index)
    | none => (holders.reverse.filter fun c => !c.subtree.isLeaf).findSome? (locateIn? fuel)

/-- The parent of the node and its place among the stored children there. -/
def locate? : Option (Node × Nat) := n.locateIn? n.tree.root.count n.tree.rootNode

/-- The parent, found from the root. -/
def findParent? : Option Node := n.locate?.map Prod.fst

/-- The nearest sibling after or before the node that is visible and, if asked
for, has a name. -/
def findSibling? (forward named : Bool) : Option Node :=
  n.locate?.bind fun (p, index) => p.beside? index forward named

/-- The next sibling. -/
def next? : Option Node := n.findSibling? true false

/-- The sibling before. -/
def previous? : Option Node := n.findSibling? false false

/-- The next sibling with a name. -/
def nextNamed? : Option Node := n.findSibling? true true

/-- The sibling with a name before. -/
def previousNamed? : Option Node := n.findSibling? false true

/-- The name of the field that the node fills in its parent. -/
def fieldName? : Option String :=
  (n.locate?.bind fun (p, index) => p.subtree.children[index]?.bind Child.field).bind
    n.tree.language.fieldName?

/-! ## To a range -/

/-- Whether a node spans a range.  One that ends where the range starts, and
starts before, only touches it. -/
def spans (start stop : Nat) : Bool :=
  n.startByte ≤ start && stop ≤ n.endByte && !(n.endByte == start && n.startByte < start)

/-- The visible nodes from `n` on down that span a range, `n` first; each is the
first one among its siblings.  `fuel` bounds the levels. -/
def chain (start stop : Nat) : Nat → Node → List Node
  | 0, n => [n]
  | fuel + 1, n =>
    match n.children.find? fun c => c.spans start stop with
    | some c => n :: chain start stop fuel c
    | none => [n]

/-- The smallest node from here on down that spans a range and is accepted, if
the range lies inside this node. -/
def descendant? (start stop : Nat) (named : Bool) : Option Node :=
  if start > stop || start < n.startByte || stop > n.endByte then none
  else (chain start stop n.subtree.count n).reverse.find? fun c => !named || c.isNamed

end Node

end Glr
