import Glr.Tree.Subtree

/-!
# Glr.Parse.OldTree

A walk over the previous tree in the order of its text.  The walk stands at a
subtree; it either goes into it or passes it, and remembers what the scanner
knew after the last of its tokens that was passed.
-/

namespace Glr.Parse

/-- A subtree of the previous tree, where it starts, and those of its children
that were not visited yet with the offset of the first of them. -/
structure OldNode where
  node : Subtree
  start : Nat
  rest : List (Child Subtree)
  restStart : Nat
  deriving Repr, Inhabited

namespace OldNode

/-- A subtree that the walk comes to. -/
def enter (t : Subtree) (start : Nat) : OldNode := ⟨t, start, t.children, start⟩

/-- The next child to visit, and the node without it. -/
def next? (n : OldNode) : Option (OldNode × OldNode) :=
  match n.rest with
  | [] => none
  | c :: cs =>
    some (enter c.node n.restStart,
      { n with rest := cs, restStart := n.restStart + c.node.size.bytes })

end OldNode

/-- A walk: the subtree it stands at, its ancestors, and what the scanner knew. -/
structure OldTree where
  /-- The subtree and then its ancestors; nothing at the end of the walk. -/
  path : List OldNode
  external : ScannerState
  deriving Repr, Inhabited

namespace OldTree

/-- The walk over a tree. -/
def ofRoot (root : Subtree) : OldTree := ⟨[.enter root 0], #[]⟩

/-- The subtree that the walk stands at. -/
def current? (w : OldTree) : Option OldNode := w.path.head?

/-- The next subtree among those that the nodes of a path have left. -/
def resume : List OldNode → List OldNode
  | [] => []
  | parent :: above =>
    match parent.next? with
    | some (child, parent) => child :: parent :: above
    | none => resume above

/-- Passes the subtree. -/
def pass (w : OldTree) : OldTree :=
  match w.path with
  | [] => w
  | done :: above => ⟨resume above, done.node.info.lastExternal.getD w.external⟩

/-- Goes to the first child of the subtree, if it has one. -/
def descend? (w : OldTree) : Option OldTree :=
  match w.path with
  | [] => none
  | n :: above =>
    match n.next? with
    | some (child, n) => some { w with path := child :: n :: above }
    | none => none

/-! ## The walk ends -/

/-- A bound on the moves that are left. -/
def movesLeft : List OldNode → Nat
  | [] => 0
  | n :: above => 1 + 2 * Subtree.countAll n.rest + movesLeft above

/-- Going into a child and around it costs one move less than was left. -/
theorem movesLeft_next {n child parent : OldNode} (h : n.next? = some (child, parent))
    (above : List OldNode) :
    movesLeft (child :: parent :: above) < movesLeft (n :: above) := by
  unfold OldNode.next? at h
  split at h
  · simp at h
  · rename_i c cs hrest
    obtain ⟨field, node⟩ := c
    obtain ⟨info, children⟩ := node
    simp only [Option.some.injEq, Prod.mk.injEq] at h
    obtain ⟨rfl, rfl⟩ := h
    simp only [movesLeft, hrest, OldNode.enter, Subtree.children, Subtree.countAll, Subtree.count]
    omega

theorem movesLeft_resume_le (path : List OldNode) : movesLeft (resume path) ≤ movesLeft path := by
  induction path with
  | nil => simp [resume]
  | cons n above ih =>
    unfold resume
    split
    · rename_i child parent h
      exact Nat.le_of_lt (movesLeft_next h above)
    · simp only [movesLeft]
      omega

theorem movesLeft_pass {w : OldTree} {n : OldNode} {above : List OldNode}
    (h : w.path = n :: above) : movesLeft w.pass.path < movesLeft w.path := by
  unfold pass
  simp only [h, movesLeft]
  have := movesLeft_resume_le above
  omega

theorem movesLeft_descend {w v : OldTree} (h : w.descend? = some v) :
    movesLeft v.path < movesLeft w.path := by
  unfold descend? at h
  split at h
  · simp at h
  · rename_i n above hw
    split at h
    · rename_i child parent hn
      simp only [Option.some.injEq] at h
      subst h
      rw [hw]
      exact movesLeft_next hn above
    · simp at h

end OldTree

/-- What is known where a subtree is to be reused. -/
structure ReuseSite where
  position : Nat
  state : StateId
  afterExtra : Bool
  external : ScannerState
  deriving Repr, Inhabited

namespace OldNode

/-- Whether a node can stand for its text unparsed: nothing in it changed, it
was built without doubt, and the scanner and the parser stand as they did. -/
def fits (l : Language) (site : ReuseSite) (external : ScannerState) (n : OldNode) : Bool :=
  let i := n.node.info
  let sound := !i.changed && !n.node.hasError && !i.fragile && !i.missing
  sound && external == site.external &&
    (if n.node.isLeaf then
      i.lexState != errorLexState && i.lexState == l.lexState site.state
        && i.afterExtra == site.afterExtra
        && (l.hasActions site.state i.symbol || l.isExtra i.symbol)
    else i.parseState == site.state && (l.goto? site.state i.symbol).isSome)

end OldNode

/-- The largest subtree at a place that can be reused, and the walk after it.
The walk passes what lies before the place; a token that does not fit ends the
search. -/
def OldTree.reuse? (l : Language) (site : ReuseSite) (w : OldTree) : Option Subtree × OldTree :=
  match _hw : w.path with
  | [] => (none, w)
  | n :: _ =>
    let bytes := n.node.size.bytes
    if n.start > site.position then (none, w)
    else if n.start < site.position || bytes == 0 then
      if n.start + bytes ≤ site.position || bytes == 0 then w.pass.reuse? l site
      else
        match _hd : w.descend? with
        | some v => v.reuse? l site
        | none => w.pass.reuse? l site
    else if n.fits l site w.external then (some n.node, w.pass)
    else
      match _hd : w.descend? with
      | some v => v.reuse? l site
      | none => (none, w)
termination_by OldTree.movesLeft w.path
decreasing_by
  all_goals first
    | exact OldTree.movesLeft_pass _hw
    | exact OldTree.movesLeft_descend _hd

end Glr.Parse
