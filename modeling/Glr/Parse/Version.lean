import Glr.Parse.OldTree
import Glr.Tree.Subtree

/-!
# Glr.Parse.Version

One hypothesis of a parse: the nodes it has built so far, what it skipped since
the last error, and what that cost.  The nodes stand in a stack, the last one
first; below them all is state zero.
-/

namespace Glr.Parse

/-- A node on the stack, the state after it, and where its text ends. -/
structure Entry where
  state : StateId
  node : Subtree
  stop : Length
  deriving Repr, Inhabited

/-- A hypothesis. -/
structure Version where
  /-- The nodes, the last one first. -/
  stack : List Entry := []
  /-- The token or reused node at `position`, once it is known. -/
  lookahead : Option Subtree := none
  /-- The end of everything taken, skipped tokens too. -/
  position : Length := Length.zero
  errorCost : Nat := 0
  dynamicPrecedence : Int := 0
  external : ScannerState := #[]
  /-- Whether the last thing taken was an extra. -/
  afterExtra : Bool := false
  /-- Tokens skipped since the last error, in order, and their cost. -/
  pending : List Subtree := []
  pendingCost : Nat := 0
  /-- Where nodes were given up for an error the last time. -/
  recoveredAt : Option Nat := none
  /-- Where a missing token was put in the last time. -/
  missingAt : Option Nat := none
  /-- The walk over the previous tree, if there is one. -/
  old : Option OldTree := none
  /-- Reductions since text was taken the last time. -/
  reductions : Nat := 0
  halted : Bool := false
  deriving Inhabited

namespace Version

/-- The state on top of a stack. -/
def stateOf (stack : List Entry) : StateId :=
  match stack with
  | [] => 0
  | e :: _ => e.state

/-- Where the text of a stack ends. -/
def stopOf (stack : List Entry) : Length :=
  match stack with
  | [] => Length.zero
  | e :: _ => e.stop

/-- The state that the hypothesis is in. -/
def state (v : Version) : StateId := stateOf v.stack

/-- Puts a node on the stack; `next` is the state after it. -/
def push (v : Version) (next : StateId) (t : Subtree) : Version :=
  { v with
    stack := ⟨next, t, stopOf v.stack + t.size⟩ :: v.stack
    external := t.info.lastExternal.getD v.external }

/-- Puts nodes on the stack that leave the state as it is. -/
def pushAll (v : Version) (state : StateId) (ts : List Subtree) : Version :=
  ts.foldl (fun v t => v.push state t) v

/-- The nodes on the stack in the order of the text. -/
def nodes (v : Version) : List Subtree := (v.stack.map Entry.node).reverse

theorem nodes_push (v : Version) (next : StateId) (t : Subtree) :
    (v.push next t).nodes = v.nodes ++ [t] := by
  simp [nodes, push]

theorem state_push (v : Version) (next : StateId) (t : Subtree) : (v.push next t).state = next :=
  rfl

theorem nodes_pushAll (v : Version) (state : StateId) (ts : List Subtree) :
    (v.pushAll state ts).nodes = v.nodes ++ ts := by
  induction ts generalizing v with
  | nil => simp [pushAll]
  | cons t ts ih =>
    have := ih (v.push state t)
    simp only [pushAll, List.foldl_cons] at this ⊢
    rw [this, nodes_push, List.append_assoc]
    rfl

/-- What pushing leaves alone. -/
theorem pushAll_eq (v : Version) (state : StateId) (ts : List Subtree) :
    ∃ stack external, v.pushAll state ts = { v with stack, external } := by
  induction ts generalizing v with
  | nil => exact ⟨v.stack, v.external, rfl⟩
  | cons t ts ih =>
    obtain ⟨stack, external, h⟩ := ih (v.push state t)
    exact ⟨stack, external, h⟩

/-- Whether two hypotheses go on in the same way. -/
def canMerge (a b : Version) : Bool :=
  a.position.bytes == b.position.bytes && a.pending.isEmpty && b.pending.isEmpty
    && a.afterExtra == b.afterExtra && a.external == b.external
    && a.stack.map Entry.state == b.stack.map Entry.state

/-- Whether one is the better hypothesis: lower cost, then higher precedence. -/
def isBetter (a b : Version) : Bool :=
  a.errorCost < b.errorCost
    || a.errorCost == b.errorCost && a.dynamicPrecedence > b.dynamicPrecedence

end Version

end Glr.Parse
