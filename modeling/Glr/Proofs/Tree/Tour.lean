import Glr.Proofs.Errors
import Glr.Proofs.Inverse
import Glr.Proofs.Query.Complete
import Glr.Tree.Display
import Mathlib.Algebra.BigOperators.Ring.List
import Mathlib.Algebra.Order.BigOperators.Group.List
import Mathlib.Algebra.Order.Ring.Nat

/-!
# Glr.Proofs.Tree.Tour

The way around a tree.  A cursor that goes into the first child, on to the next sibling, and back
from the last one makes a round of every node,

```
round n  =  come to n,  round c₁,  …,  round cₖ,  leave n
```

so it comes to each visible node once, before those under it, and ends where it began.

* `Node.tour_eq_round` — the way of the cursor is that round;
* `Node.map_node_walk`, `Node.nodup_preorder` — the nodes that it comes to.
-/

namespace Glr

open Subtree

variable {n m c : Node} {k : Cursor}

/-! ## Rounds -/

namespace Cursor

/-- The stops at a node and all that is visible under it. -/
def round (k : Cursor) : List Visit :=
  ⟨k, false⟩ :: (k.node.children.attach.flatMap fun c => (k.enter c.val).round) ++ [⟨k, true⟩]
termination_by k.node.subtree.count
decreasing_by exact Node.count_lt_of_mem_children c.property

theorem round_eq (k : Cursor) : k.round =
    ⟨k, false⟩ :: (k.node.children.flatMap fun c => (k.enter c).round) ++ [⟨k, true⟩] := by
  rw [round, List.flatMap_subtype (g := fun c => (k.enter c).round) fun _ _ => rfl,
    List.unattach_attach]

/-- What holds of a cursor if it holds one step down holds of every cursor. -/
theorem round_induction {P : Cursor → Prop}
    (h : ∀ k : Cursor, (∀ c ∈ k.node.children, P (k.enter c)) → P k) (k : Cursor) : P k := by
  generalize hcount : k.node.subtree.count = count
  induction count using Nat.strong_induction_on generalizing k with
  | _ count ih =>
    refine h k fun c hc => ih _ ?_ (k.enter c) rfl
    rw [← hcount]
    exact Node.count_lt_of_mem_children hc

end Cursor

namespace Visit

/-- The stop at which the cursor is when some children of a node are still ahead: the first of
them, or the node itself, which is then left. -/
def ahead (k : Cursor) : List Node → Visit
  | [] => ⟨k, true⟩
  | c :: _ => ⟨k.enter c, false⟩

/-- The stops behind one. -/
def behind (fuel : Nat) (v : Visit) : List Visit :=
  match v.next? with
  | some w => onward fuel w
  | none => []

theorem onward_succ (fuel : Nat) (v : Visit) : onward (fuel + 1) v = v :: v.behind fuel := rfl

theorem next?_come (k : Cursor) : (⟨k, false⟩ : Visit).next? = some (ahead k k.node.children) := by
  rw [next?, if_neg Bool.false_ne_true, Cursor.firstChild?]
  cases k.node.children <;> rfl

theorem next?_leave {before after : List Node} (h : k.node.children = before ++ c :: after) :
    (⟨k.enter c, true⟩ : Visit).next? = some (ahead k after) := by
  have hc : k.node.child? before.length = some c := by simp [Node.child?, h]
  have hnext : k.node.child? (before.length + 1) = after.head? := by
    rw [Node.child?, h, List.getElem?_append_right (Nat.le_succ _), Nat.succ_eq_add_one,
      Nat.add_sub_cancel_left, List.getElem?_cons_succ, List.head?_eq_getElem?]
  rw [next?, if_pos rfl, Cursor.sibling?_enter hc, hnext,
    Cursor.parent?_enter (List.mem_of_getElem? hc)]
  cases after <;> rfl

/-- If the cursor makes the round of each child, it makes the rounds of those ahead, and comes back
to the node. -/
theorem onward_children (before after : List Node) (fuel : Nat)
    (hround : ∀ c ∈ k.node.children, ∀ fuel,
      onward ((k.enter c).round.length + fuel) ⟨k.enter c, false⟩ =
        (k.enter c).round ++ behind fuel ⟨k.enter c, true⟩)
    (h : k.node.children = before ++ after) :
    onward ((after.flatMap fun c => (k.enter c).round).length + fuel) (ahead k after) =
      (after.flatMap fun c => (k.enter c).round) ++ onward fuel ⟨k, true⟩ := by
  induction after generalizing before with
  | nil => simp [ahead]
  | cons c after ih =>
    have hc : c ∈ k.node.children := by simp [h]
    have hrest := ih (before ++ [c]) (by simp [h])
    rw [List.flatMap_cons, List.length_append, Nat.add_assoc, ahead, hround c hc, behind,
      next?_leave h]
    simp only
    rw [hrest, List.append_assoc]

/-- The cursor makes the round of a node and goes on from there. -/
theorem onward_round (k : Cursor) (fuel : Nat) :
    onward (k.round.length + fuel) ⟨k, false⟩ = k.round ++ behind fuel ⟨k, true⟩ := by
  induction k using Cursor.round_induction generalizing fuel with
  | h k ih =>
    have hchildren := onward_children [] k.node.children (fuel + 1) ih rfl
    rw [Cursor.round_eq]
    generalize (k.node.children.flatMap fun c => (k.enter c).round) = rounds at hchildren
    have hlength : (⟨k, false⟩ :: rounds ++ [⟨k, true⟩] : List Visit).length + fuel =
        rounds.length + (fuel + 1) + 1 := by
      rw [List.length_append, List.length_cons, List.length_singleton]
      omega
    rw [hlength, onward_succ, behind, next?_come]
    simp only
    rw [hchildren, onward_succ]
    simp

end Visit

/-! ## The way of the cursor -/

theorem Subtree.countAll_eq_sum (cs : List (Child Subtree)) :
    countAll cs = (cs.map fun c => c.node.count).sum := by
  induction cs with
  | nil => rfl
  | cons c cs ih => rw [countAll, ih, List.map_cons, List.sum_cons]

/-- The nodes in the children are among those in the node, which is one more. -/
theorem Node.sum_count_children_lt (n : Node) :
    (n.children.map fun c => c.subtree.count).sum < n.subtree.count := by
  have hstored : (n.storedChildren.map fun c => c.subtree.count) =
      n.subtree.children.map fun c => c.node.count := by
    have := congrArg (List.map Subtree.count) (n.map_subtree_place 0 n.start n.subtree.children)
    simpa [storedChildren, List.map_map, Function.comp_def] using this
  have hle : (n.children.map fun c => c.subtree.count).sum ≤ countAll n.subtree.children := by
    rw [countAll_eq_sum, ← hstored]
    exact (List.filter_sublist.map _).sum_le_sum fun _ _ => Nat.zero_le _
  refine hle.trans_lt ?_
  generalize n.subtree = t
  obtain ⟨info, cs⟩ := t
  rw [Subtree.count, Nat.add_comm]
  exact Nat.lt_succ_self _

/-- A round has two stops for each visible node. -/
theorem Cursor.length_round_le (k : Cursor) : k.round.length ≤ 2 * k.node.subtree.count := by
  induction k using Cursor.round_induction with
  | h k ih =>
    have hsum := k.node.sum_count_children_lt
    have hle : (k.node.children.map fun c => (k.enter c).round.length).sum ≤
        (k.node.children.map fun c => 2 * c.subtree.count).sum :=
      List.sum_le_sum ih
    rw [List.sum_map_mul_left] at hle
    rw [round_eq, List.length_append, List.length_cons, List.length_flatMap]
    simp only [List.length_singleton]
    omega

/-- A cursor that starts on a node makes the round of it, and there the way ends. -/
theorem Node.tour_eq_round (n : Node) : n.tour = (Cursor.start n).round := by
  have hle : (Cursor.start n).round.length ≤ 2 * n.subtree.count := Cursor.length_round_le _
  have hend : (⟨.start n, true⟩ : Visit).next? = none := rfl
  rw [tour, ← Nat.add_sub_cancel' hle, Visit.onward_round, Visit.behind, hend]
  exact List.append_nil _

/-- The nodes that it comes to, in order. -/
theorem Node.map_node_walk (n : Node) : n.walk.map Cursor.node = n.preorder := by
  have hround (k : Cursor) : (k.round.filterMap fun v =>
      if v.leaving then none else some v.cursor).map Cursor.node = k.node.preorder := by
    induction k using Cursor.round_induction with
    | h k ih =>
      rw [Cursor.round_eq, Node.preorder_eq]
      have hchildren : (k.node.children.flatMap fun c => ((k.enter c).round.filterMap fun v =>
          if v.leaving then none else some v.cursor).map Cursor.node) =
            k.node.children.flatMap Node.preorder := List.flatMap_congr ih
      simp [List.filterMap_flatMap, List.map_flatMap, hchildren]
  rw [walk, tour_eq_round]
  exact hround (.start n)

theorem Node.mem_preorder_iff : m ∈ n.preorder ↔ n.Shows m := by
  constructor
  · exact Node.shows_of_mem_preorder
  · intro h
    rw [← Query.visited_eq_preorder (Nat.le_refl _)]
    exact Query.mem_visited h (Nat.le_refl _)

theorem flatMap_filter_sublist {α β : Type} {q : α → Bool} {f g : α → List β} {as : List α}
    (h : ∀ a ∈ as, (f a).Sublist (g a)) : ((as.filter q).flatMap f).Sublist (as.flatMap g) := by
  induction as with
  | nil => exact List.Sublist.refl _
  | cons a as ih =>
    obtain ⟨ha, has⟩ := List.forall_mem_cons.mp h
    rw [List.filter_cons, List.flatMap_cons]
    split
    · exact ha.append (ih has)
    · exact (ih has).trans (List.sublist_append_right _ _)

/-- The visible nodes are among the stored ones, in the same order. -/
theorem Node.preorder_sublist_stored (n : Node) : n.preorder.Sublist n.stored := by
  induction n using Node.stored_induction with
  | h n ih =>
    rw [Node.preorder_eq, Node.stored_eq]
    exact (flatMap_filter_sublist ih).cons_cons n

/-- No visible node is come to twice. -/
theorem Node.nodup_preorder (n : Node) : n.preorder.Nodup := by
  refine (n.pairwise_stored.sublist n.preorder_sublist_stored).imp fun h => ?_
  rintro rfl
  exact List.lt_irrefl _ h

end Glr
