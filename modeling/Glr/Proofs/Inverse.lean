import Glr.Proofs.Navigation
import Glr.Proofs.Tree.Chain
import Glr.Tree.Cursor

/-!
# Glr.Proofs.Inverse

Up and to the sides is down again.  A node keeps no way up, and what it counts was counted when
it was built; still, of the child with number `i` of a node

```
parent = node      next = child (i + 1)      previous = child (i - 1)
```

as the search from the root comes to the node that the child was reached from, and no edit
changes what is visible.
-/

namespace Glr

open Subtree

variable {g : FlatGrammar} {l : Language} {t : Tree} {n c : Node} {i : Nat}

/-! ## Counts -/

theorem Subtree.counted_shape_iff {i : NodeInfo} {cs : List (Child Subtree)} :
    Counted i.shape (shapeAll cs) ↔ Counted i cs := by
  have hinfo (c : Child Subtree) : c.node.shape.info = c.node.info.shape := info_shape _
  constructor
  · rintro ⟨hvisible, hnamed⟩
    rw [shapeAll_eq_map, List.countP_map] at hvisible hnamed
    simp only [Function.comp_def, hinfo] at hvisible hnamed
    exact ⟨hvisible, hnamed⟩
  · rintro ⟨hvisible, hnamed⟩
    constructor <;> rw [shapeAll_eq_map, List.countP_map] <;>
      simp only [Function.comp_def, hinfo] <;> assumption

/-- The nodes of a tree count their children, however it came about. -/
theorem Language.Obtained.counted (hg : l.Sound g) (h : l.Obtained t)
    (hl : t.language.sameAs l = true) : Everywhere Counted t.root :=
  h.everywhere (fun _ _ => counted_shape_iff)
    (fun limits text _ hold _ =>
      (Language.fresh_parse hg limits text hold).imp fun _ _ hfresh _ => hfresh.counted) hl

/-- The children before and after a child are the visible ones stored before and after it. -/
theorem Node.exists_split_of_child? (h : n.child? i = some c) :
    ∃ before after, n.storedChildren = before ++ c :: after ∧ c.index = before.length ∧
      before.filter (fun d => d.subtree.info.visible) = n.children.take i ∧
      after.filter (fun d => d.subtree.info.visible) = n.children.drop (i + 1) := by
  obtain ⟨hi, hc⟩ := List.getElem?_eq_some_iff.mp h
  have hsplit : n.storedChildren.filter (fun d => d.subtree.info.visible) =
      n.children.take i ++ c :: n.children.drop (i + 1) := by
    rw [← hc, List.cons_getElem_drop_succ, List.take_append_drop]
    rfl
  obtain ⟨l₁, l₂, hstored, hbefore, hrest⟩ := List.filter_eq_append_iff.mp hsplit
  obtain ⟨hidden, after, rfl, hhidden, -, hafter⟩ := List.filter_eq_cons_iff.mp hrest
  have hstored : n.storedChildren = (l₁ ++ hidden) ++ c :: after := by
    rw [hstored, List.append_assoc]
  refine ⟨l₁ ++ hidden, after, hstored, ?_, ?_, hafter⟩
  · have hplace : n.storedChildren[(l₁ ++ hidden).length]? = some c := by
      rw [hstored, List.getElem?_append_right (Nat.le_refl _), Nat.sub_self]
      rfl
    rw [Node.getElem?_storedChildren] at hplace
    obtain ⟨child, -, rfl⟩ := Option.map_eq_some_iff.mp hplace
    rfl
  · rw [List.filter_append, hbefore, List.filter_eq_nil_iff.mpr hhidden, List.append_nil]

/-- The nearest one beside a child is the first one that is accepted among the children after
it, or the last one among those before it. -/
theorem Node.beside?_eq (h : n.child? i = some c) (forward named : Bool) :
    n.beside? c.index forward named =
      (if forward then n.children.drop (i + 1) else (n.children.take i).reverse).find?
        fun d => !named || d.isNamed := by
  obtain ⟨before, after, hstored, hindex, hbefore, hafter⟩ := Node.exists_split_of_child? h
  rw [Node.beside?, hstored, hindex, ← hbefore, ← hafter, ← List.filter_reverse]
  cases forward with
  | false =>
    simp only [if_neg Bool.false_ne_true, List.take_left, List.find?_filter, Bool.decide_and,
      Bool.decide_eq_true]
  | true =>
    rw [List.drop_append, List.drop_of_length_le (Nat.le_succ _), Nat.add_sub_cancel_left]
    simp only [if_true, List.nil_append, List.drop_succ_cons, List.drop_zero, List.find?_filter,
      Bool.decide_and, Bool.decide_eq_true]

theorem Node.beside?_next (h : n.child? i = some c) :
    n.beside? c.index true false = n.child? (i + 1) := by
  rw [Node.beside?_eq h, if_pos rfl, Node.child?, ← List.head?_drop]
  cases n.children.drop (i + 1) <;> rfl

/-- From a child a cursor goes on to the next one. -/
theorem Cursor.sibling?_enter {k : Cursor} (h : k.node.child? i = some c) :
    (k.enter c).sibling? true = (k.node.child? (i + 1)).map k.enter := by
  have hparent : c.parent? = some k.node := Node.parent?_of_mem_children (List.mem_of_getElem? h)
  rw [sibling?, enter, if_neg (Nat.succ_ne_zero _), Node.sibling?, hparent, Option.bind_some,
    Node.beside?_next h]
  rfl

theorem Tree.Reaches.hasNode (h : t.Reaches n) : t.HasNode n := by
  induction h with
  | root => exact .root
  | child _ hc ih => exact ih.child (List.mem_filter.mp (List.mem_of_getElem? hc)).1

end Glr
