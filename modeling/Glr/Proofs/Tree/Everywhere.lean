import Glr.Proofs.Tree.Layout
import Mathlib.Algebra.BigOperators.Group.List.Basic
import Mathlib.Algebra.Group.Int.Defs
import Mathlib.Algebra.Group.Nat.Defs

/-!
# Glr.Proofs.Tree.Everywhere

What holds of every node of a tree, and where its nodes stand.  A rule speaks of what is
stored of a node and of its children:

```
Everywhere P (node i cs)  =  P i cs  ∧  Everywhere P of every child
```

The nodes of a tree are counted off by the places among the stored children, and a child
starts where the children before it end.
-/

namespace Glr

namespace Subtree

/-- What may be said of a node: of what is stored of it, and of its children. -/
abbrev LocalRule := NodeInfo → List (Child Subtree) → Prop

mutual
/-- It holds of the node and of all nodes below it. -/
def Everywhere (P : LocalRule) : Subtree → Prop
  | .mk info cs => P info cs ∧ EverywhereAll P cs
/-- It holds of all nodes from some children on down. -/
def EverywhereAll (P : LocalRule) : List (Child Subtree) → Prop
  | [] => True
  | ⟨_, t⟩ :: rest => Everywhere P t ∧ EverywhereAll P rest
end

variable {P Q : LocalRule} {l : Language} {t : Subtree}

theorem everywhereAll_iff {cs : List (Child Subtree)} :
    EverywhereAll P cs ↔ ∀ c ∈ cs, Everywhere P c.node := by
  induction cs with
  | nil => simp [EverywhereAll]
  | cons c cs ih => simp [EverywhereAll, ih]

theorem everywhere_mk {info : NodeInfo} {cs : List (Child Subtree)} :
    Everywhere P (.mk info cs) ↔ P info cs ∧ ∀ c ∈ cs, Everywhere P c.node := by
  rw [Everywhere, everywhereAll_iff]

theorem Everywhere.here (h : Everywhere P t) : P t.info t.children := by
  obtain ⟨info, cs⟩ := t
  exact (everywhere_mk.mp h).1

theorem Everywhere.child (h : Everywhere P t) {c : Child Subtree} (hc : c ∈ t.children) :
    Everywhere P c.node := by
  obtain ⟨info, cs⟩ := t
  exact (everywhere_mk.mp h).2 c hc

/-- Changing what is stored of the node itself matters for the node only. -/
theorem Everywhere.withInfo (h : Everywhere P t) {f : NodeInfo → NodeInfo}
    (hf : P t.info t.children → P (f t.info) t.children) : Everywhere P (t.withInfo f) := by
  obtain ⟨info, cs⟩ := t
  rw [everywhere_mk] at h
  exact everywhere_mk.mpr ⟨hf h.1, h.2⟩

mutual
/-- What follows at a node from what holds there and follows at its children follows
everywhere. -/
theorem Everywhere.imp (hPQ : ∀ i cs, P i cs →
    (∀ c ∈ cs, Everywhere P c.node ∧ Everywhere Q c.node) → Q i cs) : ∀ {t : Subtree}, Everywhere P t → Everywhere Q t
  | .mk info cs, h => by
    rw [Everywhere] at h ⊢
    have hcs := EverywhereAll.imp hPQ h.2
    refine ⟨hPQ info cs h.1 fun c hc => ⟨everywhereAll_iff.mp h.2 c hc, ?_⟩, hcs⟩
    exact everywhereAll_iff.mp hcs c hc

theorem EverywhereAll.imp (hPQ : ∀ i cs, P i cs →
    (∀ c ∈ cs, Everywhere P c.node ∧ Everywhere Q c.node) → Q i cs) :
    ∀ {cs : List (Child Subtree)}, EverywhereAll P cs → EverywhereAll Q cs
  | [], _ => trivial
  | ⟨_, _⟩ :: _, h => ⟨h.1.imp hPQ, h.2.imp hPQ⟩
end

mutual
/-- What holds of a hidden node and, with it, of its children holds of what stands in its
place. -/
theorem forall_splice {R : Subtree → Prop}
    (hR : ∀ i cs, isHidden l (.mk i cs) = true → R (.mk i cs) → ∀ c ∈ cs, R c.node)
    (field : Option FieldId) : ∀ t : Subtree, R t → ∀ c ∈ splice l field [] t, R c.node
  | .mk info cs, h => by
    unfold splice
    split
    · rename_i hidden
      exact forall_spliceAll hR field cs (hR info cs hidden h)
    · intro c hc
      rwa [List.mem_singleton.mp hc]

theorem forall_spliceAll {R : Subtree → Prop}
    (hR : ∀ i cs, isHidden l (.mk i cs) = true → R (.mk i cs) → ∀ c ∈ cs, R c.node)
    (outer : Option FieldId) :
    ∀ cs : List (Child Subtree), (∀ c ∈ cs, R c.node) → ∀ c ∈ spliceAll l outer [] cs, R c.node
  | [], _ => by simp [spliceAll]
  | ⟨field, t⟩ :: rest, h => by
    intro c hc
    rw [spliceAll, splice_eq_append] at hc
    rcases List.mem_append.mp hc with hc | hc
    · exact forall_splice hR _ t (h ⟨field, t⟩ (by simp)) c hc
    · exact forall_spliceAll hR outer rest (fun c hc => h c (by simp [hc])) c hc
end

/-- What becomes the children of a node is made of the children that it is built from. -/
theorem forall_children_node {R : Subtree → Prop}
    (hR : ∀ i cs, isHidden l (.mk i cs) = true → R (.mk i cs) → ∀ c ∈ cs, R c.node) {spec : Spec}
    {cs : List (Child Subtree)} (h : ∀ c ∈ cs, R c.node) :
    ∀ c ∈ (node l spec cs).children, R c.node := by
  show ∀ c ∈ if l.isVisible spec.symbol then spliceAll l none [] cs else cs, R c.node
  split
  · exact forall_spliceAll hR none cs h
  · exact h

mutual
/-- Where a hidden node measures what its children do together, so does what stands in its
place. -/
theorem sum_splice {α : Type} [AddMonoid α] {f : Subtree → α} (hf : ∀ i cs, P i cs →
      isHidden l (.mk i cs) = true → f (.mk i cs) = (cs.map fun c => f c.node).sum)
    (field : Option FieldId) : ∀ {t : Subtree}, Everywhere P t →
      ((splice l field [] t).map fun c => f c.node).sum = f t
  | .mk i cs, h => by
    rw [splice]
    split
    · rename_i hidden
      rw [sum_spliceAll hf field (everywhere_mk.mp h).2, hf i cs h.here hidden]
    · exact List.sum_singleton

theorem sum_spliceAll {α : Type} [AddMonoid α] {f : Subtree → α} (hf : ∀ i cs, P i cs →
      isHidden l (.mk i cs) = true → f (.mk i cs) = (cs.map fun c => f c.node).sum)
    (outer : Option FieldId) : ∀ {cs : List (Child Subtree)}, (∀ c ∈ cs, Everywhere P c.node) →
      ((spliceAll l outer [] cs).map fun c => f c.node).sum = (cs.map fun c => f c.node).sum
  | [], _ => rfl
  | ⟨_, t⟩ :: rest, h => by
    obtain ⟨ht, hrest⟩ := List.forall_mem_cons.mp h
    rw [spliceAll, splice_eq_append, List.map_append, List.sum_append, sum_splice hf _ ht,
      sum_spliceAll hf outer hrest, List.map_cons, List.sum_cons]
end

/-- What a node is built from measures what becomes its children. -/
theorem sum_children_node {α : Type} [AddMonoid α] {f : Subtree → α} (hf : ∀ i cs, P i cs →
      isHidden l (.mk i cs) = true → f (.mk i cs) = (cs.map fun c => f c.node).sum) {spec : Spec}
    {cs : List (Child Subtree)} (h : ∀ c ∈ cs, Everywhere P c.node) :
    ((node l spec cs).children.map fun c => f c.node).sum = (cs.map fun c => f c.node).sum := by
  show ((if l.isVisible spec.symbol then spliceAll l none [] cs else cs).map _).sum = _
  split
  · exact sum_spliceAll hf none h
  · rfl

end Subtree

open Subtree

/-! ## Places -/

/-- The nodes of some stored children, counted off. -/
theorem Node.getElem?_place (n : Node) (i : Nat) (start : Length) (cs : List (Child Subtree))
    (k : Nat) :
    (n.place i start cs)[k]? = cs[k]?.map fun c =>
      ⟨n.tree, c.node, start + span ((cs.take k).map Child.node),
        ⟨n.subtree, n.start, i + k, c.field⟩ :: n.path⟩ := by
  induction cs generalizing i start k with
  | nil => simp [Node.place]
  | cons c cs ih =>
    rw [Node.place]
    cases k with
    | zero => simp
    | succ k =>
      rw [List.getElem?_cons_succ, ih, List.getElem?_cons_succ]
      simp only [List.take_succ_cons, List.map_cons, span_cons, Length.add_assoc, Nat.add_assoc,
        Nat.add_comm 1 k]

/-- A stored child starts where the children before it end. -/
theorem Node.getElem?_storedChildren (n : Node) (k : Nat) :
    n.storedChildren[k]? = n.subtree.children[k]?.map fun c =>
      ⟨n.tree, c.node, n.start + span ((n.subtree.children.take k).map Child.node),
        ⟨n.subtree, n.start, k, c.field⟩ :: n.path⟩ := by
  rw [Node.storedChildren, Node.getElem?_place, Nat.zero_add]

theorem Node.exists_of_mem_storedChildren {n c : Node} (h : c ∈ n.storedChildren) :
    ∃ k child, n.subtree.children[k]? = some child ∧ c.subtree = child.node ∧
      c.start = n.start + span ((n.subtree.children.take k).map Child.node) ∧
      c.path = ⟨n.subtree, n.start, k, child.field⟩ :: n.path := by
  obtain ⟨k, hk⟩ := List.mem_iff_getElem?.mp h
  rw [Node.getElem?_storedChildren] at hk
  obtain ⟨child, hchild, rfl⟩ := Option.map_eq_some_iff.mp hk
  exact ⟨k, child, hchild, rfl, rfl, rfl⟩

theorem Subtree.count_pos (t : Subtree) : 0 < t.count := by
  cases t
  rw [count]
  omega

theorem Subtree.count_le_countAll {c : Child Subtree} {cs : List (Child Subtree)} (h : c ∈ cs) :
    c.node.count ≤ countAll cs := by
  induction cs with
  | nil => contradiction
  | cons d cs ih =>
    obtain ⟨field, t⟩ := d
    rw [countAll]
    rcases List.mem_cons.mp h with rfl | h
    · exact Nat.le_add_right _ _
    · exact Nat.le_trans (ih h) (Nat.le_add_left _ _)

theorem Node.count_lt_of_mem_storedChildren {n c : Node} (h : c ∈ n.storedChildren) :
    c.subtree.count < n.subtree.count := by
  obtain ⟨k, child, hchild, hc, -⟩ := Node.exists_of_mem_storedChildren h
  have hle := count_le_countAll (List.mem_of_getElem? hchild)
  rw [hc]
  generalize n.subtree = t at hle
  obtain ⟨i, cs⟩ := t
  rw [Subtree.count, Nat.add_comm]
  exact Nat.lt_succ_of_le hle

/-- Every stored child has its place, below the node. -/
theorem Node.exists_mem_storedChildren {n : Node} {c : Child Subtree}
    (hc : c ∈ n.subtree.children) : ∃ m ∈ n.storedChildren, m.subtree = c.node ∧ m.path ≠ [] := by
  obtain ⟨k, hk⟩ := List.mem_iff_getElem?.mp hc
  have hchild := Node.getElem?_storedChildren n k
  rw [hk] at hchild
  exact ⟨_, List.mem_of_getElem? hchild, rfl, List.cons_ne_nil _ _⟩

/-- What holds everywhere in a tree holds from every node of it on down. -/
theorem Tree.HasNode.everywhere {P : LocalRule} {t : Tree} (h : Everywhere P t.root) {n : Node}
    (hn : t.HasNode n) : Everywhere P n.subtree := by
  induction hn with
  | root => exact h
  | child _ hc ih =>
    obtain ⟨k, child, hchild, hc, -, -⟩ := Node.exists_of_mem_storedChildren hc
    rw [hc]
    exact ih.child (List.mem_of_getElem? hchild)

end Glr
