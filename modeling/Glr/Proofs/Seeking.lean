import Glr.Proofs.Tree.Chain
import Glr.Tree.Cursor

/-!
# Glr.Proofs.Seeking

Cursors that look for a byte.  Wherever a cursor has been moved, it stands below the node that it
started on, as many steps as it counts,

```
first node   →   child   →   …   →   node
```

To look for a byte it goes back along this way to the nearest node that has the byte in it, and
down again from there.  All nodes that have it in them are in one chain, so it ends at the last of
them, which is where a search from the first node ends.

* `Cursor.From.go` — every move keeps a cursor below its first node;
* `Cursor.From.seek_of_holds`, `Cursor.From.seek_of_not_holds` — where the search ends.
-/

namespace Glr

open Subtree

variable {l : Language} {t : Tree} {n m c p : Node} {k d : Cursor} {b : Nat}

theorem Node.mem_children_of_beside? {i : Nat} {forward named : Bool}
    (h : p.beside? i forward named = some c) : c ∈ p.children := by
  have hin : c ∈ p.storedChildren ∧ c.subtree.info.visible = true := by
    unfold Node.beside? at h
    cases forward with
    | true =>
      simp only [if_true] at h
      have haccept := List.find?_some h
      simp only [Bool.and_eq_true] at haccept
      exact ⟨List.mem_of_mem_drop (List.mem_of_find?_eq_some h), haccept.1⟩
    | false =>
      simp only [if_neg Bool.false_ne_true] at h
      have haccept := List.find?_some h
      simp only [Bool.and_eq_true] at haccept
      exact ⟨List.mem_of_mem_take (List.mem_reverse.mp (List.mem_of_find?_eq_some h)), haccept.1⟩
  exact List.mem_filter.mpr hin

namespace Cursor

/-! ## Moves -/

/-- The moves of a cursor. -/
inductive Move where
  | firstChild
  | lastChild
  | parent
  | sibling (forward : Bool)
  | childForByte (byte : Nat)
  | seek (byte : Nat)

/-- The cursor after a move.  One that leads nowhere leaves it where it is. -/
def go (k : Cursor) : Move → Cursor
  | .firstChild => k.firstChild?.getD k
  | .lastChild => k.lastChild?.getD k
  | .parent => k.parent?.getD k
  | .sibling forward => (k.sibling? forward).getD k
  | .childForByte byte => ((k.childForByte? byte).map Prod.snd).getD k
  | .seek byte => (k.seek byte).2

/-- A cursor that started on `n`: it is below that node, as many steps as it counts. -/
structure From (n : Node) (k : Cursor) : Prop where
  shown : n.Shows k.node
  depth : k.node.path.length = n.path.length + k.depth

theorem From.start (n : Node) : From n (start n) := ⟨.self, rfl⟩

/-- Such a cursor is told by its node. -/
theorem From.eq_of_node_eq (h : From n k) (h' : From n d) (hnode : k.node = d.node) : k = d := by
  obtain ⟨node, depth⟩ := k
  obtain ⟨node', depth'⟩ := d
  obtain rfl : node = node' := hnode
  have hdepth : node.path.length = n.path.length + depth := h.depth
  have hdepth' : node.path.length = n.path.length + depth' := h'.depth
  obtain rfl : depth = depth' := by omega
  rfl

theorem From.eq_start (h : From n k) (hdepth : k.depth = 0) : k = .start n := by
  have hlength := h.depth
  rw [hdepth] at hlength
  exact h.eq_of_node_eq (From.start n) (h.shown.eq_of_length_le (by omega))

theorem From.enter (h : From n k) (hc : c ∈ k.node.children) : From n (k.enter c) := by
  refine ⟨h.shown.child hc, ?_⟩
  have := h.depth
  simp only [Cursor.enter, Node.length_path_of_mem_children hc]
  omega

/-- Below its first node a cursor stands on a child of a node that is below that one, too. -/
theorem From.exists_parent (h : From n k) (hdepth : k.depth ≠ 0) :
    ∃ p : Node, k.node ∈ p.children ∧ ∀ c ∈ p.children, From n ⟨c, k.depth⟩ := by
  obtain ⟨hshown, hlength⟩ := h
  generalize k.node = m at hshown hlength
  cases hshown with
  | self => omega
  | @child p _ hp hm =>
    refine ⟨p, hm, fun c hc => ⟨hp.child hc, ?_⟩⟩
    rw [← hlength, Node.length_path_of_mem_children hc, Node.length_path_of_mem_children hm]

theorem From.parent (h : From n k) (hk : k.parent? = some d) : From n d := by
  obtain ⟨node, _ | depth⟩ := k
  · simp [parent?] at hk
  · obtain ⟨hshown, hlength⟩ := h
    simp only at hshown hlength
    cases hshown with
    | self => omega
    | @child p _ hp hm =>
      rw [parent?, Node.parent?_of_mem_children hm] at hk
      obtain rfl := Option.some.inj hk
      refine ⟨hp, ?_⟩
      rw [Node.length_path_of_mem_children hm] at hlength
      simp only
      omega

theorem From.sibling {forward : Bool} (h : From n k) (hk : k.sibling? forward = some d) :
    From n d := by
  unfold sibling? at hk
  split at hk
  · contradiction
  · rename_i hdepth
    obtain ⟨p, hm, hall⟩ := h.exists_parent hdepth
    rw [Node.sibling?, Node.parent?_of_mem_children hm, Option.bind_some,
      Option.map_eq_some_iff] at hk
    obtain ⟨c, hc, rfl⟩ := hk
    exact hall c (Node.mem_children_of_beside? hc)

theorem From.childForByte {i : Nat} (h : From n k) (hk : k.childForByte? b = some (i, d)) :
    From n d := by
  rw [childForByte?, Option.map_eq_some_iff] at hk
  obtain ⟨⟨c, j⟩, hc, heq⟩ := hk
  obtain ⟨-, rfl⟩ := Prod.mk.inj heq
  exact h.enter (List.fst_mem_of_mem_zipIdx (List.mem_of_find?_eq_some hc))

/-! ## Up and down to a byte -/

/-- On the way up a cursor stays below its first node, and it stops where the byte is or there. -/
theorem From.climb (h : From n k) :
    From n (climb b k.depth k.node) ∧
      ((climb b k.depth k.node).node.Holds b ∨ climb b k.depth k.node = .start n) := by
  obtain ⟨node, depth⟩ := k
  induction depth generalizing node with
  | zero => exact ⟨h, .inr (h.eq_start rfl)⟩
  | succ depth ih =>
    simp only [Cursor.climb]
    split
    · rename_i hb
      exact ⟨h, .inl (Node.contains_iff.mp hb)⟩
    · obtain ⟨p, hp, -⟩ := h.exists_parent (Nat.succ_ne_zero depth)
      simp only [Node.parent?_of_mem_children hp]
      refine ih p (h.parent ?_)
      simp only [Cursor.parent?, Node.parent?_of_mem_children hp]

theorem From.sink {fuel : Nat} (h : From n k) : From n (sink b fuel k) := by
  induction fuel generalizing k with
  | zero => exact h
  | succ fuel ih =>
    unfold Cursor.sink
    split
    · rename_i c hc
      exact ih (h.enter (List.mem_of_find?_eq_some hc))
    · exact h

/-- On the way down a cursor comes to the last node that has the byte in it. -/
theorem deepest_sink {fuel : Nat} (hnarrow : Node.Narrow (Node.Holds b) k.node)
    (hb : k.node.Holds b) (hfuel : k.node.subtree.count ≤ fuel + 1) :
    Node.Deepest (Node.Holds b) k.node (sink b fuel k).node := by
  induction fuel generalizing k with
  | zero =>
    refine .self hnarrow hb fun c hc => ?_
    have := Node.count_lt_of_mem_children hc
    have := c.subtree.count_pos
    omega
  | succ fuel ih =>
    unfold sink
    split
    · rename_i c hc
      have hmem := List.mem_of_find?_eq_some hc
      have hcb := List.find?_some hc
      have hcount : c.subtree.count < k.node.subtree.count := Node.count_lt_of_mem_children hmem
      have hdeepest : Node.Deepest (Node.Holds b) c (sink b fuel (k.enter c)).node :=
        ih (k := k.enter c) (hnarrow.of_shows (.child .self hmem)) (Node.contains_iff.mp hcb)
          (Nat.le_of_lt_succ (hcount.trans_le hfuel))
      exact .of_child hnarrow hmem hdeepest
    · rename_i hnone
      refine .self hnarrow hb fun c hc hcb => ?_
      exact List.find?_eq_none.mp hnone c hc (Node.contains_iff.mpr hcb)

/-! ## The search -/

/-- If the first node has the byte in it, the search ends at the last node that does. -/
theorem From.seek_of_holds (h : From n k) (hn : Everywhere Encloses n.subtree) (hb : n.Holds b) :
    ∃ d, k.seek b = (true, d) ∧ From n d ∧ Node.Deepest (Node.Holds b) n d.node := by
  obtain ⟨hfrom, hstop⟩ := h.climb (b := b)
  have hholds : (Cursor.climb b k.depth k.node).node.Holds b := by
    rcases hstop with hstop | hstop
    · exact hstop
    · rw [hstop]
      exact hb
  have hnarrow := Node.narrow_holds hn b
  refine ⟨_, ?_, hfrom.sink, .of_shows hnarrow hfrom.shown
    (deepest_sink (hnarrow.of_shows hfrom.shown) hholds (Nat.le_succ _))⟩
  rw [seek, if_pos (Node.contains_iff.mpr hholds)]

/-- If not, it ends at the first node. -/
theorem From.seek_of_not_holds (h : From n k) (hn : Everywhere Encloses n.subtree)
    (hb : ¬n.Holds b) : k.seek b = (false, .start n) := by
  obtain ⟨hfrom, hstop⟩ := h.climb (b := b)
  have hnone : ¬(Cursor.climb b k.depth k.node).node.Holds b := fun hholds =>
    hb ((Node.narrow_holds hn b).holds hfrom.shown hholds)
  rw [seek, if_neg (by rwa [Node.contains_iff]), hstop.resolve_left hnone]

theorem From.seek (h : From n k) (hn : Everywhere Encloses n.subtree) :
    From n (k.seek b).2 := by
  by_cases hb : n.Holds b
  · obtain ⟨d, hd, hfrom, -⟩ := h.seek_of_holds hn hb
    rw [hd]
    exact hfrom
  · rw [h.seek_of_not_holds hn hb]
    exact From.start n

/-- Every move keeps a cursor below its first node. -/
theorem From.go (h : From n k) (hn : Everywhere Encloses n.subtree) (move : Move) :
    From n (k.go move) := by
  have hstay {next : Option Cursor} (hnext : ∀ d, next = some d → From n d) :
      From n (next.getD k) := by
    cases next with
    | none => exact h
    | some d => exact hnext d rfl
  cases move with
  | firstChild =>
    refine hstay fun d hd => ?_
    obtain ⟨c, hc, rfl⟩ := Option.map_eq_some_iff.mp hd
    exact h.enter (List.mem_of_mem_head? hc)
  | lastChild =>
    refine hstay fun d hd => ?_
    obtain ⟨c, hc, rfl⟩ := Option.map_eq_some_iff.mp hd
    exact h.enter (List.mem_of_getLast? hc)
  | parent => exact hstay fun d => h.parent
  | sibling forward => exact hstay fun d => h.sibling
  | childForByte byte =>
    refine hstay fun d hd => ?_
    obtain ⟨⟨i, c⟩, hc, rfl⟩ := Option.map_eq_some_iff.mp hd
    exact h.childForByte hc
  | seek byte => exact h.seek hn

/-- So do all of them. -/
theorem From.foldl_go (hn : Everywhere Encloses n.subtree) (moves : List Move) :
    From n (moves.foldl Cursor.go (.start n)) := by
  have hrun (k : Cursor) (h : From n k) : From n (moves.foldl Cursor.go k) := by
    induction moves generalizing k with
    | nil => exact h
    | cons move moves ih => exact ih _ (h.go hn move)
  exact hrun _ (From.start n)

end Cursor

/-- The search for a byte does not depend on where the cursor was.  A cursor that started on a node
and was moved in any way answers, and ends up, as a new one on that node does: it finds the byte
exactly if that node has it in it, and then ends on the last node in the chain of those below that
have it in them; otherwise it ends on the first node. -/
theorem Language.seek_forgets {handle : Nat} {grammar : Grammar} {scanner : Option Scanner}
    (h : Language.ofGrammar handle grammar scanner = .ok l) (ht : l.Obtained t)
    (hl : t.language.sameAs l = true) (hn : t.HasNode n) (moves : List Cursor.Move) (b : Nat) :
    let k := moves.foldl Cursor.go (.start n)
    k.seek b = (Cursor.start n).seek b ∧
      ((k.seek b).1 = true ↔ n.startByte ≤ b ∧ b < n.endByte) ∧
      ((k.seek b).1 = true → Node.Deepest (Node.Holds b) n (k.seek b).2.node ∧
        (k.seek b).2.node.path.length = n.path.length + (k.seek b).2.depth) ∧
      ((k.seek b).1 = false → (k.seek b).2 = .start n) := by
  intro k
  obtain ⟨g, -, hg⟩ := Language.ofGrammar_sound h
  have hencloses : Everywhere Encloses n.subtree := hn.everywhere (ht.encloses hg hl)
  have hk : Cursor.From n k := Cursor.From.foldl_go hencloses moves
  have hstart := Cursor.From.start n
  by_cases hb : n.Holds b
  · obtain ⟨d, hd, hfrom, hdeepest⟩ := hk.seek_of_holds hencloses hb
    obtain ⟨d', hd', hfrom', hdeepest'⟩ := hstart.seek_of_holds hencloses hb
    obtain rfl : d = d' := hfrom.eq_of_node_eq hfrom' (hdeepest.unique hdeepest')
    rw [hd, hd']
    exact ⟨rfl, ⟨fun _ => hb, fun _ => rfl⟩, fun _ => ⟨hdeepest, hfrom.depth⟩, by simp⟩
  · rw [hk.seek_of_not_holds hencloses hb, hstart.seek_of_not_holds hencloses hb]
    exact ⟨rfl, ⟨by simp, fun h => absurd h hb⟩, by simp, fun _ => rfl⟩

set_option maxRecDepth 100000 in
/-- From the last child of the root, which does not have the second byte in it, to that byte. -/
theorem Language.seek_forgets_hollow : ∃ (l : Language) (t : Tree) (k : Cursor),
    Language.ofGrammar 0 .hollow none = .ok l ∧ l.Obtained t ∧
    k = [.childForByte 0, .sibling true, .lastChild, .parent, .parent, .lastChild].foldl Cursor.go
      (.start t.rootNode) ∧
    k.depth = 1 ∧ k.node.contains 1 = false ∧
    k.seek 1 = (Cursor.start t.rootNode).seek 1 ∧ (k.seek 1).1 = true ∧
    Node.Deepest (Node.Holds 1) t.rootNode (k.seek 1).2.node := by
  let moves : List Cursor.Move :=
    [.childForByte 0, .sibling true, .lastChild, .parent, .parent, .lastChild]
  have h : (Language.ofGrammar 0 .hollow none).toOption.any (fun l =>
      let t := (l.parse {} (Bytes.ofString "amed") none).1
      let k := moves.foldl Cursor.go (.start t.rootNode)
      t.language.sameAs l && k.depth == 1 && !k.node.contains 1 && t.rootNode.contains 1)
      = true := by
    decide +kernel
  obtain ⟨l, hl, h⟩ := exists_ok h
  have ht : l.Obtained (l.parse {} (Bytes.ofString "amed") none).1 := .parsed (by simp)
  generalize (l.parse {} (Bytes.ofString "amed") none).1 = t at h ht
  simp only [Bool.and_eq_true, Bool.not_eq_true', beq_iff_eq] at h
  obtain ⟨⟨⟨hsame, hdepth⟩, haway⟩, hroot⟩ := h
  obtain ⟨hseek, hfound, hdeepest, -⟩ := Language.seek_forgets hl ht hsame .root moves 1
  have htrue := hfound.mpr (Node.contains_iff.mp hroot)
  exact ⟨l, t, _, hl, ht, rfl, hdepth, haway, hseek, htrue, (hdeepest htrue).1⟩

end Glr
