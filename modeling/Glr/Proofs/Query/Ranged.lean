import Glr.Proofs.Query.Exact
import Glr.Proofs.Tree.Chain
import Glr.Proofs.Tree.Tour
import Mathlib.Data.List.Flatten
import Mathlib.Data.List.Nodup
import Mathlib.Data.List.Pairwise

/-!
# Glr.Proofs.Query.Ranged

What a query reports at a node and in a range of bytes.  Nothing is looked for under a node that
does not meet the range, so

```
visited nodes  =  nodes that meet the range, and so does each node above them
```

As a node lies within the nodes above it, all of them meet the range if it does, with one
exception: a node without text also meets a range that it only touches, and a node with text above
it, that begins or ends at the same place, does not.

A pattern for one node captures only from there on down.  A group at the top goes on with the
siblings of the node that it starts at, and at the node that the query is run on these lie outside:

```
        p
      ╱ │ ╲
     x  y  z          ((x) @a (y) @b), run on x, captures y
     ▲
```

Below that node they are children of a node on the way down, so there is no other way out.

* `Query.mem_visited_iff` — which nodes are visited;
* `Node.meets_above_iff` — which nodes are cut off from the visit;
* `Language.matches_ranged` — what is reported;
* `Query.captures_confined` — where the nodes lie that are captured.
-/

namespace Glr

open Subtree Query

variable {n m w c d : Node} {start stop fuel : Nat} {range : Option (Nat × Nat)}

/-! ## Visits -/

/-- No node is under two children of a node. -/
theorem Node.child_eq_of_shows (hc : c ∈ n.children) (hd : d ∈ n.children) (h : c.Shows m)
    (h' : d.Shows m) : c = d := by
  have hnodup := n.nodup_preorder
  rw [Node.preorder_eq, List.nodup_cons, List.nodup_flatMap] at hnodup
  have : Std.Symm (Function.onFun List.Disjoint Node.preorder) :=
    ⟨fun _ _ h => List.disjoint_symm h⟩
  by_contra hne
  exact hnodup.2.2.forall hc hd hne (Node.mem_preorder_iff.mpr h) (Node.mem_preorder_iff.mpr h')

namespace Query

theorem meets_some_iff : meets (some (start, stop)) m = true ↔
    if m.startByte = m.endByte then start ≤ m.startByte ∧ m.startByte ≤ stop
    else m.startByte < stop ∧ start < m.endByte := by
  rw [meets]
  split <;> simp

/-- The visit keeps to the order of the nodes. -/
theorem visited_sublist (range : Option (Nat × Nat)) (fuel : Nat) (n : Node) :
    (visited range fuel n).Sublist n.preorder := by
  induction fuel generalizing n with
  | zero => exact List.nil_sublist _
  | succ fuel ih =>
    rw [visited, Node.preorder_eq]
    split
    · exact (List.Sublist.flatMap_right _ fun c _ => ih c).cons_cons n
    · exact List.nil_sublist _

/-- A node is visited if all nodes from the first one down to it meet the range. -/
theorem mem_visited_iff (hfuel : n.subtree.count ≤ fuel) : m ∈ visited range fuel n ↔
    n.Shows m ∧ ∀ w, n.Shows w → w.Shows m → meets range w = true := by
  induction fuel generalizing n with
  | zero =>
    have := n.subtree.count_pos
    omega
  | succ fuel ih =>
    have hchild (c : Node) (hc : c ∈ n.children) := ih (n := c) (by
      have := Node.count_lt_of_mem_children hc
      omega)
    rw [visited]
    by_cases hn : meets range n = true
    · rw [if_pos hn, List.mem_cons, List.mem_flatMap]
      constructor
      · rintro (rfl | ⟨c, hc, hm⟩)
        · exact ⟨.self, fun w hw hwm => hwm.eq_of_length_le hw.length_path_le ▸ hn⟩
        · obtain ⟨hshows, habove⟩ := (hchild c hc).mp hm
          refine ⟨.of_child hc hshows, fun w hw hwm => ?_⟩
          rcases hw.cases_child with rfl | ⟨d, hd, hw⟩
          · exact hn
          · obtain rfl := Node.child_eq_of_shows hc hd hshows (hw.trans hwm)
            exact habove w hw hwm
      · rintro ⟨hshows, habove⟩
        rcases hshows.cases_child with rfl | ⟨c, hc, hshows⟩
        · exact .inl rfl
        · exact .inr ⟨c, hc, (hchild c hc).mpr
            ⟨hshows, fun w hw hwm => habove w (.of_child hc hw) hwm⟩⟩
    · rw [if_neg hn]
      constructor
      · intro h
        contradiction
      · intro h
        exact absurd (h.2 n .self h.1) hn

end Query

/-! ## Nodes that are cut off -/

/-- A node without text lies at an end of a range, and a node with text between `n` and it lies
all on the other side of that end. -/
def Node.Severed (start stop : Nat) (n m : Node) : Prop :=
  m.startByte = m.endByte ∧ ∃ w, n.Shows w ∧ w.Shows m ∧ w.startByte < w.endByte ∧
    (w.startByte = m.startByte ∧ m.startByte = stop ∨ w.endByte = m.endByte ∧ m.endByte = start)

theorem Node.within_of_shows (hn : Everywhere Encloses n.subtree) (h : n.Shows m) :
    n.startByte ≤ m.startByte ∧ m.endByte ≤ n.endByte :=
  Node.within_of_mem_stored hn (n.preorder_sublist_stored.subset (Node.mem_preorder_iff.mpr h))

theorem Node.meets_above_iff (hn : Everywhere Encloses n.subtree) (hm : n.Shows m) :
    (∀ w, n.Shows w → w.Shows m → meets (some (start, stop)) w = true) ↔
      meets (some (start, stop)) m = true ∧ ¬Severed start stop n m := by
  have hwithin (w : Node) (hw : n.Shows w) (hwm : w.Shows m) :
      w.startByte ≤ m.startByte ∧ m.endByte ≤ w.endByte :=
    Node.within_of_shows (Node.everywhere_of_shows hn hw) hwm
  have hordered := m.startByte_le_endByte
  constructor
  · intro habove
    refine ⟨habove m hm .self, fun ⟨hempty, w, hw, hwm, htext, hedge⟩ => ?_⟩
    have := meets_some_iff.mp (habove w hw hwm)
    rw [if_neg (by omega)] at this
    omega
  · intro ⟨hm, hsevered⟩ w hw hwm
    have := hwithin w hw hwm
    rw [meets_some_iff] at hm ⊢
    by_cases hempty : w.startByte = w.endByte
    · -- then the node has no text either, and is at the same place
      rw [if_pos (by omega)] at hm
      rw [if_pos hempty]
      omega
    · rw [if_neg hempty]
      by_cases htext : m.startByte = m.endByte
      · rw [if_pos htext] at hm
        have hedge : ¬(w.startByte = m.startByte ∧ m.startByte = stop ∨
            w.endByte = m.endByte ∧ m.endByte = start) := fun hedge =>
          hsevered ⟨htext, w, hw, hwm, by omega, hedge⟩
        omega
      · rw [if_neg htext] at hm
        omega

/-- The matches in a range of bytes.  Without a range a query reports the matches at each visible
node from `n` on down, in preorder.  With a range it reports those at some of these nodes, in the
same order: at the nodes that meet the range, except those that are cut off. -/
theorem Language.matches_ranged {handle : Nat} {grammar : Grammar} {scanner : Option Scanner}
    {l : Language} {t : Tree} (h : Language.ofGrammar handle grammar scanner = .ok l)
    (ht : l.Obtained t) (hl : t.language.sameAs l = true) (hn : t.HasNode n) (q : Query)
    (source : Bytes) (start stop : Nat) :
    q.run n source none = n.preorder.flatMap (matchesAt q.rules source) ∧
    ∃ nodes : List Node, nodes.Sublist n.preorder ∧
      (∀ m, m ∈ nodes ↔ m ∈ n.preorder ∧ meets (some (start, stop)) m = true ∧
        ¬Node.Severed start stop n m) ∧
      q.run n source (some (start, stop)) = nodes.flatMap (matchesAt q.rules source) := by
  obtain ⟨g, -, hg⟩ := Language.ofGrammar_sound h
  have hencloses : Everywhere Encloses n.subtree := hn.everywhere (ht.encloses hg hl)
  refine ⟨?_, visited (some (start, stop)) n.subtree.count n, visited_sublist .., fun m => ?_, rfl⟩
  · rw [Query.run, visited_eq_preorder (Nat.le_refl _)]
  · rw [mem_visited_iff (Nat.le_refl _), Node.mem_preorder_iff]
    exact and_congr_right fun hm => Node.meets_above_iff hencloses hm

/-- A rule whose last token may be missing, and one behind it. -/
def Grammar.torn : Grammar :=
  { name := "torn", extras := some [] : Grammar }
    |>.addRule "s" (.seq [.sym "p", .sym "q"])
    |>.addRule "p" (.seq [.string "a", .string "b"])
    |>.addRule "q" (.string "c")

set_option maxRecDepth 100000 in
/-- The token that is missing lies at the start of the range, and the node that it belongs to
before that: the token is reported in no range that begins there. -/
theorem Language.matches_ranged_torn : ∃ (l : Language) (q : Query) (t : Tree) (m : Node),
    Language.ofGrammar 0 .torn none = .ok l ∧ Query.compile l "(MISSING) @m" = .ok q ∧
    t = (l.parse {} (Bytes.ofString "ac") none).1 ∧ m ∈ t.rootNode.preorder ∧
    matchesAt q.rules (Bytes.ofString "ac") m ≠ [] ∧ meets (some (1, 2)) m = true ∧
    Node.Severed 1 2 t.rootNode m ∧ q.run t.rootNode (Bytes.ofString "ac") (some (1, 2)) = [] := by
  have hrun : (Language.ofGrammar 0 .torn none).toOption.any (fun l =>
      (Query.compile l "(MISSING) @m").toOption.any fun q =>
        let t := (l.parse {} (Bytes.ofString "ac") none).1
        t.language.sameAs l &&
          (q.run t.rootNode (Bytes.ofString "ac") (some (1, 2))).isEmpty &&
          (visited none t.rootNode.subtree.count t.rootNode).any fun m =>
            meets (some (1, 2)) m && !(matchesAt q.rules (Bytes.ofString "ac") m).isEmpty) =
              true := by
    decide +kernel
  obtain ⟨l, hl, hrun⟩ := exists_ok hrun
  obtain ⟨q, hq, hrun⟩ := exists_ok hrun
  have ht : l.Obtained (l.parse {} (Bytes.ofString "ac") none).1 := .parsed (by simp)
  simp only [Bool.and_eq_true, List.any_eq_true, Bool.not_eq_true', List.isEmpty_iff,
    List.isEmpty_eq_false_iff, visited_eq_preorder (Nat.le_refl _)] at hrun
  obtain ⟨⟨hsame, hempty⟩, m, hm, hmeets, hmatch⟩ := hrun
  obtain ⟨-, nodes, -, hnodes, hreported⟩ :=
    Language.matches_ranged hl ht hsame .root q (Bytes.ofString "ac") 1 2
  refine ⟨l, q, _, m, hl, hq, rfl, hm, hmatch, hmeets, ?_, hempty⟩
  by_contra hsevered
  rw [hempty, eq_comm, List.flatMap_eq_nil_iff] at hreported
  exact hmatch (hreported m ((hnodes m).mpr ⟨hm, hmeets, hsevered⟩))

/-! ## Captured nodes -/

theorem Node.siblings_of_mem_children (h : c ∈ n.children) : c.siblings = n.children := by
  rw [Node.siblings, Node.parent?_of_mem_children h]

namespace Query

variable {r : Rule} {found : Captures}

/-- What a rule captures lies below the siblings of the node that it stands at, that node itself
the first of them; and if the pattern of the rule is not a group, below the node. -/
theorem Rule.Embeds.confined (h : r.Embeds n found) :
    (∀ c ∈ found, n.Shows c.node) ∨ ∃ own steps i, r.pattern = .group own steps ∧
      n.siblings[i]? = some n ∧ ∀ c ∈ found, ∃ s ∈ n.siblings.drop i, s.Shows c.node := by
  cases h with
  | node stands => exact .inl (stands.inherited (fun _ hm _ hc => .child hm hc) .self)
  | @group own first rest i _ _ _ pattern place _ stands spread =>
    have hdown : ∀ m, (∃ s ∈ n.siblings.drop i, s.Shows m) → ∀ c ∈ m.children,
        ∃ s ∈ n.siblings.drop i, s.Shows c :=
      fun m ⟨s, hs, hm⟩ c hc => ⟨s, hs, .child hm hc⟩
    have hfrom (k : Nat) (c : Node) (hk : i ≤ k) (hc : n.siblings[k]? = some c) :
        ∃ s ∈ n.siblings.drop i, s.Shows c := by
      refine ⟨c, List.mem_iff_getElem?.mpr ⟨k - i, ?_⟩, .self⟩
      rwa [List.getElem?_drop, Nat.add_sub_cancel' hk]
    exact .inr ⟨own, first :: rest, i, pattern, place, List.forall_mem_append.mpr
      ⟨stands.inherited hdown (hfrom i n (Nat.le_refl i) place),
        spread.inherited hdown fun k c hk => hfrom k c (Nat.le_of_succ_le hk)⟩⟩

end Query

/-- Every node that a match captures is `start` or lies below it, unless the rule of the match is a
group that stands at `start` itself: the captures of such a match lie below `start` and the
siblings after it. -/
theorem Query.captures_confined {t : Tree} {start : Node} (hstart : t.HasNode start) (q : Query)
    (source : Bytes) (range : Option (Nat × Nat)) {m : Match} (hm : m ∈ q.run start source range) :
    (∀ c ∈ m.captures, start.Shows c.node) ∨
      ∃ r own steps i, q.rules[m.pattern]? = some r ∧ r.pattern = .group own steps ∧
        start.siblings[i]? = some start ∧
        ∀ c ∈ m.captures, ∃ s ∈ start.siblings.drop i, s.Shows c.node := by
  obtain ⟨n, r, hn, -, hr, hstands, -, -⟩ := Query.embeds_of_mem_run hstart q source range hm
  rcases hstands.confined with hall | ⟨own, steps, i, hgroup, hplace, hall⟩
  · exact .inl fun c hc => hn.trans (hall c hc)
  · cases hn with
    | self => exact .inr ⟨r, own, steps, i, hr, hgroup, hplace, hall⟩
    | child hp hn =>
      refine .inl fun c hc => ?_
      obtain ⟨s, hs, hc⟩ := hall c hc
      rw [Node.siblings_of_mem_children hn] at hs
      exact (hp.child (List.mem_of_mem_drop hs)).trans hc

set_option maxRecDepth 100000 in
/-- Run on the first of two marks, the query captures the second one. -/
theorem Query.captures_confined_marks : ∃ l q t start m c, Language.ofGrammar 0 .marks none = .ok l ∧
    Query.compile l "((x) @a (y) @b)" = .ok q ∧ t = (l.parse {} (Bytes.ofString "xy") none).1 ∧
    t.HasNode start ∧ m ∈ q.run start (Bytes.ofString "xy") none ∧ c ∈ m.captures ∧
    ¬start.Shows c.node ∧
    ∃ r own steps i, q.rules[m.pattern]? = some r ∧ r.pattern = .group own steps ∧
      start.siblings[i]? = some start ∧ ∃ s ∈ start.siblings.drop i, s.Shows c.node := by
  have hrun : (Language.ofGrammar 0 .marks none).toOption.any (fun l =>
      (Query.compile l "((x) @a (y) @b)").toOption.any fun q =>
        (l.parse {} (Bytes.ofString "xy") none).1.rootNode.children.any fun start =>
          (q.run start (Bytes.ofString "xy") none).any fun m => m.captures.any fun c =>
            !c.node.isSame start && c.node.path.length == start.path.length) = true := by
    decide +kernel
  obtain ⟨l, hl, hrun⟩ := exists_ok hrun
  obtain ⟨q, hq, hrun⟩ := exists_ok hrun
  obtain ⟨start, hchild, hrun⟩ := List.any_eq_true.mp hrun
  obtain ⟨m, hm, hrun⟩ := List.any_eq_true.mp hrun
  obtain ⟨c, hc, hrun⟩ := List.any_eq_true.mp hrun
  rw [Bool.and_eq_true, Bool.not_eq_true', beq_iff_eq] at hrun
  have hstart : (l.parse {} (Bytes.ofString "xy") none).1.HasNode start :=
    Tree.HasNode.root.children start hchild
  have houtside : ¬start.Shows c.node := fun hshows => by
    rw [hshows.eq_of_length_le (Nat.le_of_eq hrun.2), Node.isSame, beq_self_eq_true] at hrun
    exact absurd hrun.1 Bool.noConfusion
  rcases Query.captures_confined hstart q (Bytes.ofString "xy") none hm with hall |
    ⟨r, own, steps, i, hr, hgroup, hplace, hall⟩
  · exact absurd (hall c hc) houtside
  · exact ⟨l, q, _, start, m, c, hl, hq, rfl, hstart, hm, hc, houtside, r, own, steps, i, hr,
      hgroup, hplace, hall c hc⟩

end Glr
