import Glr.Proofs.Tree.Chain

/-!
# Glr.Proofs.Spanning

The smallest node around a range.  The search goes from a node down to the first child that spans
the range, and so on,

```
n  ⊇  c₁  ⊇  c₂  ⊇  …  ⊇  m        start < stop
```

It never comes back to try another child.  It need not, as a range with text is in one child at
most: the nodes it comes to are all that span the range.

* `Node.mem_chain_iff` — the nodes that the search comes to;
* `Node.descendant?_eq_some_iff`, `Node.descendant?_eq_none_iff` — what it answers.
-/

namespace Glr

open Subtree

variable {l : Language} {t : Tree} {n m c x : Node} {start stop fuel : Nat} {named : Bool}

/-! ## The nodes on the way -/

theorem Node.shows_of_mem_chain (hx : x ∈ chain start stop fuel n) : n.Shows x := by
  induction fuel generalizing n with
  | zero =>
    obtain rfl := List.mem_singleton.mp hx
    exact .self
  | succ fuel ih =>
    unfold chain at hx
    split at hx
    · rename_i c hc
      rcases List.mem_cons.mp hx with rfl | hx
      · exact .self
      · exact .of_child (List.mem_of_find?_eq_some hc) (ih hx)
    · obtain rfl := List.mem_singleton.mp hx
      exact .self

/-- Each node on the way stands below the ones before. -/
theorem Node.pairwise_chain : (chain start stop fuel n).Pairwise Node.Shows := by
  induction fuel generalizing n with
  | zero => exact List.pairwise_singleton _ _
  | succ fuel ih =>
    unfold chain
    split
    · rename_i c hc
      refine List.pairwise_cons.mpr ⟨fun x hx => ?_, ih⟩
      exact .of_child (List.mem_of_find?_eq_some hc) (Node.shows_of_mem_chain hx)
    · exact List.pairwise_singleton _ _

/-- Where no child has the range in it, the way ends. -/
theorem Node.mem_singleton_iff (hnarrow : Narrow (Covers start stop) n)
    (hn : n.Covers start stop) (hnone : ∀ c ∈ n.children, ¬c.Covers start stop) :
    x ∈ [n] ↔ n.Shows x ∧ x.Covers start stop := by
  rw [List.mem_singleton]
  constructor
  · rintro rfl
    exact ⟨.self, hn⟩
  · rintro ⟨hx, hcovers⟩
    have hdeepest := Deepest.self hnarrow hn hnone
    exact hx.eq_of_length_le (hdeepest.below x hx hcovers).length_path_le

/-- From a node that has the range in it, the way leads over all nodes that do. -/
theorem Node.mem_chain_iff (hnarrow : Narrow (Covers start stop) n) (h : start < stop)
    (hn : n.Covers start stop) (hfuel : n.subtree.count ≤ fuel + 1) :
    x ∈ chain start stop fuel n ↔ n.Shows x ∧ x.Covers start stop := by
  induction fuel generalizing n with
  | zero =>
    refine Node.mem_singleton_iff hnarrow hn fun c hc => ?_
    have := Node.count_lt_of_mem_children hc
    have := c.subtree.count_pos
    omega
  | succ fuel ih =>
    unfold chain
    split
    · rename_i c hc
      have hmem := List.mem_of_find?_eq_some hc
      have hcovers : c.Covers start stop :=
        (Node.spans_iff h).mp (List.find?_some (p := fun d : Node => d.spans start stop) hc)
      have hcount : c.subtree.count < n.subtree.count := Node.count_lt_of_mem_children hmem
      have hbelow (d : Node) (hd : d ∈ n.children) : Narrow (Covers start stop) d :=
        hnarrow.of_shows (.child .self hd)
      rw [List.mem_cons, ih (hbelow c hmem) hcovers (by omega)]
      constructor
      · rintro (rfl | ⟨hx, hxcovers⟩)
        · exact ⟨.self, hn⟩
        · exact ⟨.of_child hmem hx, hxcovers⟩
      · rintro ⟨hx, hxcovers⟩
        rcases hx.cases_child with rfl | ⟨d, hd, hx⟩
        · exact .inl rfl
        · obtain rfl := hnarrow.alone n .self c hmem d hd hcovers ((hbelow d hd).holds hx hxcovers)
          exact .inr ⟨hx, hxcovers⟩
    · rename_i hnone
      exact Node.mem_singleton_iff hnarrow hn fun c hc hcovers =>
        List.find?_eq_none.mp hnone c hc ((Node.spans_iff h).mpr hcovers)

/-! ## The search -/

/-- What a search looks for: a node that has the range in it and, if asked for, a name. -/
def Node.Sought (start stop : Nat) (named : Bool) (n : Node) : Prop :=
  n.Covers start stop ∧ (!named || n.isNamed) = true

theorem Node.descendant?_of_covers (h : start < stop) (hn : n.Covers start stop) :
    n.descendant? start stop named =
      (chain start stop n.subtree.count n).reverse.find? fun c => !named || c.isNamed := by
  obtain ⟨hstart, hend⟩ := hn
  rw [descendant?, if_neg]
  simp only [Bool.or_eq_true, decide_eq_true_eq]
  omega

theorem Node.descendant?_of_not_covers (hn : ¬n.Covers start stop) :
    n.descendant? start stop named = none := by
  rw [descendant?, if_pos]
  simp only [Covers] at hn
  simp only [Bool.or_eq_true, decide_eq_true_eq]
  omega

/-- Of the nodes on the way that are accepted the search answers the last one. -/
theorem Node.deepest_of_descendant? (hn : Everywhere Encloses n.subtree) (h : start < stop)
    (hm : n.descendant? start stop named = some m) : Deepest (Sought start stop named) n m := by
  have hnarrow := Node.narrow_covers hn h
  by_cases hcovers : n.Covers start stop
  · have hchain (x : Node) := Node.mem_chain_iff (x := x) hnarrow h hcovers (Nat.le_succ _)
    rw [Node.descendant?_of_covers h hcovers, List.find?_eq_some_iff_append] at hm
    obtain ⟨haccept, after, before, hsplit, hafter⟩ := hm
    have hway (x : Node) : x ∈ after ++ m :: before ↔ n.Shows x ∧ x.Covers start stop := by
      rw [← hsplit, List.mem_reverse, hchain]
    have horder : (after ++ m :: before).Pairwise fun a b => b.Shows a := by
      rw [← hsplit]
      exact List.pairwise_reverse.mpr Node.pairwise_chain
    obtain ⟨hshown, hmcovers⟩ := (hway m).mp (by simp)
    refine ⟨hshown, ⟨hmcovers, haccept⟩, fun x hx ⟨hxcovers, hxaccept⟩ => ?_⟩
    rcases List.mem_append.mp ((hway x).mpr ⟨hx, hxcovers⟩) with hmem | hmem
    · -- the nodes behind `m` on the way are not accepted
      have := hafter x hmem
      simp [hxaccept] at this
    · rcases List.mem_cons.mp hmem with rfl | hmem
      · exact .self
      · exact (List.pairwise_cons.mp (List.pairwise_append.mp horder).2.1).1 x hmem
  · simp [Node.descendant?_of_not_covers hcovers] at hm

/-- If it answers none, there is none. -/
theorem Node.not_sought_of_descendant? (hn : Everywhere Encloses n.subtree) (h : start < stop)
    (hnone : n.descendant? start stop named = none) (hx : n.Shows x) :
    ¬x.Sought start stop named := by
  intro ⟨hxcovers, haccept⟩
  have hnarrow := Node.narrow_covers hn h
  have hcovers := hnarrow.holds hx hxcovers
  rw [Node.descendant?_of_covers h hcovers, List.find?_eq_none] at hnone
  have hmem := (Node.mem_chain_iff hnarrow h hcovers (Nat.le_succ _)).mpr ⟨hx, hxcovers⟩
  exact hnone x (List.mem_reverse.mpr hmem) haccept

theorem Node.descendant?_eq_some_iff (hn : Everywhere Encloses n.subtree) (h : start < stop) :
    n.descendant? start stop named = some m ↔ Deepest (Sought start stop named) n m := by
  constructor
  · exact Node.deepest_of_descendant? hn h
  · intro hm
    cases hc : n.descendant? start stop named with
    | none => exact absurd hm.holds (Node.not_sought_of_descendant? hn h hc hm.shown)
    | some c => rw [hm.unique (Node.deepest_of_descendant? hn h hc)]

theorem Node.descendant?_eq_none_iff (hn : Everywhere Encloses n.subtree) (h : start < stop) :
    n.descendant? start stop named = none ↔ ∀ x, n.Shows x → ¬x.Sought start stop named := by
  constructor
  · intro hnone x
    exact Node.not_sought_of_descendant? hn h hnone
  · intro hnone
    by_contra hsome
    obtain ⟨m, hm⟩ := Option.ne_none_iff_exists'.mp hsome
    have hdeepest := Node.deepest_of_descendant? hn h hm
    exact hnone m hdeepest.shown hdeepest.holds

/-- The nodes that have the range in them are those from `n` down to the last one. -/
theorem Node.Deepest.covers_iff (hn : Everywhere Encloses n.subtree) (h : start < stop)
    (hm : Deepest (Covers start stop) n m) (hx : n.Shows x) :
    x.Covers start stop ↔ x.Shows m :=
  ⟨hm.below x hx, fun hxm => ((Node.narrow_covers hn h).of_shows hx).holds hxm hm.holds⟩

/-- The smallest node around a range with text.  A node answers none exactly if the range is not in
it.  Otherwise it answers the last one from itself on down that has the range in it, which is below
all others that do.  Asked for a node with a name, it answers the last one with a name on the way
to that node, and none if no node on the way has a name. -/
theorem Language.descendant_smallest {handle : Nat} {grammar : Grammar} {scanner : Option Scanner}
    (h : Language.ofGrammar handle grammar scanner = .ok l) (ht : l.Obtained t)
    (hl : t.language.sameAs l = true) (hn : t.HasNode n) (hlt : start < stop) :
    (n.descendant? start stop false = none ↔ ¬(n.startByte ≤ start ∧ stop ≤ n.endByte)) ∧
    (n.descendant? start stop false = none → n.descendant? start stop true = none) ∧
    ∀ m, n.descendant? start stop false = some m →
      Node.Deepest (fun x => x.startByte ≤ start ∧ stop ≤ x.endByte) n m ∧
      (∀ c, n.descendant? start stop true = some c ↔
        Node.Deepest (fun x => x.Shows m ∧ x.isNamed = true) n c) ∧
      (n.descendant? start stop true = none ↔
        ∀ x, n.Shows x → x.Shows m → ¬x.isNamed = true) := by
  obtain ⟨g, -, hg⟩ := Language.ofGrammar_sound h
  have hencloses : Everywhere Encloses n.subtree := hn.everywhere (ht.encloses hg hl)
  have hnarrow := Node.narrow_covers hencloses hlt
  have hany (x : Node) : x.Sought start stop false ↔ x.Covers start stop := by simp [Node.Sought]
  have hnone : n.descendant? start stop false = none ↔ ¬n.Covers start stop := by
    rw [Node.descendant?_eq_none_iff hencloses hlt]
    constructor
    · intro hall hcovers
      exact hall n .self ((hany n).mpr hcovers)
    · intro hcovers x hx hsought
      exact hcovers (hnarrow.holds hx ((hany x).mp hsought))
  refine ⟨hnone, fun hfalse => Node.descendant?_of_not_covers (hnone.mp hfalse), fun m hm => ?_⟩
  have hdeepest : Node.Deepest (Node.Covers start stop) n m :=
    (Node.Deepest.congr fun x _ => hany x).mp (Node.deepest_of_descendant? hencloses hlt hm)
  have hnamed (x : Node) (hx : n.Shows x) :
      x.Sought start stop true ↔ x.Shows m ∧ x.isNamed = true := by
    rw [← hdeepest.covers_iff hencloses hlt hx]
    simp [Node.Sought]
  refine ⟨hdeepest, fun c => ?_, ?_⟩
  · rw [Node.descendant?_eq_some_iff hencloses hlt, Node.Deepest.congr hnamed]
  · rw [Node.descendant?_eq_none_iff hencloses hlt]
    constructor
    · intro hall x hx hxm hxnamed
      exact hall x hx ((hnamed x hx).mpr ⟨hxm, hxnamed⟩)
    · intro hall x hx hsought
      obtain ⟨hxm, hxnamed⟩ := (hnamed x hx).mp hsought
      exact hall x hx hxm hxnamed

set_option maxRecDepth 100000 in
/-- The text that is wrong is in a token without a name, in an error node of the same span. -/
theorem Language.descendant_smallest_hollow : ∃ (l : Language) (t : Tree) (m c : Node),
    Language.ofGrammar 0 .hollow none = .ok l ∧ l.Obtained t ∧ m.range = c.range ∧
    t.rootNode.descendant? 2 3 false = some m ∧ t.rootNode.descendant? 2 3 true = some c ∧
    Node.Deepest (fun x => x.startByte ≤ 2 ∧ 3 ≤ x.endByte) t.rootNode m ∧
    Node.Deepest (fun x => x.Shows m ∧ x.isNamed = true) t.rootNode c ∧ ¬m.isNamed = true ∧
    t.rootNode.descendant? 2 5 true = none := by
  have h : (Language.ofGrammar 0 .hollow none).toOption.any (fun l =>
      let t := (l.parse {} (Bytes.ofString "amed") none).1
      t.language.sameAs l && t.rootNode.endByte == 4 &&
        (t.rootNode.descendant? 2 3 false).any fun m => !m.isNamed &&
          (t.rootNode.descendant? 2 3 true).any fun c => m.range == c.range) = true := by
    decide +kernel
  obtain ⟨l, hl, h⟩ := exists_ok h
  have ht : l.Obtained (l.parse {} (Bytes.ofString "amed") none).1 := .parsed (by simp)
  generalize (l.parse {} (Bytes.ofString "amed") none).1 = t at h ht
  simp only [Bool.and_eq_true, Option.any_eq_true, Bool.not_eq_true', beq_iff_eq] at h
  obtain ⟨⟨hsame, hend⟩, m, hm, hanonymous, c, hc, hrange⟩ := h
  obtain ⟨-, -, hsome⟩ := Language.descendant_smallest hl ht hsame .root (show 2 < 3 by decide)
  obtain ⟨houtside, hneither, -⟩ :=
    Language.descendant_smallest hl ht hsame .root (show 2 < 5 by decide)
  obtain ⟨hdeepest, hnamed, -⟩ := hsome m hm
  exact ⟨l, t, m, c, hl, ht, hrange, hm, hc, hdeepest, (hnamed c).mp hc, by simp [hanonymous],
    hneither (houtside.mpr (by omega))⟩

end Glr
