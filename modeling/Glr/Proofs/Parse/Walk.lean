import Glr.Proofs.Parse.Inherited
import Glr.Proofs.Parse.Threaded
import Glr.Proofs.Tree.Chain

/-!
# Glr.Proofs.Parse.Walk

The walk over the previous tree.  Whatever moves it makes, its path stands for the nodes that it
still comes to, the one it stands at first:

```
           passed       ahead
           p₁ … pₖ      n :: later
pass       p₁ … pₖ n    later
descend    p₁ … pₖ      children of n ++ later
```

Together they have the leaves of the tree, each once and in order, and end before the next of them
starts.  The scanner state of the walk is the last one on the leaves of what was passed, for every
node has the last state on its own leaves.

* `agenda_pass`, `agenda_descend?` — a move, seen by what lies ahead;
* `OldTree.Between.run` — what every run of moves keeps;
* `Language.Obtained.walk` — where the walk stands after any moves.
-/

namespace Glr

open Parse Subtree

/-! ## Leaves of nodes -/

namespace Node

variable {n m c : Node}

/-- The leaves from a node on down, in order. -/
def leafNodes (n : Node) : List Node := n.stored.filter fun m => m.subtree.isLeaf

theorem leafNodes_of_nil (hn : n.subtree.children = []) : n.leafNodes = [n] := by
  have hstored : n.storedChildren = [] := by rw [storedChildren, hn, place]
  rw [leafNodes, stored_eq, hstored, List.flatMap_nil,
    List.filter_cons_of_pos (by simp [Subtree.isLeaf, hn]), List.filter_nil]

theorem leafNodes_of_ne_nil (hn : n.subtree.children ≠ []) :
    n.leafNodes = n.storedChildren.flatMap leafNodes := by
  rw [leafNodes, stored_eq, List.filter_cons_of_neg (by simpa [Subtree.isLeaf] using hn),
    List.filter_flatMap]
  rfl

/-- The scanner states on the leaves of a node. -/
theorem filterMap_leafNodes (n : Node) :
    n.leafNodes.filterMap (fun m => m.subtree.info.lastExternal) = n.subtree.memories := by
  induction n using stored_induction with
  | h n ih =>
    obtain ⟨tree, ⟨i, cs⟩, start, path⟩ := n
    by_cases hcs : cs = []
    · subst hcs
      rw [leafNodes_of_nil rfl, memories_leaf]
      cases hlast : i.lastExternal <;> simp [Subtree.info, hlast]
    · have hne : (Subtree.mk i cs).children ≠ [] := hcs
      rw [leafNodes_of_ne_nil hne, List.filterMap_flatMap, List.flatMap_congr ih,
        memories_of_ne_nil hcs, memoriesAll_eq_flatMap, ← List.flatMap_map Node.subtree memories,
        storedChildren, map_subtree_place, List.flatMap_map]
      rfl

end Node

namespace Parse

/-! ## Moves -/

/-- A move of the walk. -/
inductive Move where
  | pass
  | descend

namespace OldTree

/-- The walk after a move.  There is no way down from a leaf. -/
def move (w : OldTree) : Move → OldTree
  | .pass => w.pass
  | .descend => w.descend?.getD w

/-- The walk after some moves. -/
def run (w : OldTree) (moves : List Move) : OldTree := moves.foldl move w

/-- The nodes that some moves pass. -/
def passed (w : OldTree) : List Move → List OldNode
  | [] => []
  | .pass :: moves => w.current?.toList ++ w.pass.passed moves
  | .descend :: moves => (w.move .descend).passed moves

end OldTree

/-! ## What lies ahead -/

namespace OldNode

/-- Some children as the walk comes to them, the first of which starts at an offset. -/
def coming (start : Nat) : List (Child Subtree) → List OldNode
  | [] => []
  | c :: cs => enter c.node start :: coming (start + c.node.size.bytes) cs

/-- The children that were not visited. -/
def waiting (n : OldNode) : List OldNode := coming n.restStart n.rest

theorem waiting_of_none {n : OldNode} (h : n.next? = none) : n.waiting = [] := by
  unfold next? at h
  split at h
  · rename_i hrest
    rw [waiting, hrest, coming]
  · contradiction

theorem waiting_of_some {n child parent : OldNode} (h : n.next? = some (child, parent)) :
    n.waiting = child :: parent.waiting := by
  unfold next? at h
  split at h
  · contradiction
  · rename_i c cs hrest
    obtain ⟨rfl, rfl⟩ := Prod.mk.inj (Option.some.inj h)
    rw [waiting, hrest, coming]
    rfl

end OldNode

/-- The nodes that a path still comes to, the one at its end first. -/
def agenda : List OldNode → List OldNode
  | [] => []
  | n :: above => n :: above.flatMap OldNode.waiting

theorem head?_agenda (path : List OldNode) : (agenda path).head? = path.head? := by
  cases path <;> rfl

/-- Whatever ends on the way up, the next node is the first that waits. -/
theorem agenda_resume (path : List OldNode) :
    agenda (OldTree.resume path) = path.flatMap OldNode.waiting := by
  induction path with
  | nil => rfl
  | cons parent above ih =>
    rw [OldTree.resume, List.flatMap_cons]
    split
    · rename_i child parent' h
      rw [OldNode.waiting_of_some h]
      rfl
    · rename_i h
      rw [ih, OldNode.waiting_of_none h, List.nil_append]

namespace OldTree

variable {w v : OldTree}

theorem agenda_pass (w : OldTree) : agenda w.pass.path = (agenda w.path).tail := by
  unfold pass
  split
  · rename_i hw
    rw [hw]
    rfl
  · rename_i done above hw
    rw [hw]
    exact agenda_resume above

theorem agenda_descend? (h : w.descend? = some v) :
    ∃ n, w.current? = some n ∧ n.waiting ≠ [] ∧
      agenda v.path = n.waiting ++ (agenda w.path).tail ∧ v.external = w.external := by
  unfold descend? at h
  split at h
  · contradiction
  · rename_i n above hw
    split at h
    · rename_i child parent hnext
      obtain rfl := Option.some.inj h
      have hwaiting := OldNode.waiting_of_some hnext
      refine ⟨n, by rw [current?, hw, List.head?_cons], by simp [hwaiting], ?_, rfl⟩
      rw [hwaiting, hw]
      rfl
    · contradiction

theorem external_pass (w : OldTree) :
    w.pass.external = (w.current?.bind fun n => n.node.info.lastExternal).getD w.external := by
  unfold pass current?
  cases w.path <;> rfl

end OldTree

end Parse

/-- A node as the walk comes to it. -/
def Node.entered (n : Node) : OldNode := .enter n.subtree n.startByte

/-- The walk comes to the stored children of a node where they stand. -/
theorem Node.waiting_entered (n : Node) :
    n.entered.waiting = n.storedChildren.map Node.entered := by
  have key (k : Nat) (start : Length) (cs : List (Child Subtree)) :
      OldNode.coming start.bytes cs = (n.place k start cs).map Node.entered := by
    induction cs generalizing k start with
    | nil => rfl
    | cons c cs ih =>
      rw [OldNode.coming, place, List.map_cons, ← ih]
      rfl
  exact key 0 n.start n.subtree.children

/-! ## Runs of moves -/

namespace Subtree

/-- Children fit into their node, and the node has the last scanner state on its leaves. -/
structure Traced (i : NodeInfo) (cs : List (Child Subtree)) : Prop where
  fits : Encloses i cs
  last : i.lastExternal = (memories (.mk i cs)).getLast?

theorem Traced.lastExternal_eq {t : Subtree} (h : Everywhere Traced t) :
    t.info.lastExternal = t.memories.getLast? := by
  obtain ⟨i, cs⟩ := t
  exact h.here.last

/-- All ways of building nodes keep that. -/
theorem inherited_traced (l : Language) : Inherited l Traced where
  leaf i := by
    refine ⟨Nat.zero_le _, ?_⟩
    rw [memories_leaf]
    cases i.lastExternal <;> rfl
  relabelled i j cs hsize hlast h := by
    have hmemories : memories (.mk j cs) = memories (.mk i cs) := by
      cases cs with
      | nil => rw [memories_leaf, memories_leaf, hlast]
      | cons c cs => rw [memories, memories]
    refine ⟨?_, by rw [hlast, hmemories, h.last]⟩
    rw [Encloses, hsize]
    exact h.fits
  node spec cs h := by
    have hlast : (node l spec cs).info.lastExternal =
        (memoriesAll (node l spec cs).children).getLast? :=
      lastExternal_of fun c hc => Traced.lastExternal_eq (h c hc)
    have hsize : width (node l spec cs).children = (node l spec cs).size.bytes := by
      rw [size_node, size_of_eq_span]
      rfl
    refine ⟨Nat.le_of_eq hsize, ?_⟩
    generalize (node l spec cs).info = i at hlast
    generalize (node l spec cs).children = children at hlast
    cases children with
    | nil =>
      rw [memories_leaf, show i.lastExternal = none from hlast]
      rfl
    | cons c children => rw [memories, hlast]
  fits i cs h := h.fits
  edit := by
    intro t start oldEnd newEnd hw h
    have hmemories : (t.edit start oldEnd newEnd).memories = t.memories := by
      rw [← memories_shape, shape_edit, memories_shape]
    obtain ⟨i, cs⟩ := t
    rw [Subtree.edit] at hmemories ⊢
    exact ⟨width_edit hw h.fits, h.last.trans (congrArg List.getLast? hmemories.symm)⟩

end Subtree

namespace Parse.OldTree

variable {t : Tree} {w : OldTree} {before ahead : List Node} {n : Node}

/-- A walk over a tree stands between the nodes that it passed and those that it comes to. -/
structure Between (t : Tree) (before ahead : List Node) (w : OldTree) : Prop where
  agenda : agenda w.path = ahead.map Node.entered
  nodes : ∀ n ∈ before ++ ahead, t.HasNode n
  leaves : t.rootNode.leafNodes = (before ++ ahead).flatMap Node.leafNodes
  ordered : (before ++ ahead).Pairwise fun a b => a.endByte ≤ b.startByte
  external : w.external = (before.flatMap fun n => n.subtree.memories).getLast?.getD #[]

namespace Between

theorem start (t : Tree) : Between t [] [t.rootNode] (ofRoot t.root) :=
  ⟨rfl, List.forall_mem_singleton.mpr .root, by simp, List.pairwise_singleton _ _, rfl⟩

theorem current? (h : Between t before ahead w) :
    w.current? = ahead.head?.map Node.entered := by
  rw [OldTree.current?, ← head?_agenda, h.agenda, List.head?_map]

/-- At the end of the walk nothing is passed any more. -/
theorem pass_nil (h : Between t before [] w) : w.pass = w := by
  have hnil : w.path = [] := by
    have hcurrent := h.current?
    rwa [OldTree.current?, List.head?_nil, Option.map_none, List.head?_eq_none_iff] at hcurrent
  rw [OldTree.pass, hnil]

theorem pass (ht : Everywhere Traced t.root) (h : Between t before (n :: ahead) w) :
    Between t (before ++ [n]) ahead w.pass := by
  have hsame : before ++ [n] ++ ahead = before ++ n :: ahead := by simp
  have hlast : n.subtree.info.lastExternal = n.subtree.memories.getLast? :=
    Traced.lastExternal_eq ((h.nodes n (by simp)).everywhere ht)
  refine ⟨?_, hsame ▸ h.nodes, hsame ▸ h.leaves, hsame ▸ h.ordered, ?_⟩
  · rw [agenda_pass, h.agenda]
    rfl
  · rw [external_pass, h.current?, List.flatMap_append, List.flatMap_singleton,
      List.getLast?_append, ← hlast, h.external]
    show n.subtree.info.lastExternal.getD _ = _
    cases n.subtree.info.lastExternal <;> rfl

/-- Going down puts the children of the node in its place; at a leaf the walk stays. -/
theorem descend (ht : Everywhere Traced t.root) (h : Between t before ahead w) :
    ∃ ahead', Between t before ahead' (w.move .descend) ∧
      ∀ k, (∀ n ∈ ahead, k ≤ n.startByte) → ∀ n ∈ ahead', k ≤ n.startByte := by
  rw [OldTree.move]
  cases hdown : w.descend? with
  | none => exact ⟨ahead, h, fun _ hk => hk⟩
  | some v =>
    obtain ⟨m, hm, hwaiting, hagenda, hexternal⟩ := agenda_descend? hdown
    rw [h.current?] at hm
    obtain ⟨n, hn, rfl⟩ := Option.map_eq_some_iff.mp hm
    obtain ⟨ahead, rfl⟩ := List.head?_eq_some_iff.mp hn
    rw [n.waiting_entered] at hwaiting hagenda
    have hnode : t.HasNode n := h.nodes n (by simp)
    have hencloses : Everywhere Encloses n.subtree :=
      (hnode.everywhere ht).imp fun _ _ hi _ => hi.fits
    have hwithin {c : Node} (hc : c ∈ n.storedChildren) :
        n.startByte ≤ c.startByte ∧ c.endByte ≤ n.endByte :=
      Node.within_of_mem_storedChildren hencloses hc
    have hchildren : n.subtree.children ≠ [] := by
      rintro hnil
      exact hwaiting (by rw [Node.storedChildren, hnil]; rfl)
    obtain ⟨hbefore, hahead, hacross⟩ := List.pairwise_append.mp h.ordered
    obtain ⟨hn, hahead⟩ := List.pairwise_cons.mp hahead
    refine ⟨n.storedChildren ++ ahead, ⟨?_, ?_, ?_, ?_, hexternal.trans h.external⟩, ?_⟩
    · rw [Option.getD_some, hagenda, h.agenda, List.map_append]
      rfl
    · intro c hc
      rcases List.mem_append.mp hc with hc | hc
      · exact h.nodes c (List.mem_append_left _ hc)
      · rcases List.mem_append.mp hc with hc | hc
        · exact hnode.child hc
        · exact h.nodes c (by simp [hc])
    · rw [h.leaves, List.flatMap_append, List.flatMap_append, List.flatMap_append,
        List.flatMap_cons, Node.leafNodes_of_ne_nil hchildren]
    · refine List.pairwise_append.mpr ⟨hbefore, List.pairwise_append.mpr
        ⟨n.pairwise_storedChildren_le, hahead, fun c hc a ha => ?_⟩, fun b hb c hc => ?_⟩
      · exact (hwithin hc).2.trans (hn a ha)
      · rcases List.mem_append.mp hc with hc | hc
        · exact (hacross b hb n (by simp)).trans (hwithin hc).1
        · exact hacross b hb c (by simp [hc])
    · intro k hk c hc
      rcases List.mem_append.mp hc with hc | hc
      · exact (hk n (by simp)).trans (hwithin hc).1
      · exact hk c (by simp [hc])

/-- Any moves pass some of the nodes, and come to none that starts earlier than all were. -/
theorem run (ht : Everywhere Traced t.root) (moves : List Move) (h : Between t before ahead w) :
    ∃ done ahead', Between t (before ++ done) ahead' (w.run moves) ∧
      w.passed moves = done.map Node.entered ∧
      ∀ k, (∀ n ∈ ahead, k ≤ n.startByte) → ∀ n ∈ ahead', k ≤ n.startByte := by
  induction moves generalizing before ahead w with
  | nil => exact ⟨[], ahead, by rwa [List.append_nil], rfl, fun _ hk => hk⟩
  | cons move moves ih =>
    cases move with
    | pass =>
      rw [OldTree.passed, h.current?]
      cases ahead with
      | nil =>
        obtain ⟨done, ahead', hrun, hpassed, hstart⟩ := ih h
        rw [← h.pass_nil] at hrun hpassed
        exact ⟨done, ahead', hrun, hpassed, hstart⟩
      | cons n ahead =>
        obtain ⟨done, ahead', hrun, hpassed, hstart⟩ := ih (h.pass ht)
        refine ⟨n :: done, ahead', ?_, ?_, fun k hk => hstart k fun m hm => hk m (by simp [hm])⟩
        · rwa [List.append_cons]
        · rw [hpassed]
          rfl
    | descend =>
      obtain ⟨ahead₁, hdown, hstart₁⟩ := h.descend ht
      obtain ⟨done, ahead', hrun, hpassed, hstart⟩ := ih hdown
      exact ⟨done, ahead', hrun, hpassed, fun k hk => hstart k (hstart₁ k hk)⟩

/-- The nodes ahead start no earlier than the first of them. -/
theorem startByte_le (h : Between t before (n :: ahead) w) :
    ∀ m ∈ n :: ahead, n.startByte ≤ m.startByte := by
  obtain ⟨-, hahead, -⟩ := List.pairwise_append.mp h.ordered
  refine List.forall_mem_cons.mpr ⟨Nat.le_refl _, fun m hm => ?_⟩
  exact n.startByte_le_endByte.trans ((List.pairwise_cons.mp hahead).1 m hm)

end Between

/-- What some moves find is the last node that they pass.  It starts at the place, where the walk
has the scanner state of the place. -/
def Finds (site : ReuseSite) (w : OldTree) (moves : List Move) (t : Subtree) : Prop :=
  ∃ before n, moves = before ++ [.pass] ∧ (w.run before).current? = some n ∧ n.node = t ∧
    n.start = site.position ∧ (w.run before).external = site.external

/-- A search for a subtree to reuse is a run of moves. -/
theorem exists_run_of_reuse? (l : Language) (site : ReuseSite) (w : OldTree) :
    ∃ moves, (w.reuse? l site).2 = w.run moves ∧
      ∀ t, (w.reuse? l site).1 = some t → w.Finds site moves t := by
  have hcons {w v : OldTree} (move : Move) (hv : w.move move = v)
      (h : ∃ moves, (v.reuse? l site).2 = v.run moves ∧
        ∀ t, (v.reuse? l site).1 = some t → v.Finds site moves t) :
      ∃ moves, (v.reuse? l site).2 = w.run moves ∧
        ∀ t, (v.reuse? l site).1 = some t → w.Finds site moves t := by
    subst hv
    obtain ⟨moves, hrun, hfound⟩ := h
    refine ⟨move :: moves, hrun, fun t ht => ?_⟩
    obtain ⟨before, n, hmoves, hn⟩ := hfound t ht
    exact ⟨move :: before, n, by rw [hmoves, List.cons_append], hn⟩
  fun_induction OldTree.reuse? l site w with
  | case1 w => exact ⟨[], rfl, by simp⟩
  | case2 w => exact ⟨[], rfl, by simp⟩
  | case3 _ _ _ _ _ _ _ _ ih => exact hcons .pass rfl ih
  | case4 _ _ _ _ _ _ _ _ v hd ih => exact hcons .descend (by rw [move, hd]; rfl) ih
  | case5 _ _ _ _ _ _ _ _ _ ih => exact hcons .pass rfl ih
  | case6 w n above hw bytes hbefore hat hfits =>
    refine ⟨[.pass], rfl, fun t ht => ⟨[], n, rfl, ?_, Option.some.inj ht, ?_, ?_⟩⟩
    · show w.current? = some n
      rw [OldTree.current?, hw, List.head?_cons]
    · simp only [Bool.or_eq_true, decide_eq_true_eq, not_or] at hat
      omega
    · simp only [OldNode.fits, Bool.and_eq_true, beq_iff_eq] at hfits
      exact hfits.1.2
  | case7 _ _ _ _ _ _ _ _ v hd ih => exact hcons .descend (by rw [move, hd]; rfl) ih
  | case8 w => exact ⟨[], rfl, by simp⟩

end Parse.OldTree

/-- The walk over a tree after some moves. -/
def Tree.walk (t : Tree) (moves : List Move) : OldTree := (OldTree.ofRoot t.root).run moves

/-- However a tree came about, the walk over it goes through its nodes in order.  After any moves
it stands at a node, where that starts; every leaf is in a node that was passed, in this node, or
behind it; the scanner state is the last one on the leaves of what was passed, and so on all leaves
before the node; and no later node starts earlier. -/
theorem Language.Obtained.walk {l : Language} {t : Tree} (ht : l.Obtained t)
    (hl : t.language.sameAs l = true) (moves : List Move) :
    ∃ (passed : List Node) (current : Option Node) (later : List Node),
      (OldTree.ofRoot t.root).passed moves = passed.map Node.entered ∧
      (t.walk moves).current? = current.map Node.entered ∧
      (∀ n ∈ passed ++ current.toList, t.HasNode n) ∧
      t.rootNode.leafNodes = passed.flatMap Node.leafNodes ++
        current.toList.flatMap Node.leafNodes ++ later ∧
      (current = none → later = []) ∧
      (∀ n, current = some n → (∀ m ∈ passed, m.endByte ≤ n.startByte) ∧
        ∀ m ∈ later, n.endByte ≤ m.startByte) ∧
      (t.walk moves).external = ((passed.flatMap Node.leafNodes).filterMap
        fun m => m.subtree.info.lastExternal).getLast?.getD #[] ∧
      ∀ more n n', (t.walk moves).current? = some n → (t.walk (moves ++ more)).current? = some n' →
        n.start ≤ n'.start := by
  have htraced : Everywhere Traced t.root := (inherited_traced l).everywhere ht hl
  obtain ⟨passed, ahead, hrun, hpassed, -⟩ := (OldTree.Between.start t).run htraced moves
  rw [List.nil_append] at hrun
  change OldTree.Between t passed ahead (t.walk moves) at hrun
  have hexternal : (t.walk moves).external = ((passed.flatMap Node.leafNodes).filterMap
      fun m => m.subtree.info.lastExternal).getLast?.getD #[] := by
    rw [hrun.external, List.filterMap_flatMap]
    simp only [Node.filterMap_leafNodes]
  have hcurrent := hrun.current?
  have hleaves := hrun.leaves
  cases ahead with
  | nil =>
    refine ⟨passed, none, [], hpassed, hcurrent, by simpa using hrun.nodes, ?_, by simp, by simp,
      hexternal, fun more n n' hn => ?_⟩
    · simpa using hleaves
    · rw [hcurrent] at hn
      contradiction
  | cons n ahead =>
    have hnodes := hrun.nodes
    obtain ⟨-, hahead, hacross⟩ := List.pairwise_append.mp hrun.ordered
    refine ⟨passed, some n, ahead.flatMap Node.leafNodes, hpassed, hcurrent, ?_, ?_, by simp, ?_,
      hexternal, ?_⟩
    · intro m hm
      refine hnodes m ?_
      rcases List.mem_append.mp hm with hm | hm
      · exact List.mem_append_left _ hm
      · simp [List.mem_singleton.mp hm]
    · rw [hleaves]
      simp
    · rintro _ ⟨⟩
      refine ⟨fun m hm => hacross m hm n (by simp), fun m hm => ?_⟩
      obtain ⟨a, ha, hm⟩ := List.mem_flatMap.mp hm
      have hencloses : Everywhere Encloses a.subtree :=
        ((hnodes a (by simp [ha])).everywhere htraced).imp fun _ _ hi _ => hi.fits
      have hwithin := Node.within_of_mem_stored hencloses (List.mem_filter.mp hm).1
      exact ((List.pairwise_cons.mp hahead).1 a ha).trans hwithin.1
    · intro more m m' hm hm'
      obtain ⟨_, ahead', hmore, -, hstart⟩ := hrun.run htraced more
      rw [hcurrent] at hm
      obtain rfl := Option.some.inj hm
      have hmoves : t.walk (moves ++ more) = (t.walk moves).run more := List.foldl_append
      rw [hmoves, hmore.current?] at hm'
      obtain ⟨n', hn', rfl⟩ := Option.map_eq_some_iff.mp hm'
      exact hstart n.startByte hrun.startByte_le n' (List.mem_of_mem_head? hn')

set_option maxRecDepth 100000 in
/-- Over `a`, `b` and into the error around `x`: the token of the scanner was passed. -/
theorem Language.Obtained.walk_scanned : ∃ (l : Language) (t : Tree) (n : OldNode) (m : Node),
    Language.ofGrammar 0 { Grammar.scanned with extras := some [] } (some Script.letter) = .ok l ∧
    l.Obtained t ∧ t.language.sameAs l = true ∧
    (t.walk [.descend, .pass, .pass, .descend]).current? = some n ∧ n.start = 2 ∧
    (t.walk [.descend, .pass, .pass, .descend]).external = Bytes.ofString "k" ∧
    m ∈ t.rootNode.leafNodes ∧ m.subtree.info.lastExternal = some (Bytes.ofString "k") := by
  let moves : List Move := [.descend, .pass, .pass, .descend]
  have h : (Language.ofGrammar 0 { Grammar.scanned with extras := some [] }
      (some Script.letter)).toOption.any (fun l =>
        let t := (l.parse {} (Bytes.ofString "abxa") none).1
        t.language.sameAs l && (t.walk moves).current?.any (fun n => n.start == 2) &&
          (t.walk moves).external == Bytes.ofString "k") = true := by
    decide +kernel
  obtain ⟨l, hl, h⟩ := exists_ok h
  have ht : l.Obtained (l.parse {} (Bytes.ofString "abxa") none).1 := .parsed (by simp)
  generalize (l.parse {} (Bytes.ofString "abxa") none).1 = t at h ht
  simp only [Bool.and_eq_true, beq_iff_eq, Option.any_eq_true] at h
  obtain ⟨⟨hsame, n, hn, hstart⟩, hexternal⟩ := h
  obtain ⟨passed, current, later, -, -, -, hleaves, -, -, hlast, -⟩ :=
    Language.Obtained.walk ht hsame moves
  rw [hexternal] at hlast
  generalize hstates : (passed.flatMap Node.leafNodes).filterMap
    (fun m => m.subtree.info.lastExternal) = states at hlast
  cases hs : states.getLast? with
  | none =>
    rw [hs] at hlast
    exact absurd hlast (by decide)
  | some s =>
    rw [hs, Option.getD_some] at hlast
    have hmem := List.mem_of_getLast? hs
    rw [← hstates, ← hlast] at hmem
    obtain ⟨m, hm, hstate⟩ := List.mem_filterMap.mp hmem
    refine ⟨l, t, n, m, hl, ht, hsame, hn, hstart, hexternal, ?_, hstate⟩
    rw [hleaves]
    simp only [List.mem_append, hm, true_or]

end Glr
