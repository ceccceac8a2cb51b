import Glr.Proofs.Parse.Priced
import Glr.Query.Match

/-!
# Glr.Proofs.Errors

The errors that are reported of a tree.  The search for them passes over every node that costs
nothing and stops at error nodes:

```
errors  =  error nodes and missing tokens in preorder, those in another error node apart
```

As the cost of an error is part of the cost of every node above it up to the next error node,
nothing is passed over that is an error or has one in it.
-/

namespace Glr

open Parse Subtree

/-! ## All nodes in preorder -/

/-- The nodes from one on down, hidden ones too, each before those in it. -/
def Node.stored (n : Node) : List Node :=
  n :: n.storedChildren.attach.flatMap fun c => c.val.stored
termination_by n.subtree.count
decreasing_by exact Node.count_lt_of_mem_storedChildren c.property

/-- The nodes of a tree in the order of the document. -/
def Tree.nodes (t : Tree) : List Node := t.rootNode.stored

/-- One node stands before another in the document: it is above it, or in an earlier child of a
node that is above both. -/
def Node.Precedes (m n : Node) : Prop := m.address.reverse < n.address.reverse

/-- Whether a node is an error that is not in an error node. -/
def Node.isOutermostError (n : Node) : Bool :=
  n.subtree.isFault && n.path.all fun d => !d.parent.isError

/-- What is reported of an error. -/
def Node.syntaxError (n : Node) : SyntaxError :=
  if n.subtree.isError then ⟨"ERROR", false, n.range⟩ else ⟨n.kind, true, n.range⟩

variable {g : FlatGrammar} {l : Language} {t : Tree} {n m c : Node}

theorem Node.stored_eq (n : Node) : n.stored = n :: n.storedChildren.flatMap Node.stored := by
  rw [Node.stored, List.flatMap_subtype (g := Node.stored) fun _ _ => rfl, List.unattach_attach]

/-- What holds of a node if it holds of its stored children holds of every node. -/
theorem Node.stored_induction {P : Node → Prop}
    (h : ∀ n : Node, (∀ c ∈ n.storedChildren, P c) → P n) (n : Node) : P n := by
  generalize hk : n.subtree.count = k
  induction k using Nat.strong_induction_on generalizing n with
  | _ k ih =>
    refine h n fun c hc => ih _ ?_ c rfl
    rw [← hk]
    exact Node.count_lt_of_mem_storedChildren hc

theorem Node.mem_stored_self (n : Node) : n ∈ n.stored := by
  rw [Node.stored_eq]
  exact List.mem_cons_self

/-- A stored child of a node that is listed is listed. -/
theorem Node.mem_stored_of_mem_storedChildren (hm : m ∈ n.stored) (hc : c ∈ m.storedChildren) :
    c ∈ n.stored := by
  induction n using Node.stored_induction with
  | h n ih =>
    rw [Node.stored_eq] at hm ⊢
    rcases List.mem_cons.mp hm with rfl | hm
    · exact List.mem_cons_of_mem _ (List.mem_flatMap.mpr ⟨c, hc, c.mem_stored_self⟩)
    · obtain ⟨d, hd, hm⟩ := List.mem_flatMap.mp hm
      exact List.mem_cons_of_mem _ (List.mem_flatMap.mpr ⟨d, hd, ih d hd hm⟩)

theorem Tree.HasNode.of_mem_stored (hn : t.HasNode n) (hm : m ∈ n.stored) : t.HasNode m := by
  induction n using Node.stored_induction with
  | h n ih =>
    rw [Node.stored_eq] at hm
    rcases List.mem_cons.mp hm with rfl | hm
    · exact hn
    · obtain ⟨d, hd, hm⟩ := List.mem_flatMap.mp hm
      exact ih d hd (hn.child hd) hm

/-- All nodes of a tree are listed. -/
theorem Tree.mem_nodes_iff : n ∈ t.nodes ↔ t.HasNode n := by
  constructor
  · exact fun hn => Tree.HasNode.root.of_mem_stored hn
  · intro hn
    induction hn with
    | root => exact t.rootNode.mem_stored_self
    | child _ hc ih => exact Node.mem_stored_of_mem_storedChildren ih hc

/-- The nodes above a node are above all nodes in it. -/
theorem Node.path_suffix_of_mem_stored (hm : m ∈ n.stored) : n.path <:+ m.path := by
  induction n using Node.stored_induction with
  | h n ih =>
    rw [Node.stored_eq] at hm
    rcases List.mem_cons.mp hm with rfl | hm
    · exact List.suffix_rfl
    · obtain ⟨c, hc, hm⟩ := List.mem_flatMap.mp hm
      obtain ⟨k, child, -, -, -, hpath⟩ := Node.exists_of_mem_storedChildren hc
      refine List.IsSuffix.trans ?_ (ih c hc hm)
      rw [hpath]
      exact List.suffix_cons _ _

/-- The address of a node goes on from that of a node that it is in. -/
theorem Node.exists_address_of_mem_stored (hm : m ∈ n.stored) :
    ∃ below, m.address.reverse = n.address.reverse ++ below := by
  obtain ⟨path, hpath⟩ := Node.path_suffix_of_mem_stored hm
  exact ⟨(path.map Descent.index).reverse, by simp [Node.address, ← hpath]⟩

/-- Stored children stand in the order of their indices. -/
theorem Node.pairwise_storedChildren (n : Node) : n.storedChildren.Pairwise fun a b =>
    ∃ i j, i < j ∧ a.address.reverse = n.address.reverse ++ [i] ∧
      b.address.reverse = n.address.reverse ++ [j] := by
  rw [List.pairwise_iff_getElem]
  have haddress (k : Nat) (hk : k < n.storedChildren.length) :
      n.storedChildren[k].address.reverse = n.address.reverse ++ [k] := by
    have hchild := List.getElem?_eq_getElem hk
    rw [Node.getElem?_storedChildren] at hchild
    obtain ⟨child, -, hchild⟩ := Option.map_eq_some_iff.mp hchild
    rw [← hchild]
    simp [Node.address]
  exact fun i j hi hj hij => ⟨i, j, hij, haddress i hi, haddress j hj⟩

/-- Nodes are listed in the order of the document. -/
theorem Node.pairwise_stored (n : Node) : n.stored.Pairwise Node.Precedes := by
  induction n using Node.stored_induction with
  | h n ih =>
    rw [Node.stored_eq, List.pairwise_cons, List.pairwise_flatMap]
    refine ⟨fun m hm => ?_, ih, n.pairwise_storedChildren.imp ?_⟩
    · obtain ⟨c, hc, hm⟩ := List.mem_flatMap.mp hm
      obtain ⟨k, child, -, -, -, hpath⟩ := Node.exists_of_mem_storedChildren hc
      obtain ⟨below, hbelow⟩ := Node.exists_address_of_mem_stored hm
      have hc : c.address.reverse = n.address.reverse ++ [k] := by simp [Node.address, hpath]
      rw [Node.Precedes, hbelow, hc, List.append_assoc]
      nth_rewrite 1 [← List.append_nil n.address.reverse]
      exact List.append_left_lt (List.nil_lt_cons _ _)
    · rintro a b ⟨i, j, hij, ha, hb⟩ x hx y hy
      obtain ⟨p, hp⟩ := Node.exists_address_of_mem_stored hx
      obtain ⟨q, hq⟩ := Node.exists_address_of_mem_stored hy
      rw [Node.Precedes, hp, hq, ha, hb, List.append_assoc, List.append_assoc]
      exact List.append_left_lt (List.cons_lt_cons_iff.mpr (.inl hij))

/-! ## What is reported -/

/-- What is reported of some children is what is reported of each. -/
theorem errorsAll_eq_flatMap (l : Language) (n : Node) (k : Nat) (start : Length)
    (cs : List (Child Subtree)) :
    errorsAll l start cs = (n.place k start cs).flatMap fun c => c.subtree.errorsAt l c.start := by
  induction cs generalizing k start with
  | nil => rfl
  | cons c cs ih => rw [errorsAll, Node.place, List.flatMap_cons, ih (k + 1)]

theorem Node.tree_of_mem_storedChildren (hc : c ∈ n.storedChildren) : c.tree = n.tree := by
  obtain ⟨k, hk⟩ := List.mem_iff_getElem?.mp hc
  rw [Node.getElem?_storedChildren] at hk
  obtain ⟨child, -, rfl⟩ := Option.map_eq_some_iff.mp hk
  rfl

mutual
/-- Nothing is reported exactly if there is no error. -/
theorem errorsAt_eq_nil_iff (l' : Language) (start : Length) : ∀ {t : Subtree},
    Everywhere (Priced l) t → (t.errorsAt l' start = [] ↔ t.hasError = false)
  | .mk info cs, h => by
    rw [errorsAt]
    by_cases hhas : (Subtree.mk info cs).hasError = true
    swap
    · simp [hhas]
    rw [hhas, Bool.not_true, if_neg Bool.false_ne_true]
    by_cases herror : (Subtree.mk info cs).isError = true
    · simp [herror]
    by_cases hmissing : info.missing = true
    · simp [herror, hmissing]
    rw [if_neg herror, if_neg hmissing, errorsAll_eq_nil_iff l' start (everywhere_mk.mp h).2]
    refine ⟨fun hall => ?_, by simp⟩
    -- without errors in the children there is no cost, so no error at all
    rw [← hhas, hasError_eq_false_iff h]
    have hsymbol : info.symbol ≠ errorSymbol :=
      isError_eq_false_iff (t := .mk info cs) |>.mp (by simpa using herror)
    exact everywhere_mk.mpr ⟨⟨hsymbol, by simpa using hmissing⟩, fun c hc =>
      (hasError_eq_false_iff ((everywhere_mk.mp h).2 c hc)).mp (hall c hc)⟩

theorem errorsAll_eq_nil_iff (l' : Language) (start : Length) : ∀ {cs : List (Child Subtree)},
    (∀ c ∈ cs, Everywhere (Priced l) c.node) →
      (errorsAll l' start cs = [] ↔ ∀ c ∈ cs, c.node.hasError = false)
  | [], _ => by simp [errorsAll]
  | ⟨_, t⟩ :: rest, h => by
    obtain ⟨ht, hrest⟩ := List.forall_mem_cons.mp h
    rw [errorsAll, List.append_eq_nil_iff, errorsAt_eq_nil_iff l' start ht,
      errorsAll_eq_nil_iff l' _ hrest, List.forall_mem_cons]
end

/-- Nothing in an error node is an outermost error. -/
theorem Node.isOutermostError_of_isError (he : n.subtree.isError = true)
    (hc : c ∈ n.storedChildren) (hm : m ∈ c.stored) : m.isOutermostError = false := by
  obtain ⟨k, child, -, -, -, hpath⟩ := Node.exists_of_mem_storedChildren hc
  have hsuffix := Node.path_suffix_of_mem_stored hm
  rw [hpath] at hsuffix
  have hmem := hsuffix.subset (List.mem_cons_self (a := (⟨n.subtree, n.start, k, child.field⟩ : Descent)))
  have hall : (m.path.all fun d => !d.parent.isError) = false := by
    rw [List.all_eq_false]
    exact ⟨_, hmem, by simp [he]⟩
  rw [Node.isOutermostError, hall, Bool.and_false]

/-- A node without errors has none in it. -/
theorem isFault_of_mem_stored (h : Everywhere Faultless n.subtree) (hm : m ∈ n.stored) :
    m.subtree.isFault = false := by
  induction n using Node.stored_induction with
  | h n ih =>
    rw [Node.stored_eq] at hm
    rcases List.mem_cons.mp hm with rfl | hm
    · rw [isFault, isError_eq_false_iff.mpr h.here.symbol, h.here.missing]
      rfl
    · obtain ⟨c, hc, hm⟩ := List.mem_flatMap.mp hm
      obtain ⟨k, child, hchild, hsubtree, -⟩ := Node.exists_of_mem_storedChildren hc
      refine ih c hc ?_ hm
      rw [hsubtree]
      exact h.child (List.mem_of_getElem? hchild)

/-- The errors of a node that is not in an error node are the outermost ones in it. -/
theorem Node.errorsAt_eq (n : Node) (h : Everywhere (Priced l) n.subtree)
    (hout : (n.path.all fun d => !d.parent.isError) = true) :
    n.subtree.errorsAt n.tree.language n.start =
      (n.stored.filter Node.isOutermostError).map Node.syntaxError := by
  induction n using Node.stored_induction with
  | h n ih =>
    cases hn : n.subtree with | mk info cs
    have hfault : n.isOutermostError = (Subtree.mk info cs).isFault := by
      rw [Node.isOutermostError, hout, Bool.and_true, hn]
    have hrange : n.range = (Subtree.mk info cs).rangeAt n.start := by rw [Node.range, hn]
    rw [errorsAt]
    rw [hn] at h
    by_cases hhas : (Subtree.mk info cs).hasError = true
    swap
    · -- what is passed over has no error
      rw [if_pos (by simpa using hhas), eq_comm, List.map_eq_nil_iff, List.filter_eq_nil_iff]
      intro m hm
      have hclean := (hasError_eq_false_iff h).mp (by simpa using hhas)
      rw [Node.isOutermostError, isFault_of_mem_stored (hn ▸ hclean) hm]
      simp
    rw [hhas, Bool.not_true, if_neg Bool.false_ne_true, Node.stored_eq, List.filter_cons, hfault]
    by_cases herror : (Subtree.mk info cs).isError = true
    · -- an error node counts with all that is in it
      have hrest : (n.storedChildren.flatMap Node.stored).filter Node.isOutermostError = [] := by
        rw [List.filter_eq_nil_iff]
        intro m hm
        obtain ⟨c, hc, hm⟩ := List.mem_flatMap.mp hm
        simp [Node.isOutermostError_of_isError (hn ▸ herror) hc hm]
      rw [if_pos herror, if_pos (by rw [isFault, herror]; rfl), hrest, List.map_singleton,
        Node.syntaxError, hn, if_pos herror, hrange]
    rw [if_neg herror]
    have herror : (Subtree.mk info cs).isError = false := by simpa using herror
    by_cases hmissing : info.missing = true
    · obtain ⟨rfl, -, -⟩ := h.here.missing hmissing
      have hleaf : n.storedChildren = [] := by rw [Node.storedChildren, hn]; rfl
      rw [if_pos hmissing, if_pos (by rw [isFault, herror]; exact hmissing), hleaf,
        List.flatMap_nil, List.filter_nil, List.map_singleton, Node.syntaxError, hn,
        if_neg (by simp [herror]), hrange, Node.kind, hn]
      rfl
    · have hfault : (Subtree.mk info cs).isFault = false := by
        rw [isFault, herror, Bool.false_or]
        exact Bool.eq_false_iff.mpr hmissing
      rw [if_neg hmissing, hfault, if_neg Bool.false_ne_true,
        errorsAll_eq_flatMap _ n 0, List.filter_flatMap, List.map_flatMap]
      have hchildren : n.place 0 n.start cs = n.storedChildren := by rw [Node.storedChildren, hn]; rfl
      rw [hchildren]
      refine List.flatMap_congr fun c hc => ?_
      obtain ⟨k, child, hchild, hsubtree, -, hpath⟩ := Node.exists_of_mem_storedChildren hc
      rw [← Node.tree_of_mem_storedChildren hc]
      refine ih c hc ?_ ?_
      · rw [hn] at hchild
        rw [hsubtree]
        exact h.child (List.mem_of_getElem? hchild)
      · rw [hpath, List.all_cons, hout, hn, herror]
        rfl

/-- The errors of a tree, in the order of the document and with their places, are its error nodes
and missing tokens, those in another error node apart.  There are none exactly if the tree has no
error, and nothing that is passed over in the search has one. -/
theorem Language.errors_exact {handle : Nat} {grammar : Grammar} {scanner : Option Scanner}
    (h : Language.ofGrammar handle grammar scanner = .ok l) (ht : l.Obtained t)
    (hl : t.language.sameAs l = true) :
    t.errors = (t.nodes.filter Node.isOutermostError).map Node.syntaxError ∧
      (∀ n, n ∈ t.nodes ↔ t.HasNode n) ∧ t.nodes.Pairwise Node.Precedes ∧
      (∀ n, t.HasNode n → n.subtree.info.missing = true → n.subtree.children = []) ∧
      (t.errors = [] ↔ t.hasError = false) ∧
      ∀ n, t.HasNode n → n.subtree.hasError = false → ∀ m ∈ n.stored, m.subtree.isFault = false := by
  obtain ⟨g, -, hg⟩ := Language.ofGrammar_sound h
  have hpriced := ht.priced hg hl
  have herrors : t.errors = (t.nodes.filter Node.isOutermostError).map Node.syntaxError :=
    Node.errorsAt_eq t.rootNode hpriced rfl
  refine ⟨herrors, fun n => Tree.mem_nodes_iff, Node.pairwise_stored _, fun n hn hm => ?_, ?_,
    fun n hn he m hm => ?_⟩
  · exact ((hn.everywhere hpriced).here.missing hm).1
  · exact errorsAt_eq_nil_iff _ _ hpriced
  · exact isFault_of_mem_stored ((hasError_eq_false_iff (hn.everywhere hpriced)).mp he) hm

set_option maxRecDepth 100000 in
theorem Language.errors_exact_hollow : ∃ (l : Language) (t : Tree) (n : Node),
    Language.ofGrammar 0 .hollow none = .ok l ∧ l.Obtained t ∧ t.language.sameAs l = true ∧
    t.HasNode n ∧ n.path ≠ [] ∧ n.subtree.isFault = true ∧ t.errors = [n.syntaxError] := by
  have hparse : (Language.ofGrammar 0 .hollow none).toOption.any (fun l =>
      let t := (l.parse {} (Bytes.ofString "a?d") none).1
      t.language.sameAs l && !t.root.isFault && t.errors.length == 1) = true := by
    decide +kernel
  obtain ⟨l, hl, hparse⟩ := exists_ok hparse
  simp only [Bool.and_eq_true, Bool.not_eq_true', beq_iff_eq] at hparse
  obtain ⟨⟨hsame, hroot⟩, hlength⟩ := hparse
  have ht : l.Obtained (l.parse {} (Bytes.ofString "a?d") none).1 := .parsed (by simp)
  generalize (l.parse {} (Bytes.ofString "a?d") none).1 = t at hsame hroot hlength ht
  obtain ⟨herrors, hnodes, -⟩ := Language.errors_exact hl ht hsame
  rw [herrors, List.length_map] at hlength
  obtain ⟨n, hn⟩ := List.length_eq_one_iff.mp hlength
  rw [hn, List.map_singleton] at herrors
  obtain ⟨hmem, houtermost⟩ := List.mem_filter.mp (hn ▸ List.mem_singleton_self n)
  have hfault := (Bool.and_eq_true_iff.mp houtermost).1
  have hnode := (hnodes n).mp hmem
  refine ⟨l, t, n, hl, ht, hsame, hnode, fun hpath => ?_, hfault, herrors⟩
  cases hnode with
  | root =>
    exact Bool.false_ne_true (hroot.symm.trans hfault)
  | child _ hc =>
    obtain ⟨_, _, -, -, -, hp⟩ := Node.exists_of_mem_storedChildren hc
    exact List.cons_ne_nil _ _ (hp.symm.trans hpath)

end Glr
