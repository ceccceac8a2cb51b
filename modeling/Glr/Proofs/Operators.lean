import Glr.Proofs.Parse.Ordered

/-!
# Glr.Proofs.Operators

The trees of a grammar of infix operators.  A node of an operator has its operands as children,
with the token of the operator between them and extras anywhere; without errors in the tree,

```
      o                      o
     / \        left            \      right        a node of o' is there only if
    o'  …                        o'                 o allows it
```
-/

namespace Glr

open Parse Subtree Automaton

variable {g : FlatGrammar} {l : Language} {start : String} {ops : List Operator}
  {o o' : Operator} {d left right : Derivation} {ds below : List Derivation} {t : Symbol}
  {p : Production} {u : Subtree} {ts : List Subtree}

/-! ## Nodes that show derivations -/

theorem Language.Sound.kindOf_eq (hg : l.Sound g) (ht : t < g.symbols.size) :
    l.kindOf t = g.name t := by
  have hne : t ≠ errorSymbol := Nat.ne_of_lt (Nat.lt_of_lt_of_le ht hg.grammar.size_le)
  rw [Language.kindOf, Language.symbolName?, if_neg hne, Language.info?, hg.symbols,
    FlatGrammar.name, Array.getElem?_eq_getElem ht]
  rfl

namespace Parse

/-- Steps without labels show the nodes as they are. -/
theorem Dressed.map_node {steps : List Step} {cs : List (Child Subtree)}
    (h : Dressed l steps ts cs) (hlabels : ∀ st ∈ steps, st.label = none) :
    cs.map Child.node = ts := by
  induction h with
  | nil => rfl
  | extra _ _ ih => rw [List.map_cons, ih hlabels]
  | @step st _ _ _ _ _ _ ih =>
    rw [List.map_cons, ih fun st' hst' => hlabels st' (by simp [hst']), shownBy,
      hlabels st (by simp)]

/-- Every derivation is shown by a node of its own. -/
theorem Clean.forall₂ (h : Clean g l ds ts) :
    List.Forall₂ (fun d t => Clean g l [d] [t]) ds (ts.filter fun t => !t.info.extra) := by
  induction h with
  | nil => exact .nil
  | extra hx _ ih => rwa [List.filter_cons_of_neg (by simp [hx.extra])]
  | @token i _ _ ht _ ih =>
    rw [List.filter_cons_of_pos (by simp [Subtree.info, ht.extra])]
    exact .cons (.token ht .nil) ih
  | node hs hc hb hcs _ _ ih =>
    rw [List.filter_cons_of_pos rfl]
    exact .cons (.node hs hc hb hcs .nil) ih

/-- What is not a leaf shows a derivation. -/
theorem Clean.exists_of_mem (h : Clean g l ds ts) (hu : u ∈ ts) :
    u.children = [] ∨ ∃ p below, .node p below ∈ ds ∧ Clean g l [.node p below] [u] := by
  induction h with
  | nil => simp at hu
  | extra hx _ ih =>
    rcases List.mem_cons.mp hu with rfl | hu
    · exact .inl hx.leaf
    · exact ih hu
  | token ht _ ih =>
    rcases List.mem_cons.mp hu with rfl | hu
    · exact .inl rfl
    · exact (ih hu).imp_right fun ⟨p, below, hm, hc⟩ => ⟨p, below, by simp [hm], hc⟩
  | @node p below _ _ _ _ _ hs hc hb hcs _ _ ih =>
    rcases List.mem_cons.mp hu with rfl | hu
    · exact .inr ⟨p, below, by simp, .node hs hc hb hcs .nil⟩
    · exact (ih hu).imp_right fun ⟨p, below, hm, hc⟩ => ⟨p, below, by simp [hm], hc⟩

theorem Clean.symbol_token (h : Clean g l [.token t] [u]) : u.symbol = t := by
  cases h with
  | extra _ h => cases h
  | token => rfl

section

variable (hg : l.Sound g) (hops : g.Infix start ops)

include hg hops

theorem isVisible_start : l.isVisible g.start = true := by
  simp [Language.isVisible, Language.info?, hg.symbols, hops.start]

/-- The nodes of operands and tokens stay where they are. -/
theorem Clean.isHidden_eq_false (h : Clean g l ds ts)
    (hds : ∀ p below, .node p below ∈ ds → p.lhs = g.start) :
    ∀ u ∈ ts, isHidden l u = false := by
  induction h with
  | nil => simp
  | extra hx _ ih =>
    intro u hu
    rcases List.mem_cons.mp hu with rfl | hu
    · exact ExtraOrError.isHidden_eq_false hg (.token hx)
    · exact ih hds u hu
  | token ht _ ih =>
    intro u hu
    rcases List.mem_cons.mp hu with rfl | hu
    · have hterminal := hg.isNonterminal_eq_false (FlatGrammar.isTerminal_of_isToken ht.token)
      simp [isHidden, Subtree.symbol, Subtree.info, hterminal]
    · exact ih (fun p below hm => hds p below (by simp [hm])) u hu
  | @node p below _ _ spec _ _ hs _ _ _ _ _ ih =>
    intro u hu
    rcases List.mem_cons.mp hu with rfl | hu
    · have hvisible := isVisible_start hg hops
      rw [← hds p below (by simp), ← hs] at hvisible
      simp [isHidden, Subtree.node, Subtree.info, hvisible]
    · exact ih (fun p below hm => hds p below (by simp [hm])) u hu

/-- The children of a node show what stands below its derivation. -/
theorem Clean.children (h : Clean g l [.node p below] [u])
    (hd : (Derivation.node p below).Nested g ops) :
    Clean g l below (u.children.map Child.node) := by
  have hlhs : p.lhs = g.start := hd.symbol
  have hlabels : ∀ st ∈ p.steps, st.label = none := by
    cases hd with
    | operator => simp [Operator.production]
    | atom => simp [Production.ofToken, Flatten.production, Flatten.single]
  have hbelow (q : Production) (ds : List Derivation) (hm : .node q ds ∈ below) :
      q.lhs = g.start := (hd.of_mem hm).symbol
  cases h with
  | extra _ h => cases h
  | @node _ _ nodes cs spec _ _ hs _ hshown hcs _ =>
    have hnodes := hcs.map_node hlabels
    have hvisible : l.isVisible spec.symbol = true := by
      rw [hs, hlhs]
      exact isVisible_start hg hops
    have hchildren : (Subtree.node l spec cs).children = cs := by
      have hself : spliceAll l none [] cs = cs := by
        refine spliceAll_eq_self fun c hc => ?_
        refine Clean.isHidden_eq_false hg hops hshown hbelow _ ?_
        rw [← hnodes]
        exact List.mem_map_of_mem hc
      simp [Subtree.node, hvisible, Subtree.children, hself]
    rw [hchildren, hnodes]
    exact hshown

end

end Parse

/-! ## Nodes of operators -/

/-- The operands of a node of an operator: its children that are no extras, with a token of the
operator between them. -/
def Node.operands? (n : Node) (kind op : String) : Option (Node × Node) :=
  match n.children.filter fun c => !c.subtree.info.extra with
  | [left, token, right] => if n.kind = kind ∧ token.kind = op then some (left, right) else none
  | _ => none

theorem Node.children_of_operands? {n left right : Node} {kind op : String}
    (h : n.operands? kind op = some (left, right)) : ∃ token : Node, token.kind = op ∧
      n.children.filter (fun c => !c.subtree.info.extra) = [left, token, right] := by
  unfold operands? at h
  split at h
  · rename_i left' token right' hchildren
    split at h
    · rename_i hkinds
      obtain ⟨rfl, rfl⟩ := Prod.mk.inj (Option.some.inj h)
      exact ⟨token, hkinds.2, hchildren⟩
    · contradiction
  · contradiction

theorem Node.of_mem_place {n c : Node} {i : Nat} {place : Length} {cs : List (Child Subtree)}
    (h : c ∈ n.place i place cs) : c.tree = n.tree ∧ c.subtree ∈ cs.map Child.node := by
  induction cs generalizing i place with
  | nil => simp [Node.place] at h
  | cons child cs ih =>
    rcases List.mem_cons.mp h with rfl | h
    · exact ⟨rfl, by simp⟩
    · exact (ih h).imp_right fun hm => by simp [hm]

/-- The operands of a node are those of its derivation. -/
theorem Node.joinedBy_of_operands? (hg : l.Sound g) (hops : g.Infix start ops)
    {n left right : Node} {kind : String} (hl : n.tree.language = l) (hd : d.Nested g ops)
    (h : Clean g l [d] [n.subtree]) (ho : o ∈ ops)
    (hj : n.operands? kind o.literal = some (left, right)) :
    ∃ t dl dr, g.Operates ops o t ∧ d = .node (o.production g.start t) [dl, .token t, dr] ∧
      Clean g l [dl] [left.subtree] ∧ Clean g l [dr] [right.subtree] ∧
      left.tree.language = l ∧ right.tree.language = l := by
  obtain ⟨token, htoken, hchildren⟩ := Node.children_of_operands? hj
  obtain ⟨p, below, rfl⟩ := hd.eq_node
  have hall := (Clean.children hg hops h hd).forall₂
  -- the operands and the token are among the children that show something
  have hsublist : [left.subtree, token.subtree, right.subtree].Sublist
      ((n.subtree.children.map Child.node).filter fun t => !t.info.extra) := by
    have hmap := n.map_subtree_place 0 n.start n.subtree.children
    rw [← hmap, List.filter_map,
      show [left.subtree, token.subtree, right.subtree] = [left, token, right].map Node.subtree
        from rfl, ← hchildren]
    exact ((List.filter_sublist (l := n.storedChildren)).filter _).map _
  have hlength := hsublist.length_le
  rw [← hall.length_eq] at hlength
  have hlanguage {c : Node} (hc : c ∈ [left, token, right]) : c.tree.language = l := by
    rw [← hchildren] at hc
    rw [(Node.of_mem_place (List.mem_filter.mp (List.mem_filter.mp hc).1).1).1, hl]
  cases hd with
  | atom => simp at hlength
  | @operator o' t dl dr ho' =>
    rw [← hsublist.eq_of_length (by rw [← hall.length_eq]; rfl)] at hall
    obtain ⟨hleft, hmiddle, hright⟩ := by simpa using hall
    have hname : token.kind = o'.literal := by
      obtain ⟨info, hinfo, -⟩ := ho'.token
      rw [Node.kind, hlanguage (by simp), Clean.symbol_token hmiddle,
        hg.kindOf_eq (Array.getElem?_eq_some_iff.mp hinfo).1, ho'.named]
    obtain rfl : o = o' := Operator.eq_of_literal_eq hops.distinct ho ho'.mem
      (htoken.symm.trans hname)
    exact ⟨t, dl, dr, ho', rfl, hleft, hright, hlanguage (by simp), hlanguage (by simp)⟩

/-- Below a nested derivation every node is a leaf or shows a nested derivation. -/
theorem Tree.HasNode.nested (hg : l.Sound g) (hops : g.Infix start ops) {tree : Tree}
    (hl : tree.language = l) (hd : d.Nested g ops) (h : Clean g l [d] [tree.root]) {n : Node}
    (hn : tree.HasNode n) : n.tree.language = l ∧
      (n.subtree.children = [] ∨ ∃ d, d.Nested g ops ∧ Clean g l [d] [n.subtree]) := by
  induction hn with
  | root => exact ⟨hl, .inr ⟨d, hd, h⟩⟩
  | @child n c _ hc ih =>
    obtain ⟨htree, hmem⟩ := Node.of_mem_place hc
    obtain ⟨hlanguage, hleaf | ⟨d, hd, h⟩⟩ := ih
    · simp [hleaf] at hmem
    · refine ⟨by rw [htree, hlanguage], ?_⟩
      obtain ⟨p, below, rfl⟩ := hd.eq_node
      refine ((Clean.children hg hops h hd).exists_of_mem hmem).imp_right ?_
      rintro ⟨q, ds, hm, hc⟩
      exact ⟨_, hd.of_mem hm, hc⟩

/-! ## Trees without errors -/

/-- In a tree without errors of a grammar of infix operators, an operand that is a node of an
operator itself binds tighter, or as tight and the operators associate to its side.  (Where
operators of one level associate to one side, that is the side of both.) -/
theorem Language.operators_nest {handle : Nat} {grammar : Grammar} {scanner : Option Scanner}
    (h : Language.ofGrammar handle grammar scanner = .ok l) (hops : grammar.Infix start ops)
    (limits : Limits) (text : Bytes) (herror : (l.parse limits text none).1.hasError = false)
    {n left right : Node} (hn : (l.parse limits text none).1.HasNode n) (ho : o ∈ ops)
    (hj : n.operands? start o.literal = some (left, right)) (ho' : o' ∈ ops) :
    ((right.operands? start o'.literal).isSome = true →
      o.level < o'.level ∨ o.level = o'.level ∧ o.associativity = .right) ∧
    ((left.operands? start o'.literal).isSome = true →
      o.level < o'.level ∨ o.level = o'.level ∧ o'.associativity = .left) := by
  obtain ⟨g, hflat, hstart, htable, hg⟩ := Language.ofGrammar_table h
  have hops := hops.flat hflat hstart
  have hlanguage := (Language.result_parse hg (covers_anyText text) (by simp)
    (Prod.eta (l.parse limits text none)).symm).language
  -- the root is an outcome
  obtain ⟨d, hd, hclean⟩ : ∃ d, d.Nested g ops ∧
      Clean g l [d] [(l.parse limits text none).1.root] := by
    rw [Language.tree_parse] at herror ⊢
    have hcomplete := Run.complete_of_hasError limits _ herror
    obtain ⟨r, hr, f, hf, hroot⟩ := Run.Reached.start.exists_finished limits _ hcomplete
    rw [hroot]
    exact hr.nested hg hops htable f hf (by rw [← hroot]; exact herror)
  obtain ⟨hl, hleaf | ⟨d, hd, hclean⟩⟩ := hn.nested hg hops hlanguage hd hclean
  · -- a leaf has no operands
    have hnone : n.operands? start o.literal = none := by
      simp [Node.operands?, Node.children, Node.storedChildren, hleaf, Node.place]
    rw [hnone] at hj
    contradiction
  · obtain ⟨t, dl, dr, hop, rfl, hleft, hright, hll, hlr⟩ :=
      Node.joinedBy_of_operands? hg hops hl hd hclean ho hj
    obtain ⟨hdl, hdr, hallowsLeft, hallowsRight⟩ := hd.operands hops hop
    constructor
    · intro hj'
      obtain ⟨_, hj'⟩ := Option.isSome_iff_exists.mp hj'
      obtain ⟨t', _, _, hop', rfl, -⟩ := Node.joinedBy_of_operands? hg hops hlr hdr hright ho' hj'
      exact hallowsRight o' ⟨t', _, hop', rfl⟩
    · intro hj'
      obtain ⟨_, hj'⟩ := Option.isSome_iff_exists.mp hj'
      obtain ⟨t', _, _, hop', rfl, -⟩ := Node.joinedBy_of_operands? hg hops hll hdl hleft ho' hj'
      exact hallowsLeft o' ⟨t', _, hop', rfl⟩

/-- Differences and products of one letter. -/
def Operator.differences : List Operator := [⟨"-", 1, .left⟩, ⟨"*", 2, .left⟩]

def Grammar.differences : Grammar :=
  { name := "differences", extras := some [] : Grammar }
    |>.addRule "e" (.choice (Operator.differences.map (·.rule "e") ++ [.string "x"]))

theorem Grammar.infix_differences : Grammar.differences.Infix "e" Operator.differences where
  startRule := rfl
  distinct := by decide
  members := by
    refine ⟨_, rfl, fun m hm => ?_⟩
    rcases List.mem_append.mp hm with hm | hm
    · obtain ⟨o, ho, rfl⟩ := List.mem_map.mp hm
      exact .inl ⟨o, ho, rfl⟩
    · rw [List.mem_singleton.mp hm]
      exact .inr (.inl rfl)

set_option maxRecDepth 100000 in
theorem Language.operators_nest_differences : ∃ (l : Language) (n left right : Node),
    Language.ofGrammar 0 .differences none = .ok l ∧
    Grammar.differences.Infix "e" Operator.differences ∧
    (l.parse {} (Bytes.ofString "x-x*x") none).1.hasError = false ∧
    (l.parse {} (Bytes.ofString "x-x*x") none).1.HasNode n ∧
    n.operands? "e" "-" = some (left, right) ∧ (right.operands? "e" "*").isSome = true ∧
    ((1 : Int32) < 2 ∨ (1 : Int32) = 2 ∧ Associativity.left = .right) := by
  have hparse : (Language.ofGrammar 0 .differences none).toOption.any (fun l =>
      !(l.parse {} (Bytes.ofString "x-x*x") none).1.hasError &&
        ((l.parse {} (Bytes.ofString "x-x*x") none).1.rootNode.operands? "e" "-").any fun e =>
          (e.2.operands? "e" "*").isSome) = true := by
    decide +kernel
  obtain ⟨l, hl, hparse⟩ := exists_ok hparse
  simp only [Bool.and_eq_true, Bool.not_eq_true', Option.any_eq_true] at hparse
  obtain ⟨herror, ⟨left, right⟩, hj, hj'⟩ := hparse
  have hminus : ⟨"-", 1, .left⟩ ∈ Operator.differences := by decide
  have htimes : ⟨"*", 2, .left⟩ ∈ Operator.differences := by decide
  have hnest := Language.operators_nest hl Grammar.infix_differences {} (Bytes.ofString "x-x*x")
    herror .root hminus hj htimes
  exact ⟨l, _, left, right, hl, Grammar.infix_differences, herror, .root, hj, hj', hnest.1 hj'⟩

end Glr
