import Glr.Proofs.FlatGrammar.Names
import Glr.Proofs.Parse.Fresh

/-!
# Glr.Proofs.Navigation

What steps down to children come to in the tree of a parse.  Nodes of hidden rules give way to
their own children, so from the root on

```
visible node   →   visible child   →   …   →   visible leaf
```

nothing is missed.  A node of a hidden rule keeps its children until a visible node is built
around it; where an alias has made it visible before that, they are never spliced.
-/

namespace Glr

open Parse Subtree

variable {g : FlatGrammar} {l : Language} {text : Bytes} {old : Option Tree} {v : Version}
  {u : Subtree} {t : Tree}

/-! ## The root -/

/-- The start rule is shown, whatever its name is. -/
theorem FlatGrammar.start_shown {grammar : Grammar} (h : FlatGrammar.ofGrammar grammar = .ok g)
    (hs : g.isTerminal g.start = false) :
    ∃ name, g.symbols[g.start]? = some ⟨name, true, true, .nonterminal⟩ := by
  obtain ⟨start, r, f, -, -, hrun⟩ := ofGrammar_eq_ok h
  obtain ⟨s₁, s₂, s₃, s, hstages, hlook, hrules, hsymbols, -⟩ := Flatten.grammar_eq_ok hrun
  have hgrows := (Flatten.rules_spec hstages.sound hrules).grows
  have hno : ¬IsToken s.symbols g.start := fun htoken => by
    rw [isTerminal_of_isToken (hsymbols ▸ hgrows.isToken htoken)] at hs
    contradiction
  obtain ⟨-, hinfo⟩ := hstages.names.of_not_isToken hlook hno
  rw [hsymbols, hgrows _ _ hinfo, beq_self_eq_true, Bool.true_or]
  exact ⟨start, rfl⟩

namespace Parse

/-- A symbol that the root of a tree may have. -/
def IsRoot (l : Language) (s : Symbol) : Prop := s = errorSymbol ∨ s = l.table.startSymbol

theorem isRoot_rootOf (l : Language) (ts : List Subtree) (cost : Nat) :
    IsRoot l (rootOf l ts cost).symbol := by
  unfold rootOf
  split
  · split
    · exact .inr ‹_›
    · exact .inl rfl
  · exact .inl rfl

theorem Halts.isRoot {events : List Event} {f : Finished} (h : Halts l v u events f) :
    IsRoot l f.root.symbol := by
  cases h with
  | accept => exact isRoot_rootOf _ _ _
  | noRecovery => exact .inl rfl
  | limit => exact .inl rfl

theorem Ends.isRoot {events : List Event} {f : Finished} (h : Ends l v u events f) :
    IsRoot l f.root.symbol := by
  cases h with
  | now h => exact h.isRoot
  | flush _ _ h => exact h.isRoot

end Parse

/-- The root of every tree is the start node or an error. -/
theorem Language.isRoot_parse (hg : l.Sound g) (limits : Limits) (text : Bytes)
    (hold : ∀ t, old = some t → l.Obtained t) :
    IsRoot l (l.parse limits text old).1.root.symbol := by
  rw [Language.tree_parse]
  have hstart : Run.Reached l text old (l.startRun text old) := .start
  obtain ⟨r, hr, htree⟩ := hstart.exists_tree limits (Run.stepBound text)
  obtain ⟨-, hfinished⟩ := hr.invariant hg (covers_anyText text)
    (fun t ht hl => (hold t ht).kept hg hl) (P := fun _ => True)
    (Q := fun f => IsRoot l f.root.symbol) (fun _ _ => trivial) (fun _ _ _ _ _ _ => trivial)
    (fun _ _ _ _ _ _ _ => trivial) fun _ _ _ _ _ _ _ he => he.isRoot
  rcases htree with ⟨f, hf, htree⟩ | htree
  · rw [htree]
    exact hfinished f hf
  · rw [htree]
    exact .inl rfl

/-- The root of every tree is visible. -/
theorem Language.visible_root {grammar : Grammar} (hflat : FlatGrammar.ofGrammar grammar = .ok g)
    (hstart : g.isTerminal g.start = false) (hg : l.Sound g) (limits : Limits) (text : Bytes)
    (hold : ∀ t, old = some t → l.Obtained t) :
    (l.parse limits text old).1.root.info.visible = true := by
  rw [(Language.fresh_parse hg limits text hold).here.visible]
  rcases Language.isRoot_parse hg limits text hold with hroot | hroot
  · exact (congrArg l.isVisible hroot).trans (isVisible_errorSymbol l)
  · obtain ⟨name, hinfo⟩ := FlatGrammar.start_shown hflat hstart
    refine (congrArg l.isVisible hroot).trans ?_
    rw [Language.isVisible, Language.info?, hg.symbols, hg.startSymbol, hinfo]
    simp

/-! ## Leaves as nodes -/

/-- The node as a leaf. -/
def Node.leaf (n : Node) : Leaf := ⟨n.subtree.symbol, n.range, n.subtree.info.missing⟩

theorem Node.mem_leavesAll_iff {n : Node} {leaf : Leaf} {start : Length} {k : Nat}
    {cs : List (Child Subtree)} : leaf ∈ leavesAll start cs ↔
      ∃ c ∈ n.place k start cs, leaf ∈ c.subtree.leavesAt c.start := by
  induction cs generalizing start k with
  | nil => simp [leavesAll, Node.place]
  | cons c cs ih =>
    rw [leavesAll, Node.place, List.mem_append, List.exists_mem_cons_iff]
    exact or_congr_right ih

mutual
/-- A leaf in a node is a node of the tree. -/
theorem Tree.HasNode.exists_leaf {n : Node} {leaf : Leaf} (hn : t.HasNode n) :
    ∀ {u : Subtree}, n.subtree = u → leaf ∈ u.leavesAt n.start →
      ∃ m, t.HasNode m ∧ m.subtree.children = [] ∧ leaf = m.leaf
  | .mk i [], hu, hleaf => by
    refine ⟨n, hn, by rw [hu]; rfl, ?_⟩
    rw [List.mem_singleton.mp hleaf, Node.leaf, Node.range, hu]
    rfl
  | .mk i (c :: cs), hu, hleaf => by
    have hchildren : ∀ m ∈ n.place 0 n.start (c :: cs), t.HasNode m := fun m hm => by
      refine hn.child ?_
      rw [Node.storedChildren, hu]
      exact hm
    exact Tree.HasNode.exists_leafAll hchildren hleaf

theorem Tree.HasNode.exists_leafAll {n : Node} {leaf : Leaf} {start : Length} {k : Nat} :
    ∀ {cs : List (Child Subtree)}, (∀ m ∈ n.place k start cs, t.HasNode m) →
      leaf ∈ leavesAll start cs → ∃ m, t.HasNode m ∧ m.subtree.children = [] ∧ leaf = m.leaf
  | [], _, hleaf => by simp [leavesAll] at hleaf
  | ⟨field, u⟩ :: rest, hn, hleaf => by
    rw [Node.place, List.forall_mem_cons] at hn
    rcases List.mem_append.mp hleaf with hleaf | hleaf
    · exact hn.1.exists_leaf rfl hleaf
    · exact Tree.HasNode.exists_leafAll hn.2 hleaf
end

/-- The leaves of a node are leaves of its tree. -/
theorem Tree.HasNode.mem_leaves {n : Node} {leaf : Leaf} (hn : t.HasNode n)
    (hleaf : leaf ∈ n.subtree.leavesAt n.start) : leaf ∈ t.leaves := by
  induction hn with
  | root => exact hleaf
  | @child m c _ hc ih =>
    refine ih ?_
    have hall := (Node.mem_leavesAll_iff (n := m)).mpr ⟨c, hc, hleaf⟩
    generalize m.subtree = u at hall
    obtain ⟨i, _ | ⟨d, cs⟩⟩ := u
    · simp [Subtree.children, leavesAll] at hall
    · exact hall

/-- The leaves of a tree are its nodes without children. -/
theorem Tree.mem_leaves_iff {leaf : Leaf} : leaf ∈ t.leaves ↔
    ∃ n, t.HasNode n ∧ n.subtree.children = [] ∧ leaf = n.leaf := by
  refine ⟨fun h => Tree.HasNode.root.exists_leaf rfl h, ?_⟩
  rintro ⟨n, hn, hchildren, rfl⟩
  refine hn.mem_leaves ?_
  obtain ⟨t', ⟨i, cs⟩, start, path⟩ := n
  obtain rfl : cs = [] := hchildren
  exact List.mem_singleton_self _

/-! ## Steps down -/

/-- The nodes that steps down to children come to from the root. -/
inductive Tree.Reaches (t : Tree) : Node → Prop where
  | root : t.Reaches t.rootNode
  | child {n c : Node} {i : Nat} (h : t.Reaches n) (hc : n.child? i = some c) : t.Reaches c

theorem Tree.Reaches.of_mem {n c : Node} (h : t.Reaches n) (hc : c ∈ n.storedChildren)
    (hv : c.subtree.info.visible = true) : t.Reaches c := by
  have hmem : c ∈ n.children := List.mem_filter.mpr ⟨hc, hv⟩
  obtain ⟨i, hi⟩ := List.mem_iff_getElem?.mp hmem
  exact .child h hi

/-- What a node hides is its hidden tokens, unless it was made visible by an alias. -/
theorem Tree.HasNode.isHidden_eq_false (hf : Everywhere (Fresh g l) t.root) {n c : Node}
    (hn : t.HasNode n) (hv : n.subtree.info.visible = true)
    (hveil : ¬g.Unveiled l n.subtree.symbol) (hc : c ∈ n.storedChildren) :
    isHidden l c.subtree = false := by
  obtain ⟨k, child, hchild, hsubtree, -⟩ := Node.exists_of_mem_storedChildren hc
  rw [hsubtree]
  exact ((hn.everywhere hf).here.shown hv).resolve_left hveil child (List.mem_of_getElem? hchild)

/-- Below nodes that no alias made visible all visible nodes are reached. -/
theorem Tree.HasNode.reaches (hf : Everywhere (Fresh g l) t.root)
    (hroot : t.root.info.visible = true) {n : Node} (hn : t.HasNode n)
    (habove : ∀ d ∈ n.path, ¬g.Unveiled l d.parent.symbol) :
    isHidden l n.subtree = false ∧ (n.subtree.info.visible = true → t.Reaches n) := by
  induction hn with
  | root => exact ⟨by simp [Tree.rootNode, isHidden, hroot], fun _ => .root⟩
  | @child m c hm hc ih =>
    obtain ⟨k, child, hchild, -, -, hpath⟩ := Node.exists_of_mem_storedChildren hc
    rw [hpath, List.forall_mem_cons] at habove
    obtain ⟨hshown, hreaches⟩ := ih habove.2
    -- a node with children is visible or hidden
    have hvisible : m.subtree.info.visible = true := by
      have hne : m.subtree.children ≠ [] := List.ne_nil_of_mem (List.mem_of_getElem? hchild)
      rcases (hm.everywhere hf).here.inner hne with hv | hrule
      · exact hv
      · simpa [isHidden, Subtree.symbol, hrule] using hshown
    exact ⟨hm.isHidden_eq_false hf hvisible habove.1 hc, (hreaches hvisible).of_mem hc⟩

/-- Hidden rules are spliced, so steps down to children miss nothing.  A visible node has no node
of a hidden rule among its children, and every visible node, whether it has children or is one of
the leaves, is reached from the root.  Only below a hidden rule that an alias has made visible
this fails. -/
theorem Language.splices_hidden {handle : Nat} {grammar : Grammar} {scanner : Option Scanner}
    (h : Language.ofGrammar handle grammar scanner = .ok l) (limits : Limits) (text : Bytes)
    (hold : ∀ t, old = some t → l.Obtained t) {events : List Event}
    (hp : l.parse limits text old = (t, events)) :
    ∃ g, FlatGrammar.ofGrammar grammar = .ok g ∧
      (∀ n, t.HasNode n → n.subtree.info.visible = true → ¬g.Unveiled l n.subtree.symbol →
        ∀ c ∈ n.storedChildren, isHidden l c.subtree = false) ∧
      (∀ n, t.HasNode n → n.subtree.info.visible = true →
        (∀ d ∈ n.path, ¬g.Unveiled l d.parent.symbol) → t.Reaches n) ∧
      ∀ leaf, leaf ∈ t.leaves ↔ ∃ n, t.HasNode n ∧ n.subtree.children = [] ∧ leaf = n.leaf := by
  obtain ⟨g, hflat, hstart, -, hg⟩ := Language.ofGrammar_table h
  obtain rfl : (l.parse limits text old).1 = t := congrArg Prod.fst hp
  have hfresh := Language.fresh_parse hg limits text hold
  have hroot := Language.visible_root hflat hstart hg limits text hold
  exact ⟨g, hflat, fun n hn hv hveil c hc => hn.isHidden_eq_false hfresh hv hveil hc,
    fun n hn hv habove => (hn.reaches hfresh hroot habove).2 hv, fun leaf => Tree.mem_leaves_iff⟩

/-- Without aliases no hidden rule is made visible. -/
theorem FlatGrammar.not_unveiled (h : ∀ p ∈ g.productions, ∀ st ∈ p.steps, st.label = none)
    (s : Symbol) : ¬g.Unveiled l s := by
  intro hs
  cases hs with
  | hidden hp hst hs =>
    rw [h _ hp _ hst] at hs
    contradiction
  | again hp hst hs =>
    rw [h _ hp _ hst] at hs
    contradiction

set_option maxRecDepth 100000 in
theorem Language.splices_hidden_hollow : ∃ l t events, Language.ofGrammar 0 .hollow none = .ok l ∧
    l.parse {} (Bytes.ofString "bmne") none = (t, events) ∧ t.leaves.length = 4 ∧
    ∀ leaf ∈ t.leaves, ∃ n, t.HasNode n ∧ leaf = n.leaf ∧
      (n.subtree.info.visible = true → t.Reaches n) := by
  have h : (Language.ofGrammar 0 .hollow none).toOption.any (fun l =>
      (l.parse {} (Bytes.ofString "bmne") none).1.leaves.length == 4) = true := by
    decide +kernel
  have hlabels : (FlatGrammar.ofGrammar .hollow).toOption.any (fun g =>
      g.productions.all fun p => p.steps.all fun st => st.label.isNone) = true := by
    decide +kernel
  obtain ⟨l, hl, hcount⟩ := exists_ok h
  obtain ⟨g, hflat, -, hreaches, hleaves⟩ := Language.splices_hidden hl {} (Bytes.ofString "bmne")
    (show ∀ t, none = some t → l.Obtained t by simp) (Prod.eta _).symm
  obtain ⟨g', hflat', hlabels⟩ := exists_ok hlabels
  obtain rfl := Except.ok.inj (hflat.symm.trans hflat')
  have hveil (s : Symbol) : ¬g.Unveiled l s := by
    refine FlatGrammar.not_unveiled (fun p hp st hst => ?_) s
    simp only [Array.all_eq_true', List.all_eq_true, Option.isNone_iff_eq_none] at hlabels
    exact hlabels p hp st hst
  refine ⟨l, _, _, hl, (Prod.eta _).symm, by simpa using hcount, fun leaf hleaf => ?_⟩
  obtain ⟨n, hn, -, rfl⟩ := (hleaves leaf).mp hleaf
  exact ⟨n, hn, rfl, fun hv => hreaches n hn hv fun d _ => hveil _⟩

/-- Some letters under a name of their own. -/
def Grammar.letters : Grammar :=
  { name := "letters", extras := some [] : Grammar }
    |>.addRule "s" (.seq [.renamed (.many (.string "a")) "q" true, .string ";"])

-- the node of the letters keeps the hidden node of the repetition, so no letter is reached
set_option maxRecDepth 100000 in
example : (Language.ofGrammar 0 .letters none).toOption.any (fun l =>
    let t := (l.parse {} (Bytes.ofString "aaaa;") none).1
    t.leaves.length == 5 && (t.rootNode.child? 0).any fun n =>
      n.kind == "q" && n.endByte == 4 && n.childCount == 0) = true := by
  decide +kernel

end Glr
