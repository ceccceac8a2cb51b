import Glr.Tree.Node

/-!
# Glr.Proofs.Tree.Layout

How the nodes of a tree lie in a text.  A tree is laid out from an offset on when
every inner node is as long as its children, which stand one after another, and
every leaf is one that may stand where it does:

```
Laid A start (leaf)       =  A start leaf
Laid A start (node cs)    =  size = Σ sizes of cs  ∧  cs laid out from start on
```

What a leaf may be is a parameter, so that one set of lemmas serves trees that fit
a text and trees that only fit together.
-/

namespace Glr

namespace Subtree

/-- What a leaf may be at an offset. -/
abbrev LeafRule := Nat → NodeInfo → Prop

mutual
/-- The node is laid out from an offset on. -/
def Laid (A : LeafRule) (start : Nat) : Subtree → Prop
  | .mk info [] => A start info
  | .mk info (c :: cs) => info.size = (Sum.of (c :: cs)).size ∧ LaidAll A start (c :: cs)
/-- Some children are laid out from an offset on, one after another. -/
def LaidAll (A : LeafRule) (start : Nat) : List (Child Subtree) → Prop
  | [] => True
  | ⟨_, t⟩ :: rest => Laid A start t ∧ LaidAll A (start + t.size.bytes) rest
end

/-- The length of some nodes, one after another. -/
def span : List Subtree → Length
  | [] => Length.zero
  | t :: ts => t.size + span ts

/-- Some nodes are laid out from an offset on, one after another. -/
def LaidList (A : LeafRule) (start : Nat) : List Subtree → Prop
  | [] => True
  | t :: ts => Laid A start t ∧ LaidList A (start + t.size.bytes) ts

variable {A : LeafRule} {start : Nat} {l : Language}

/-! ## One after another -/

@[simp] theorem span_nil : span [] = Length.zero := rfl

@[simp] theorem span_cons (t : Subtree) (ts : List Subtree) : span (t :: ts) = t.size + span ts :=
  rfl

theorem span_append (ts us : List Subtree) : span (ts ++ us) = span ts + span us := by
  induction ts with
  | nil => simp
  | cons t ts ih => rw [List.cons_append, span_cons, ih, span_cons, Length.add_assoc]

theorem span_singleton (t : Subtree) : span [t] = t.size := Length.add_zero _

@[simp] theorem bytes_zero : Length.zero.bytes = 0 := rfl

theorem laidList_append {ts us : List Subtree} :
    LaidList A start (ts ++ us) ↔
      LaidList A start ts ∧ LaidList A (start + (span ts).bytes) us := by
  induction ts generalizing start with
  | nil => simp [LaidList]
  | cons t ts ih =>
    rw [List.cons_append, LaidList, ih, LaidList, span_cons, Length.bytes_add, and_assoc,
      Nat.add_assoc]

theorem laidList_singleton {t : Subtree} : LaidList A start [t] ↔ Laid A start t := by
  simp [LaidList]

theorem exists_laid_of_mem {ts : List Subtree} (h : LaidList A start ts) {t : Subtree}
    (ht : t ∈ ts) : ∃ s, Laid A s t := by
  induction ts generalizing start with
  | nil => contradiction
  | cons u us ih =>
    rcases List.mem_cons.mp ht with rfl | ht
    · exact ⟨start, h.1⟩
    · exact ih h.2 ht

/-- A node can take the place of some nodes that it is as long as. -/
theorem laidList_replace {ts us vs : List Subtree} {t : Subtree}
    (h : LaidList A start (ts ++ (us ++ vs))) (ht : Laid A (start + (span ts).bytes) t)
    (hsize : t.size = span us) :
    LaidList A start (ts ++ [t] ++ vs) ∧ span (ts ++ [t] ++ vs) = span (ts ++ (us ++ vs)) := by
  obtain ⟨h₁, h₂⟩ := laidList_append.mp h
  obtain ⟨-, h₃⟩ := laidList_append.mp h₂
  refine ⟨?_, ?_⟩
  · rw [List.append_assoc, laidList_append]
    refine ⟨h₁, laidList_append.mpr ⟨laidList_singleton.mpr ht, ?_⟩⟩
    rwa [span_singleton, hsize]
  · rw [List.append_assoc, span_append, span_append, span_singleton, hsize, span_append,
      span_append]

theorem size_of_eq_span (cs : List (Child Subtree)) :
    (Sum.of cs).size = span (cs.map Child.node) := by
  induction cs with
  | nil => rfl
  | cons c cs ih => rw [Sum.size_of_cons, ih, List.map_cons, span_cons]

theorem laidAll_iff {cs : List (Child Subtree)} :
    LaidAll A start cs ↔ LaidList A start (cs.map Child.node) := by
  induction cs generalizing start with
  | nil => exact Iff.rfl
  | cons c cs ih =>
    rw [LaidAll, ih]
    exact Iff.rfl

theorem laid_leaf {info : NodeInfo} : Laid A start (.mk info []) ↔ A start info := by
  simp only [Laid]

/-- An inner node is laid out as its children are. -/
theorem laid_of_ne_nil {info : NodeInfo} {cs : List (Child Subtree)} (h : cs ≠ []) :
    Laid A start (.mk info cs) ↔
      info.size = span (cs.map Child.node) ∧ LaidList A start (cs.map Child.node) := by
  cases cs with
  | nil => contradiction
  | cons c cs => rw [Laid, laidAll_iff, size_of_eq_span]

/-- The children of a node that is laid out stand one after another from its start on. -/
theorem Laid.laidAll_children {t : Subtree} (h : Laid A start t) : LaidAll A start t.children := by
  obtain ⟨info, cs⟩ := t
  cases cs with
  | nil => trivial
  | cons c cs => exact laidAll_iff.mpr ((laid_of_ne_nil (List.cons_ne_nil c cs)).mp h).2

/-- Changing what is stored of a node keeps it laid out, if its size stays and it may
be a leaf still. -/
theorem Laid.withInfo {t : Subtree} {f : NodeInfo → NodeInfo} (h : Laid A start t)
    (hs : ∀ i, (f i).size = i.size) (hf : t.children = [] → A start t.info → A start (f t.info)) :
    Laid A start (t.withInfo f) := by
  obtain ⟨info, cs⟩ := t
  cases cs with
  | nil => exact laid_leaf.mpr (hf rfl (laid_leaf.mp h))
  | cons c cs =>
    obtain ⟨hsize, hall⟩ := (laid_of_ne_nil (by simp)).mp h
    exact (laid_of_ne_nil (List.cons_ne_nil c cs)).mpr ⟨(hs info).trans hsize, hall⟩

mutual
theorem Laid.mono {B : LeafRule} (hAB : ∀ s i, A s i → B s i) {start : Nat} :
    ∀ {t : Subtree}, Laid A start t → Laid B start t
  | .mk _ [], h => laid_leaf.mpr (hAB _ _ (laid_leaf.mp h))
  | .mk _ (_ :: _), h => by
    rw [Laid] at h ⊢
    exact ⟨h.1, LaidAll.mono hAB h.2⟩

theorem LaidAll.mono {B : LeafRule} (hAB : ∀ s i, A s i → B s i) {start : Nat} :
    ∀ {cs : List (Child Subtree)}, LaidAll A start cs → LaidAll B start cs
  | [], _ => trivial
  | ⟨_, _⟩ :: _, h => by
    rw [LaidAll] at h ⊢
    exact ⟨Laid.mono hAB h.1, LaidAll.mono hAB h.2⟩
end

/-- The children of a node, if it has text only with children. -/
theorem laidList_children {t : Subtree} (h : Laid A start t)
    (hleaf : t.children = [] → t.size = Length.zero) :
    LaidList A start (t.children.map Child.node) ∧ span (t.children.map Child.node) = t.size := by
  obtain ⟨info, cs⟩ := t
  cases cs with
  | nil => exact ⟨trivial, (hleaf rfl).symm⟩
  | cons c cs =>
    obtain ⟨hsize, hall⟩ := (laid_of_ne_nil (List.cons_ne_nil c cs)).mp h
    exact ⟨hall, hsize.symm⟩

/-- Nodes can be replaced one by one. -/
theorem laidList_flatMap {ts : List Subtree} {f : Subtree → List (Child Subtree)}
    (h : LaidList A start ts)
    (hf : ∀ t ∈ ts, ∀ s, Laid A s t →
      LaidList A s ((f t).map Child.node) ∧ span ((f t).map Child.node) = t.size) :
    LaidList A start ((ts.flatMap f).map Child.node)
      ∧ span ((ts.flatMap f).map Child.node) = span ts := by
  induction ts generalizing start with
  | nil => exact ⟨trivial, rfl⟩
  | cons t ts ih =>
    obtain ⟨h₁, h₂⟩ := hf t (by simp) start h.1
    obtain ⟨h₃, h₄⟩ := ih h.2 fun u hu => hf u (by simp [hu])
    rw [List.flatMap_cons, List.map_append, laidList_append, span_append, h₂, h₄, span_cons]
    exact ⟨⟨h₁, h₃⟩, rfl⟩

/-! ## Hidden nodes -/

/-- A hidden leaf takes no room, so it can go. -/
def HiddenEmpty (l : Language) (A : LeafRule) : Prop :=
  ∀ s i, A s i → isHidden l (.mk i []) = true → i.size = Length.zero

mutual
/-- What stands in the place of a child is laid out as the child is. -/
theorem laidAll_splice (hA : HiddenEmpty l A) {start : Nat} (field : Option FieldId) :
    ∀ {t : Subtree}, Laid A start t →
      LaidList A start ((splice l field [] t).map Child.node)
        ∧ span ((splice l field [] t).map Child.node) = t.size
  | .mk info cs, h => by
    unfold splice
    split
    · rename_i hidden
      cases cs with
      | nil => exact ⟨trivial, (hA start info (laid_leaf.mp h) hidden).symm⟩
      | cons c cs =>
        rw [Laid] at h
        obtain ⟨hsize, hall⟩ := h
        obtain ⟨h₁, h₂⟩ := laidAll_spliceAll hA field hall
        refine ⟨h₁, h₂.trans ?_⟩
        rw [← size_of_eq_span]
        exact hsize.symm
    · exact ⟨laidList_singleton.mpr h, span_singleton _⟩

/-- Children without their hidden nodes are laid out as before. -/
theorem laidAll_spliceAll (hA : HiddenEmpty l A) {start : Nat} (outer : Option FieldId) :
    ∀ {cs : List (Child Subtree)}, LaidAll A start cs →
      LaidList A start ((spliceAll l outer [] cs).map Child.node)
        ∧ span ((spliceAll l outer [] cs).map Child.node) = span (cs.map Child.node)
  | [], _ => ⟨trivial, rfl⟩
  | ⟨field, t⟩ :: rest, h => by
    rw [LaidAll] at h
    obtain ⟨h₁, h₂⟩ := laidAll_splice hA (field.or outer) h.1
    obtain ⟨h₃, h₄⟩ := laidAll_spliceAll hA outer h.2
    rw [spliceAll, splice_eq_append, List.map_append]
    refine ⟨laidList_append.mpr ⟨h₁, ?_⟩, ?_⟩
    · rw [h₂]
      exact h₃
    · rw [span_append, h₂, h₄, List.map_cons, span_cons]
end

/-! ## Building -/

/-- A node is laid out when what becomes its children is; one that is left without
children has to be a leaf that may stand there. -/
theorem laid_node (hA : HiddenEmpty l A) {spec : Spec} {cs : List (Child Subtree)}
    (h : LaidList A start (cs.map Child.node))
    (hleaf : (node l spec cs).children = [] → A start (node l spec cs).info) :
    Laid A start (node l spec cs) ∧ (node l spec cs).size = span (cs.map Child.node) := by
  have hkept : LaidList A start ((node l spec cs).children.map Child.node)
      ∧ span ((node l spec cs).children.map Child.node) = span (cs.map Child.node) := by
    show LaidList A start ((if l.isVisible spec.symbol then spliceAll l none [] cs else cs).map
        Child.node) ∧ span ((if l.isVisible spec.symbol then spliceAll l none [] cs else cs).map
        Child.node) = _
    split
    · exact laidAll_spliceAll hA none (laidAll_iff.mpr h)
    · exact ⟨h, rfl⟩
  have hsize : (node l spec cs).size = span (cs.map Child.node) := by
    rw [size_node, size_of_eq_span, hkept.2]
  refine ⟨?_, hsize⟩
  cases hn : node l spec cs with
  | mk info children =>
    rw [hn] at hkept hsize hleaf
    cases children with
    | nil => exact laid_leaf.mpr (hleaf rfl)
    | cons c rest =>
      exact (laid_of_ne_nil (by simp)).mpr ⟨hsize.trans hkept.2.symm, hkept.1⟩

theorem map_node_none (ts : List Subtree) :
    (ts.map fun t => (⟨none, t⟩ : Child Subtree)).map Child.node = ts := by
  rw [List.map_map]
  exact List.map_id _

/-- An error node around some nodes. -/
theorem laid_error (hA : HiddenEmpty l A) {state : StateId} {cost : Nat} {ts : List Subtree}
    (h : LaidList A start ts)
    (hleaf : (error l state cost ts).children = [] → A start (error l state cost ts).info) :
    Laid A start (error l state cost ts) ∧ (error l state cost ts).size = span ts := by
  rw [error] at hleaf ⊢
  have hnode := laid_node hA (by rwa [map_node_none]) hleaf
  rwa [map_node_none] at hnode

end Subtree

/-! ## Leaves -/

/-- Some leaves stand one after another between two places. -/
def Tiles (start stop : Length) : List Leaf → Prop
  | [] => start = stop
  | leaf :: rest => ∃ middle, leaf.range = .between start middle ∧ Tiles middle stop rest

theorem Tiles.append {start middle stop : Length} {ls ms : List Leaf}
    (h : Tiles start middle ls) (h' : Tiles middle stop ms) : Tiles start stop (ls ++ ms) := by
  induction ls generalizing start with
  | nil =>
    obtain rfl : start = middle := h
    exact h'
  | cons leaf rest ih =>
    obtain ⟨m, hr, hrest⟩ := h
    exact ⟨m, hr, ih hrest⟩

namespace Subtree

mutual
/-- The leaves of a node that is laid out stand one after another and fill it. -/
theorem tiles_leavesAt {A : LeafRule} {start : Length} :
    ∀ {t : Subtree}, Laid A start.bytes t → Tiles start (start + t.size) (t.leavesAt start)
  | .mk info [], _ => ⟨start + info.size, rfl, rfl⟩
  | .mk info (c :: cs), h => by
    rw [Laid] at h
    have := tiles_leavesAll h.2
    rw [← size_of_eq_span, ← h.1] at this
    exact this

theorem tiles_leavesAll {A : LeafRule} {start : Length} :
    ∀ {cs : List (Child Subtree)}, LaidAll A start.bytes cs →
      Tiles start (start + span (cs.map Child.node)) (leavesAll start cs)
  | [], _ => rfl
  | ⟨_, t⟩ :: rest, h => by
    rw [LaidAll] at h
    have h₂ : LaidAll A (start + t.size).bytes rest := h.2
    have := (tiles_leavesAt h.1).append (tiles_leavesAll h₂)
    rw [Length.add_assoc] at this
    exact this
end

mutual
/-- Every leaf of a node that is laid out is one that may stand where it does. -/
theorem rule_of_mem_leavesAt {A : LeafRule} {start : Length} :
    ∀ {t : Subtree}, Laid A start.bytes t → ∀ leaf ∈ t.leavesAt start, ∃ at' info,
      A at'.bytes info ∧ leaf = ⟨info.symbol, .between at' (at' + info.size), info.missing⟩
  | .mk info [], h => by
    intro leaf hm
    exact ⟨start, info, laid_leaf.mp h, List.mem_singleton.mp hm⟩
  | .mk info (c :: cs), h => by
    rw [Laid] at h
    exact rule_of_mem_leavesAll h.2

theorem rule_of_mem_leavesAll {A : LeafRule} {start : Length} :
    ∀ {cs : List (Child Subtree)}, LaidAll A start.bytes cs →
      ∀ leaf ∈ leavesAll start cs, ∃ at' info,
        A at'.bytes info ∧ leaf = ⟨info.symbol, .between at' (at' + info.size), info.missing⟩
  | [], _ => by simp [leavesAll]
  | ⟨_, t⟩ :: rest, h => by
    rw [LaidAll] at h
    intro leaf hm
    rcases List.mem_append.mp hm with hm | hm
    · exact rule_of_mem_leavesAt h.1 leaf hm
    · exact rule_of_mem_leavesAll h.2 leaf hm
end

end Subtree

/-- Leaves that stand one after another end no earlier than they start. -/
theorem Tiles.bytes_le {start stop : Length} {leaves : List Leaf} (h : Tiles start stop leaves)
    (hl : ∀ leaf ∈ leaves, leaf.range.startByte ≤ leaf.range.endByte) :
    start.bytes ≤ stop.bytes := by
  induction leaves generalizing start with
  | nil =>
    obtain rfl : start = stop := h
    exact Nat.le_refl _
  | cons leaf rest ih =>
    obtain ⟨m, hr, hrest⟩ := h
    have hle := hl leaf (by simp)
    rw [hr] at hle
    exact Nat.le_trans hle (ih hrest fun x hx => hl x (by simp [hx]))

/-- The texts of leaves that stand one after another are the text between. -/
theorem foldl_unparse {source : Bytes} {start stop : Length} {leaves : List Leaf}
    (h : Tiles start stop leaves)
    (hl : ∀ leaf ∈ leaves, leaf.range.startByte ≤ leaf.range.endByte)
    (hstop : stop.bytes ≤ source.size) :
    leaves.foldl (fun text leaf =>
        if leaf.range.endByte ≤ source.size then
          text ++ source.extract leaf.range.startByte leaf.range.endByte
        else text) (source.extract 0 start.bytes)
      = source.extract 0 stop.bytes := by
  induction leaves generalizing start with
  | nil =>
    obtain rfl : start = stop := h
    rfl
  | cons leaf rest ih =>
    obtain ⟨m, hr, hrest⟩ := h
    have hle := hl leaf (by simp)
    have hm := hrest.bytes_le fun x hx => hl x (by simp [hx])
    rw [hr] at hle
    replace hle : start.bytes ≤ m.bytes := hle
    have hend : leaf.range.endByte ≤ source.size := by
      rw [hr]
      exact Nat.le_trans hm hstop
    have happend : source.extract 0 start.bytes
        ++ source.extract leaf.range.startByte leaf.range.endByte = source.extract 0 m.bytes := by
      rw [hr]
      show _ ++ source.extract start.bytes m.bytes = _
      rw [Array.extract_append_extract, Nat.min_eq_left (Nat.zero_le _), Nat.max_eq_right hle]
    rw [List.foldl_cons, if_pos hend, happend]
    exact ih hrest fun x hx => hl x (by simp [hx])

/-! ## Places -/

/-- A place is measured by the text before it. -/
def Located (text : Bytes) (place : Length) : Prop := place = .of (text.extract 0 place.bytes)

/-- A place is measured by the text before it, and so is the one after more text. -/
theorem Located.add {text : Bytes} {place n : Length} (h : Located text place)
    (hn : n = .of (text.extract place.bytes (place.bytes + n.bytes))) : Located text (place + n) := by
  have hsplit : text.extract 0 (place.bytes + n.bytes)
      = text.extract 0 place.bytes ++ text.extract place.bytes (place.bytes + n.bytes) := by
    rw [Array.extract_append_extract, Nat.min_eq_left (Nat.zero_le _),
      Nat.max_eq_right (Nat.le_add_right _ _)]
  unfold Located
  rw [Length.bytes_add, hsplit, Length.of_append, ← h, ← hn]

namespace Subtree

/-- Every leaf is measured by the text that stands where it does. -/
def Exact (A : LeafRule) (text : Bytes) : Prop :=
  ∀ s i, A s i → i.size = .of (text.extract s (s + i.size.bytes))

mutual
/-- Whatever leaves make up ends at a place that the text before it measures. -/
theorem Laid.located {A : LeafRule} {text : Bytes} (hA : Exact A text) {place : Length}
    (hp : Located text place) :
    ∀ {t : Subtree}, Laid A place.bytes t → Located text (place + t.size)
  | .mk info [], h => hp.add (hA _ _ (laid_leaf.mp h))
  | .mk info (c :: cs), h => by
    rw [Laid] at h
    have hend := LaidAll.located hA hp h.2
    rw [← size_of_eq_span, ← h.1] at hend
    exact hend

theorem LaidAll.located {A : LeafRule} {text : Bytes} (hA : Exact A text) {place : Length}
    (hp : Located text place) :
    ∀ {cs : List (Child Subtree)}, LaidAll A place.bytes cs →
      Located text (place + span (cs.map Child.node))
  | [], _ => hp
  | ⟨_, t⟩ :: rest, h => by
    rw [LaidAll] at h
    have hrest : LaidAll A (place + t.size).bytes rest := h.2
    have hend := LaidAll.located hA (Laid.located hA hp h.1) hrest
    rw [Length.add_assoc] at hend
    exact hend
end

end Subtree

/-- The nodes of a tree, hidden ones too. -/
inductive Tree.HasNode (t : Tree) : Node → Prop where
  | root : t.HasNode t.rootNode
  | child {n c : Node} (h : t.HasNode n) (hc : c ∈ n.storedChildren) : t.HasNode c

/-- The children of a node that is laid out are laid out where they stand. -/
theorem Node.laid_of_mem_place {A : Subtree.LeafRule} {text : Bytes} (hA : Subtree.Exact A text)
    {n c : Node} {i : Nat} {place : Length} {cs : List (Child Subtree)} (hp : Located text place)
    (h : Subtree.LaidAll A place.bytes cs) (hc : c ∈ n.place i place cs) :
    Located text c.start ∧ Subtree.Laid A c.start.bytes c.subtree := by
  induction cs generalizing i place with
  | nil => simp [Node.place] at hc
  | cons child rest ih =>
    obtain ⟨field, t⟩ := child
    rw [Subtree.LaidAll] at h
    rcases List.mem_cons.mp hc with rfl | hc
    · exact ⟨hp, h.1⟩
    · exact ih (h.1.located hA hp) h.2 hc

/-- Every node of a tree that is laid out in a text stands where the text before it says. -/
theorem Tree.HasNode.located {A : Subtree.LeafRule} {text : Bytes} (hA : Subtree.Exact A text)
    {t : Tree} (h : Subtree.Laid A 0 t.root) {n : Node} (hn : t.HasNode n) :
    Located text n.start ∧ Subtree.Laid A n.start.bytes n.subtree := by
  induction hn with
  | root => exact ⟨by simp [Tree.rootNode, Located, Length.of_empty], h⟩
  | child _ hc ih => exact Node.laid_of_mem_place hA ih.1 ih.2.laidAll_children hc

end Glr
