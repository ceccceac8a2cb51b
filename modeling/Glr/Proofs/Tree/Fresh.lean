import Glr.Proofs.Tree.Edit
import Glr.Proofs.Tree.Everywhere
import Mathlib.Data.List.Induction

/-!
# Glr.Proofs.Tree.Fresh

Trees as a parse builds them, before any edit.  A node has the text of its children, and what
had a say in one of them lies within what the node looked at:

```
end of a child + its lookahead  ≤  end of the node + its lookahead
```

Only a hollow node, which has no text, looked at nothing.  A visible node has no hidden rule
among its children, unless it was built hidden and got an alias later.
-/

namespace Glr

/-- A symbol that the node of a hidden rule may be shown under: the alias of a step that takes
a hidden rule, or a node that is shown so already. -/
inductive FlatGrammar.Unveiled (g : FlatGrammar) (l : Language) : Symbol → Prop where
  | hidden {p : Production} {st : Step} {s : Symbol} (hp : p ∈ g.productions) (hst : st ∈ p.steps)
      (hs : st.label = some s) (hrule : l.isNonterminal st.symbol = true)
      (hhidden : l.isVisible st.symbol = false) : Unveiled g l s
  | again {p : Production} {st : Step} {s : Symbol} (hp : p ∈ g.productions) (hst : st ∈ p.steps)
      (hs : st.label = some s) (h : Unveiled g l st.symbol) : Unveiled g l s

namespace Subtree

/-- An error node without text that looked at nothing. -/
structure IsHollow (t : Subtree) : Prop where
  error : t.isError = true
  bytes : t.size.bytes = 0
  lookahead : t.info.lookahead = 0

/-- A node counts its visible children, and those with a name among them. -/
structure Counted (i : NodeInfo) (cs : List (Child Subtree)) : Prop where
  visible : i.visibleCount = cs.countP fun c => c.node.info.visible
  named : i.namedCount = cs.countP fun c => c.node.info.visible && c.node.info.named

/-- How a parse builds a node. -/
structure Fresh (g : FlatGrammar) (l : Language) (i : NodeInfo) (cs : List (Child Subtree)) :
    Prop where
  changed : i.changed = false
  visible : i.visible = l.isVisible i.symbol
  /-- An inner node has the text of its children. -/
  size : cs ≠ [] → i.size = span (cs.map Child.node)
  /-- What had a say in a child lies within what the node looked at. -/
  reach : ∀ before c after, cs = before ++ c :: after →
    width before + c.node.size.bytes + c.node.info.lookahead ≤ i.size.bytes + i.lookahead
  empty : i.lookahead = 0 → i.size = Length.zero
  /-- Only errors looked at nothing. -/
  error : ∀ c ∈ cs, c.node.info.lookahead = 0 → c.node.isError = true
  inner : cs ≠ [] → i.visible = true ∨ l.isNonterminal i.symbol = true
  /-- A visible node keeps no hidden rule, if it was visible when it was built. -/
  shown : i.visible = true → g.Unveiled l i.symbol ∨ ∀ c ∈ cs, isHidden l c.node = false
  counted : Counted i cs

/-- A node that a parse has built and that may become a child: only an error looked at
nothing. -/
structure Grown (g : FlatGrammar) (l : Language) (t : Subtree) : Prop where
  fresh : Everywhere (Fresh g l) t
  error : t.info.lookahead = 0 → t.isError = true

variable {g : FlatGrammar} {l : Language} {t : Subtree} {cs : List (Child Subtree)}

theorem Grown.children {i : NodeInfo} (h : Grown g l (.mk i cs)) : ∀ c ∈ cs, Grown g l c.node :=
  fun c hc => ⟨h.fresh.child hc, h.fresh.here.error c hc⟩

/-- Which state a node was built in and whether it is an extra does not matter. -/
theorem Grown.withInfo (h : Grown g l t) {f : NodeInfo → NodeInfo}
    (hs : ∀ i, (f i).symbol = i.symbol ∧ (f i).size = i.size ∧ (f i).lookahead = i.lookahead ∧
      (f i).visible = i.visible ∧ (f i).changed = i.changed ∧
      (f i).visibleCount = i.visibleCount ∧ (f i).namedCount = i.namedCount) :
    Grown g l (t.withInfo f) := by
  obtain ⟨symbol, size, lookahead, visible, changed, visibleCount, namedCount⟩ := hs t.info
  refine ⟨h.fresh.withInfo fun hi => ?_, fun hz => ?_⟩
  · refine ⟨changed ▸ hi.changed, by rw [visible, symbol, hi.visible], fun hc => ?_,
      fun before c after hc => ?_, fun hz => ?_, hi.error, fun hc => ?_, fun hv => ?_,
      ⟨visibleCount.trans hi.counted.visible, namedCount.trans hi.counted.named⟩⟩
    · rw [size]
      exact hi.size hc
    · rw [size, lookahead]
      exact hi.reach before c after hc
    · rw [size]
      exact hi.empty (lookahead ▸ hz)
    · rw [visible, symbol]
      exact hi.inner hc
    · rw [symbol]
      exact hi.shown (visible ▸ hv)
  · have herror := h.error (lookahead.symm.trans hz)
    rw [isError, Subtree.symbol] at herror ⊢
    exact (congrArg (· == errorSymbol) symbol).trans herror

/-- Trees are fresh throughout. -/
theorem passedOn_fresh : PassedOn (fun _ t => Everywhere (Fresh g l) t) where
  children start info cs h := by
    have key (cs : List (Child Subtree)) (start : Nat)
        (h : ∀ c ∈ cs, Everywhere (Fresh g l) c.node) :
        AllAt (fun _ t => Everywhere (Fresh g l) t) start cs := by
      induction cs generalizing start with
      | nil => trivial
      | cons c rest ih => exact ⟨h c (by simp), ih _ fun d hd => h d (by simp [hd])⟩
    exact key cs start (everywhere_mk.mp h).2
  width start info cs h := by
    cases cs with
    | nil => exact Nat.zero_le _
    | cons c cs =>
      exact Nat.le_of_eq (congrArg Length.bytes (h.here.size (List.cons_ne_nil c cs))).symm

/-! ## Leaves -/

/-- A leaf that looked at something. -/
theorem grown_leaf {i : NodeInfo} (hchanged : i.changed = false)
    (hvisible : i.visible = l.isVisible i.symbol) (hpos : 0 < i.lookahead)
    (hcounts : i.visibleCount = 0 ∧ i.namedCount = 0) : Grown g l (.mk i []) := by
  have hne : i.lookahead ≠ 0 := Nat.ne_of_gt hpos
  refine ⟨everywhere_mk.mpr ⟨⟨hchanged, hvisible, by simp, by simp, fun hz => absurd hz hne, by simp,
    by simp, fun _ => .inr (by simp), ⟨hcounts.1, hcounts.2⟩⟩, by simp⟩, fun hz => absurd hz hne⟩

/-! ## Inner nodes -/

theorem reach_le_foldl (cs : List (Child Subtree)) (s : Sum) :
    s.reach ≤ (cs.foldl (fun s c => s.add c.node) s).reach := by
  induction cs generalizing s with
  | nil => exact Nat.le_refl _
  | cons c cs ih => exact Nat.le_trans (Nat.le_max_left _ _) (ih (s.add c.node))

/-- The sum of some children reaches as far as each of them does. -/
theorem le_reach (before : List (Child Subtree)) (c : Child Subtree) (after : List (Child Subtree)) :
    width before + c.node.size.bytes + c.node.info.lookahead ≤
      (Sum.of (before ++ c :: after)).reach := by
  have hbefore : (Sum.of before).size.bytes = width before :=
    congrArg Length.bytes (size_of_eq_span before)
  rw [Sum.of, List.foldl_append, List.foldl_cons]
  refine Nat.le_trans ?_ (reach_le_foldl after _)
  show _ ≤ max _ (((Sum.of before).size + c.node.size).bytes + c.node.info.lookahead)
  rw [Length.bytes_add, hbefore]
  exact Nat.le_max_right _ _

/-- Children that reach no further than their text are all without text. -/
theorem span_eq_zero_of_reach (h : ∀ c ∈ cs, Grown g l c.node)
    (hreach : ∀ before c after, cs = before ++ c :: after →
      width before + c.node.size.bytes + c.node.info.lookahead ≤ width cs) :
    span (cs.map Child.node) = Length.zero := by
  -- the last child looked at nothing, so it is without text, and those before it reach no further
  induction cs using List.reverseRecOn with
  | nil => rfl
  | append_singleton cs c ih =>
    have hwidth : width (cs ++ [c]) = width cs + c.node.size.bytes := by
      simp [width, span_append, Length.bytes_add]
    rw [hwidth] at hreach
    have hlast := hreach cs c [] rfl
    have hsize := (h c (by simp)).fresh.here.empty (by omega)
    change c.node.size = Length.zero at hsize
    rw [hsize, bytes_zero, Nat.add_zero] at hreach
    rw [List.map_append, span_append, List.map_singleton, span_singleton, hsize, Length.add_zero]
    refine ih (fun c hc => h c (by simp [hc])) fun before d after hd => ?_
    exact hreach before d (after ++ [c]) (by simp [hd])

/-- A node looked at least as far as each of its children did. -/
theorem reach_node (spec : Spec) {before after : List (Child Subtree)} {c : Child Subtree}
    (hc : (node l spec cs).children = before ++ c :: after) :
    width before + c.node.size.bytes + c.node.info.lookahead ≤
      (node l spec cs).size.bytes + (node l spec cs).info.lookahead := by
  have hlookahead : (node l spec cs).info.lookahead =
      max ((Sum.of (node l spec cs).children).reach - (node l spec cs).size.bytes)
        spec.lookahead := by
    rw [size_node]
    rfl
  have hreach := le_reach before c after
  rw [← hc] at hreach
  omega

theorem counts_foldl (cs : List (Child Subtree)) (s : Sum) :
    let sum := cs.foldl (fun s c => s.add c.node) s
    sum.visibleCount = s.visibleCount + cs.countP (fun c => c.node.info.visible) ∧
      sum.namedCount =
        s.namedCount + cs.countP (fun c => c.node.info.visible && c.node.info.named) := by
  induction cs generalizing s with
  | nil => exact ⟨rfl, rfl⟩
  | cons c cs ih =>
    obtain ⟨hvisible, hnamed⟩ := ih (s.add c.node)
    refine ⟨hvisible.trans ?_, hnamed.trans ?_⟩
    · show s.visibleCount + (if c.node.info.visible then 1 else 0) + _ = _
      rw [List.countP_cons]
      omega
    · show s.namedCount + (if c.node.info.visible && c.node.info.named then 1 else 0) + _ = _
      rw [List.countP_cons]
      omega

/-- A node counts what becomes its children. -/
theorem counted_node (spec : Spec) (cs : List (Child Subtree)) :
    Counted (node l spec cs).info (node l spec cs).children := by
  obtain ⟨hvisible, hnamed⟩ := counts_foldl (node l spec cs).children {}
  exact ⟨hvisible.trans (Nat.zero_add _), hnamed.trans (Nat.zero_add _)⟩

/-- A node over some nodes that a parse has built. -/
theorem fresh_node {spec : Spec} (h : ∀ c ∈ cs, Grown g l c.node)
    (hinner : l.isVisible spec.symbol = true ∨ l.isNonterminal spec.symbol = true) :
    Everywhere (Fresh g l) (node l spec cs) := by
  have hkept : ∀ c ∈ (node l spec cs).children, Grown g l c.node :=
    forall_children_node (fun _ _ _ h => h.children) h
  have hhidden := isHidden_eq_false_of_mem_children l spec cs
  have hsize : (node l spec cs).size = span ((node l spec cs).children.map Child.node) := by
    rw [size_node, size_of_eq_span]
  have hreach : ∀ before c after, (node l spec cs).children = before ++ c :: after →
      width before + c.node.size.bytes + c.node.info.lookahead ≤
        (node l spec cs).size.bytes + (node l spec cs).info.lookahead :=
    fun _ _ _ hc => reach_node spec hc
  have hvisible : (node l spec cs).info.visible = l.isVisible (node l spec cs).symbol := rfl
  have hchanged : (node l spec cs).info.changed = false := rfl
  have hsymbol : (node l spec cs).symbol = spec.symbol := rfl
  have hcounted : Counted (node l spec cs).info (node l spec cs).children := counted_node spec cs
  generalize node l spec cs = t at hkept hhidden hsize hreach hvisible hchanged hsymbol hcounted ⊢
  obtain ⟨i, children⟩ := t
  change ∀ c ∈ children, Grown g l c.node at hkept
  change ∀ before c after, children = before ++ c :: after → _ ≤ i.size.bytes + i.lookahead at hreach
  change i.size = span (children.map Child.node) at hsize
  change i.visible = l.isVisible i.symbol at hvisible
  change i.symbol = spec.symbol at hsymbol
  refine everywhere_mk.mpr ⟨⟨hchanged, hvisible, fun _ => hsize, hreach, fun hz => ?_,
    fun c hc => (hkept c hc).error, fun _ => ?_, fun hv => .inr (hhidden ?_), hcounted⟩,
    fun c hc => (hkept c hc).fresh⟩
  · rw [hsize]
    refine span_eq_zero_of_reach hkept fun before c after hc => ?_
    have := hreach before c after hc
    rwa [hz, Nat.add_zero, hsize] at this
  · rwa [hvisible, hsymbol]
  · rw [← hsymbol, ← hvisible, hv]

/-- A node of a production looked at something, an error may have not. -/
theorem grown_node {spec : Spec} (h : ∀ c ∈ cs, Grown g l c.node)
    (hinner : l.isVisible spec.symbol = true ∨ l.isNonterminal spec.symbol = true)
    (hpos : 0 < spec.lookahead ∨ spec.symbol = errorSymbol) : Grown g l (node l spec cs) := by
  refine ⟨fresh_node h hinner, fun hz => ?_⟩
  rcases hpos with hpos | hsymbol
  · have hle : spec.lookahead ≤ (node l spec cs).info.lookahead := Nat.le_max_right _ _
    omega
  · show (spec.symbol == errorSymbol) = true
    rw [hsymbol]
    rfl

theorem isVisible_errorSymbol (l : Language) : l.isVisible errorSymbol = true := by
  simp [Language.isVisible]

/-- An error node around some nodes. -/
theorem grown_error {ts : List Subtree} (h : ∀ t ∈ ts, Grown g l t) (state : StateId)
    (cost : Nat) : Grown g l (error l state cost ts) := by
  refine grown_node (fun c hc => ?_) (.inl (isVisible_errorSymbol l)) (.inr rfl)
  obtain ⟨t, ht, rfl⟩ := List.mem_map.mp hc
  exact h t ht

end Subtree

end Glr
