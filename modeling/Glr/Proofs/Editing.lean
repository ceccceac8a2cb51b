import Glr.Proofs.Parse.Fresh
import Glr.Proofs.Tree.Framed
import Glr.Proofs.Tree.Spelled

/-!
# Glr.Proofs.Editing

What edits make of trees, however these came about: by a parse with any limits and any previous
tree, and by any edits after that.

* `Language.edit_tiles`: the nodes stand one after another and fill their places, in rows and
  columns too where the edits are those of a text.
* `Language.edit_frames`: what an edit can influence is marked, with all that is above it, and
  the rest is as it was.

Both go by what a parse builds and every edit keeps:

```
parse   ⟹   steady  ∧  spells the text
edit    :   steady ↦ steady,   spells (a ++ b ++ c) ↦ spells (a ++ r ++ c)
```

Hollow errors are the exception in both: they have lost what the hidden nodes in them looked at,
so an edit beside them does not come to them.
-/

namespace Glr

open Parse Subtree

variable {g : FlatGrammar} {l : Language} {text : Bytes} {t t' : Tree} {e : Edit}

/-! ## What trees spell before any edit -/

/-- How the leaves that may stand somewhere spell what stands there: `word s n` is what stands
in the `n` bytes from `s` on. -/
structure Writing {α : Type} (Is : Length → List α → Prop) (A : LeafRule)
    (word : Nat → Nat → List α) : Prop where
  measure : Measure Is
  append : ∀ s m n, word s (m + n) = word s m ++ word (s + m) n
  leaf : ∀ s i, A s i → Is i.size (word s i.size.bytes)

section

variable {α : Type} {Is : Length → List α → Prop} {A : LeafRule} {word : Nat → Nat → List α}

theorem Writing.nil (h : Writing Is A word) (s : Nat) : word s 0 = [] := by
  simpa using h.append s 0 0

mutual
/-- A tree that a parse has laid out spells what stands where it does. -/
theorem Writing.spells (hw : Writing Is A word) {start : Nat} : ∀ {t : Subtree}, Laid A start t →
    Everywhere (Fresh g l) t → Spells Is (word start t.size.bytes) t
  | .mk i [], h, _ => by
    rw [Spells]
    exact ⟨hw.leaf _ _ (laid_leaf.mp h), .inr ⟨by simp [AllBlind], rfl⟩⟩
  | .mk i (c :: cs), h, hf => by
    rw [Laid, size_of_eq_span] at h
    rw [Everywhere] at hf
    have hall := hw.spellsAll h.2 hf.2
    rw [width, ← h.1] at hall
    have hsize := hall.span hw.measure
    rw [← h.1] at hsize
    rw [Spells]
    exact ⟨hsize, .inl hall⟩

theorem Writing.spellsAll (hw : Writing Is A word) {start : Nat} :
    ∀ {cs : List (Child Subtree)}, LaidAll A start cs → EverywhereAll (Fresh g l) cs →
      SpellsAll Is (word start (width cs)) cs
  | [], _, _ => by
    rw [SpellsAll]
    exact hw.nil start
  | ⟨field, t⟩ :: rest, h, hf => by
    rw [LaidAll] at h
    rw [EverywhereAll] at hf
    rw [SpellsAll, width_cons, hw.append]
    refine ⟨_, _, rfl, fun hz => ?_, hw.spells h.1 hf.1, hw.spellsAll h.2 hf.2⟩
    have hsize : t.size = Length.zero := hf.1.here.empty hz
    rw [hsize]
    exact hw.nil start
end

end

/-- Whatever the leaves are, a tree has as many bytes as it spells. -/
theorem writing_counts (A : LeafRule) :
    Writing Length.Counts A fun _ n => List.replicate n () where
  measure := measure_counts
  append _ _ _ := List.replicate_add _ _ _
  leaf _ _ _ := List.length_replicate.symm

/-- Leaves that have their text spell it. -/
theorem writing_measures (text : Bytes) : Writing Length.Measures (LeafOf g l (TextOf text))
    fun s n => (text.extract s (s + n)).toList where
  measure := measure_measures
  append s m n := by
    rw [← Array.toList_append, Array.extract_append_extract, Nat.min_eq_left (by omega),
      Nat.max_eq_right (by omega), Nat.add_assoc]
  leaf s i h := exact_leafOf s i h

/-! ## Trees after any edits -/

/-- An edit that a tree accepts lies within it. -/
theorem Tree.edit_eq_ok (he : t.edit e = .ok t') : e.validate t.lenBytes = .ok () ∧
    Within e.start e.oldEnd e.newEnd t.root.size ∧
    t' = { t with root := t.root.edit e.start e.oldEnd e.newEnd } := by
  unfold Tree.edit at he
  cases hv : e.validate t.lenBytes with
  | error err =>
    rw [hv] at he
    contradiction
  | ok u =>
    rw [hv] at he
    obtain ⟨⟨-, hold⟩, ⟨hstart, hnew⟩, -⟩ := Edit.validate_eq_ok_iff.mp hv
    exact ⟨rfl, ⟨hstart, hold, hnew⟩, (Except.ok.inj he).symm⟩

/-- What every parse keeps, and for which sizes and marks do not matter, holds throughout every
tree of a language. -/
theorem Language.Obtained.everywhere {P : LocalRule}
    (hP : ∀ i cs, P i.shape (shapeAll cs) ↔ P i cs)
    (hparse : ∀ limits text old, (∀ t, old = some t → l.Obtained t) →
      (∀ t, old = some t → t.language.sameAs l = true → Everywhere P t.root) →
      Everywhere P (l.parse limits text old).1.root)
    (h : l.Obtained t) (hl : t.language.sameAs l = true) : Everywhere P t.root := by
  induction h with
  | foreign h =>
    rw [h] at hl
    contradiction
  | parsed h ih => exact hparse _ _ _ h ih
  | @edited t t' e _ he ih =>
    rw [Tree.language_of_edit he] at hl
    have hroot : t'.root.shape = t.root.shape := by
      obtain ⟨-, -, rfl⟩ := Tree.edit_eq_ok he
      exact shape_edit _ _ _ _
    rw [← everywhere_shape_iff hP, hroot, everywhere_shape_iff hP]
    exact ih hl

/-- A word can be split at two places. -/
theorem exists_split {α : Type} {w : List α} {m n : Nat} (hmn : m ≤ n) (hn : n ≤ w.length) :
    ∃ a b c, w = a ++ b ++ c ∧ a.length = m ∧ (a ++ b).length = n := by
  refine ⟨w.take m, (w.take n).drop m, w.drop n, ?_, ?_, ?_⟩
  · rw [show w.take m = (w.take n).take m by rw [List.take_take, Nat.min_eq_left hmn],
      List.take_append_drop, List.take_append_drop]
  · rw [List.length_take]
    omega
  · simp only [List.length_append, List.length_take, List.length_drop]
    omega

/-- A tree of a language is steady, however it came about. -/
theorem Language.Obtained.steady (hg : l.Sound g) (h : l.Obtained t)
    (hl : t.language.sameAs l = true) : Everywhere Steady t.root := by
  induction h with
  | foreign h =>
    rw [h] at hl
    contradiction
  | parsed hold _ => exact steady_of_fresh (Language.fresh_parse hg _ _ hold)
  | edited _ he ih =>
    rw [Tree.language_of_edit he] at hl
    obtain ⟨-, hw, rfl⟩ := Tree.edit_eq_ok he
    exact steady_edit (ih hl) hw

/-- The children of a node have its bytes, however the tree came about. -/
theorem Language.Obtained.spells (hg : l.Sound g) (h : l.Obtained t)
    (hl : t.language.sameAs l = true) : ∃ w, Spells Length.Counts w t.root := by
  induction h with
  | foreign h =>
    rw [h] at hl
    contradiction
  | @parsed limits text old hold _ =>
    have hresult := Language.result_parse hg (covers_anyText text)
      (fun t ht hl => (hold t ht).kept hg hl) (Prod.eta (l.parse limits text old)).symm
    exact ⟨_, (writing_counts _).spells hresult.laid (Language.fresh_parse hg _ _ hold)⟩
  | @edited t t' e _ he ih =>
    rw [Tree.language_of_edit he] at hl
    obtain ⟨w, hw⟩ := ih hl
    obtain ⟨-, hwithin, rfl⟩ := Tree.edit_eq_ok he
    have hsize : t.root.size.bytes = w.length := hw.size
    obtain ⟨a, b, c, rfl, ha, hb⟩ := exists_split hwithin.start_le (hsize ▸ hwithin.oldEnd_le)
    have hnew : e.newEnd.Counts (a ++ List.replicate (e.newEnd.bytes - e.start.bytes) ()) := by
      have := hwithin.newEnd_ge
      rw [Length.Counts, List.length_append, List.length_replicate, ha]
      omega
    exact ⟨_, hw.edit measure_counts ha.symm hb.symm hnew⟩

/-! ## Trees that follow a text -/

/-- A text after a replacement that is described by `Edit.replace`. -/
def Edit.replaced (old : Bytes) (start stop : Nat) (replacement : Bytes) : Bytes :=
  let startByte := min start old.size
  old.extract 0 startByte ++ replacement ++
    old.extract (min (max stop startByte) old.size) old.size

/-- The trees of a text: those of its parses, where the previous tree is one of the text if it
is reused, and those that were told of every replacement. -/
inductive Language.Follows (l : Language) : Bytes → Tree → Prop where
  | parsed {limits : Limits} {text : Bytes} {old : Option Tree}
      (hold : ∀ t, old = some t → l.Obtained t)
      (hfollows : ∀ t, old = some t → t.isUsable l text = true → l.Follows text t) :
      l.Follows text (l.parse limits text old).1
  | edited {text replacement : Bytes} {t t' : Tree} {start stop : Nat} (h : l.Follows text t)
      (he : t.edit (Edit.replace text start stop replacement) = .ok t') :
      l.Follows (Edit.replaced text start stop replacement) t'

theorem Language.Follows.obtained (h : l.Follows text t) : l.Obtained t := by
  induction h with
  | parsed hold _ _ => exact .parsed hold
  | edited _ he ih => exact .edited ih he

theorem Language.Follows.sameAs (hg : l.Sound g) (h : l.Follows text t) :
    t.language.sameAs l = true := by
  induction h with
  | @parsed limits text old hold _ _ =>
    have hresult := Language.result_parse hg (covers_anyText text)
      (fun t ht hl => (hold t ht).kept hg hl) (Prod.eta (l.parse limits text old)).symm
    rw [hresult.language]
    exact beq_self_eq_true _
  | edited _ he ih => rwa [Tree.language_of_edit he]

/-- The first part of a text. -/
theorem extract_of_isPrefix {w : List UInt8} (h : w <+: text.toList) :
    text.extract 0 w.length = w.toArray := by
  rw [List.prefix_iff_eq_take] at h
  apply Array.toList_inj.mp
  rw [Array.toList_extract, List.extract_eq_take_drop, Nat.sub_zero, List.drop_zero, ← h]

/-- What comes behind a part of a text stands where that part ends. -/
theorem isPrefix_drop {u v w : List UInt8} {s : Nat} (h : u ++ v <+: w.drop s) :
    v <+: w.drop (s + u.length) := by
  obtain ⟨q, hq⟩ := h
  refine ⟨q, ?_⟩
  rw [← List.drop_drop, ← hq, List.append_assoc, List.drop_left]

mutual
/-- Leaves that spell what stands where they do have their text. -/
theorem Subtree.Laid.textOf {start : Nat} {w : List UInt8} : ∀ {t : Subtree},
    Laid (LeafOf g l AnyText) start t → Spells Length.Measures w t →
      w <+: text.toList.drop start → Laid (LeafOf g l (TextOf text)) start t
  | .mk i [], h, hw, hp => by
    refine laid_leaf.mpr ?_
    cases laid_leaf.mp h with
    | text hpos _ hend hshown =>
      refine .text hpos ?_ hend hshown
      have hsize : i.size = .of w.toArray := hw.size
      have hbytes : i.size.bytes = w.length := by rw [hsize]; exact List.size_toArray
      rw [List.prefix_iff_eq_take] at hp
      rw [TextOf, hbytes, hsize]
      congr 1
      apply Array.toList_inj.mp
      rw [Array.toList_extract, List.extract_eq_take_drop, Nat.add_sub_cancel_left, ← hp]
    | empty hsize hwhy => exact .empty hsize hwhy
  | .mk i (c :: cs), h, hw, hp => by
    rw [Laid] at h ⊢
    rw [Spells] at hw
    refine ⟨h.1, ?_⟩
    rcases hw.2 with hall | ⟨-, hall⟩
    · exact h.2.textOf hall hp
    · exact h.2.textOf hall (List.nil_prefix)

theorem Subtree.LaidAll.textOf {start : Nat} {w : List UInt8} : ∀ {cs : List (Child Subtree)},
    LaidAll (LeafOf g l AnyText) start cs → SpellsAll Length.Measures w cs →
      w <+: text.toList.drop start → LaidAll (LeafOf g l (TextOf text)) start cs
  | [], _, _, _ => trivial
  | ⟨_, t⟩ :: rest, h, hw, hp => by
    rw [LaidAll] at h ⊢
    rw [SpellsAll] at hw
    obtain ⟨u, v, rfl, -, hu, hv⟩ := hw
    refine ⟨h.1.textOf hu ((List.prefix_append u v).trans hp), h.2.textOf hv ?_⟩
    rw [measure_measures.bytes hu.size]
    exact isPrefix_drop hp
end

mutual
/-- Where a tree spells what stands in a text, what no edit touched has its text. -/
theorem Subtree.Kept.textOf {start : Nat} {w : List UInt8} : ∀ {t : Subtree},
    Kept (Laid (LeafOf g l AnyText)) start t → Spells Length.Measures w t →
      w <+: text.toList.drop start → Kept (Laid (LeafOf g l (TextOf text))) start t
  | .mk i cs, h, hw, hp => by
    rw [Kept] at h ⊢
    refine ⟨fun hc => (h.1 hc).textOf hw hp, h.2.1, ?_⟩
    rw [Spells] at hw
    rcases hw.2 with hall | ⟨-, hall⟩
    · exact h.2.2.textOf hall hp
    · exact h.2.2.textOf hall (List.nil_prefix)

theorem Subtree.KeptAll.textOf {start : Nat} {w : List UInt8} : ∀ {cs : List (Child Subtree)},
    KeptAll (Laid (LeafOf g l AnyText)) start cs → SpellsAll Length.Measures w cs →
      w <+: text.toList.drop start → KeptAll (Laid (LeafOf g l (TextOf text))) start cs
  | [], _, _, _ => trivial
  | ⟨_, t⟩ :: rest, h, hw, hp => by
    rw [KeptAll] at h ⊢
    rw [SpellsAll] at hw
    obtain ⟨u, v, rfl, -, hu, hv⟩ := hw
    refine ⟨h.1.textOf hu ((List.prefix_append u v).trans hp), h.2.textOf hv ?_⟩
    rw [measure_measures.bytes hu.size]
    exact isPrefix_drop hp
end

/-- A replacement is described by the lengths of three texts, wherever its range lies. -/
theorem Edit.exists_places (text : Bytes) (start stop : Nat) (replacement : Bytes) :
    ∃ s o, s ≤ o ∧ o ≤ text.size ∧
      Edit.replace text start stop replacement =
        ⟨.of (text.extract 0 s), .of (text.extract 0 o), .of (text.extract 0 s ++ replacement)⟩ ∧
      Edit.replaced text start stop replacement =
        text.extract 0 s ++ replacement ++ text.extract o text.size := by
  have hs : min (min start text.size) text.size = min start text.size := by omega
  have ho : min (max (min (max stop (min start text.size)) text.size) (min start text.size))
      text.size = min (max stop (min start text.size)) text.size := by omega
  have hso : min start text.size ≤ min (max stop (min start text.size)) text.size := by omega
  refine ⟨_, _, hso, Nat.min_le_right _ _, ?_, rfl⟩
  rw [← Edit.replace_eq hso (Nat.min_le_right _ _)]
  unfold Edit.replace
  simp only [hs, ho]

/-- A tree that spells a text from its start on does so after a replacement. -/
theorem Subtree.Spells.replaced {u : Subtree} {w : List UInt8} {start stop : Nat}
    {replacement : Bytes} (hw : Spells Length.Measures w u) (hp : w <+: text.toList)
    (he : e = Edit.replace text start stop replacement)
    (hwithin : Within e.start e.oldEnd e.newEnd u.size) :
    ∃ w', w' <+: (Edit.replaced text start stop replacement).toList ∧
      Spells Length.Measures w' (u.edit e.start e.oldEnd e.newEnd) := by
  obtain ⟨s, o, hso, ho, hreplace, hreplaced⟩ := Edit.exists_places text start stop replacement
  obtain rfl := he.trans hreplace
  have hold : (text.extract 0 o).size ≤ u.size.bytes := hwithin.oldEnd_le
  rw [measure_measures.bytes hw.size, Array.size_extract] at hold
  obtain ⟨a, b, c, rfl, rfl, rfl⟩ := exists_split hso (show o ≤ w.length by omega)
  have hab : a ++ b <+: text.toList := (List.prefix_append _ c).trans hp
  have ha : a <+: text.toList := (List.prefix_append a b).trans hab
  have hc : c <+: (text.extract (a ++ b).length text.size).toList := by
    rw [Array.toList_extract, List.extract_eq_take_drop, List.take_of_length_le (by simp)]
    simpa using isPrefix_drop (show a ++ b ++ c <+: text.toList.drop 0 from hp)
  rw [hreplaced, extract_of_isPrefix ha, extract_of_isPrefix hab]
  refine ⟨a ++ replacement.toList ++ c, ?_, hw.edit measure_measures rfl rfl ?_⟩
  · rw [Array.toList_append, Array.toList_append]
    exact (List.prefix_append_right_inj _).mpr hc
  · show Length.of _ = Length.of _
    rw [← List.append_toArray, Array.toArray_toList]

/-- The tree of a text spells the text from its start on. -/
theorem Language.Follows.spells (hg : l.Sound g) (h : l.Follows text t) :
    ∃ w, w <+: text.toList ∧ Spells Length.Measures w t.root := by
  induction h with
  | @parsed limits text old hold _ ih =>
    have hresult := Language.result_parse_of_usable hg (covers_textOf text) (fun t ht hu => by
      obtain ⟨w, hp, hw⟩ := ih t ht hu
      exact ((hold t ht).kept hg (Tree.sameAs_of_isUsable hu)).textOf hw hp)
      (Prod.eta (l.parse limits text old)).symm
    refine ⟨_, ?_, (writing_measures text).spells hresult.laid
      (Language.fresh_parse hg limits text hold)⟩
    rw [Array.toList_extract, List.extract_eq_take_drop, List.drop_zero]
    exact List.take_prefix _ _
  | edited _ he ih =>
    obtain ⟨w, hp, hw⟩ := ih
    obtain ⟨-, hwithin, rfl⟩ := Tree.edit_eq_ok he
    exact hw.replaced hp rfl hwithin

/-! ## Where nodes stand -/

/-- A node below the root that looked at nothing is a hollow error. -/
theorem Tree.HasNode.isHollow {α : Type} {Is : Length → List α → Prop} {w : List α} {n : Node}
    (hm : Measure Is) (hs : Everywhere Steady t.root) (hw : Spells Is w t.root) (hn : t.HasNode n)
    (hpath : n.path ≠ []) (hz : n.subtree.info.lookahead = 0) : n.subtree.IsHollow := by
  obtain ⟨p, v, q, -, -, hv, hblind⟩ := hn.spells hm hw
  refine ⟨?_, ?_, hz⟩
  · cases hn with
    | root => exact absurd rfl hpath
    | child hm hc =>
      obtain ⟨k, child, hchild, hsubtree, -⟩ := Node.exists_of_mem_storedChildren hc
      rw [hsubtree] at hz ⊢
      exact (hm.everywhere hs).here.error child (List.mem_of_getElem? hchild) hz
  · rw [hm.bytes hv.size, hblind hpath hz, List.length_nil]

/-- A node has the length of its children, or there is nothing in it but hollow errors. -/
theorem Tree.HasNode.size {α : Type} {Is : Length → List α → Prop} {w : List α} {n : Node}
    (hm : Measure Is) (hs : Everywhere Steady t.root) (hw : Spells Is w t.root) (hn : t.HasNode n) :
    (∃ v, Is n.subtree.size v ∧ Is (span (n.subtree.children.map Child.node)) v) ∨
      ∀ c ∈ n.subtree.children, c.node.IsHollow := by
  obtain ⟨p, v, q, -, -, hv, -⟩ := hn.spells hm hw
  have hhollow : AllBlind n.subtree.children → ∀ c ∈ n.subtree.children, c.node.IsHollow := by
    intro hblind c hc
    obtain ⟨m, hm', hsubtree, hpath⟩ := Node.exists_mem_storedChildren hc
    rw [← hsubtree]
    exact (hn.child hm').isHollow hm hs hw hpath (by rw [hsubtree]; exact hblind c hc)
  generalize n.subtree = u at hv hhollow ⊢
  obtain ⟨i, cs⟩ := u
  rw [Spells] at hv
  rcases hv.2 with hall | ⟨hblind, -⟩
  · exact .inl ⟨v, hv.1, hall.span hm⟩
  · exact .inr (hhollow hblind)

/-- The nodes of a tree stand one after another.  A node has the bytes of its children, unless
there is nothing but hollow errors in it. -/
structure Tree.Tiled (t : Tree) : Prop where
  size : ∀ n, t.HasNode n → n.subtree.children ≠ [] →
    n.subtree.size.bytes = width n.subtree.children ∨ ∀ c ∈ n.subtree.children, c.node.IsHollow
  start : ∀ n, t.HasNode n → ∀ k c, n.storedChildren[k]? = some c →
    c.startByte = n.startByte + width (n.subtree.children.take k)

/-- The nodes of a tree stand in a text, from its start on, where their rows and columns say. -/
structure Tree.StandsIn (text : Bytes) (t : Tree) : Prop where
  size_le : t.lenBytes ≤ text.size
  stop_le : ∀ n, t.HasNode n → n.endByte ≤ t.lenBytes
  points : ∀ n, t.HasNode n → n.range.startPoint = extentOf (text.extract 0 n.startByte) ∧
    n.range.endPoint = extentOf (text.extract 0 n.endByte)
  size : ∀ n, t.HasNode n → n.subtree.children ≠ [] →
    n.subtree.size = span (n.subtree.children.map Child.node) ∨
      ∀ c ∈ n.subtree.children, c.node.IsHollow

theorem Tree.tiled {w : List Unit} (hs : Everywhere Steady t.root)
    (hw : Spells Length.Counts w t.root) : t.Tiled where
  size n hn _ := by
    rcases hn.size measure_counts hs hw with ⟨v, hsize, hspan⟩ | hhollow
    · exact .inl (hsize.trans hspan.symm)
    · exact .inr hhollow
  start n _ k c hc := by
    rw [Node.getElem?_storedChildren] at hc
    obtain ⟨child, -, rfl⟩ := Option.map_eq_some_iff.mp hc
    rfl

theorem Tree.standsIn {w : List UInt8} (hs : Everywhere Steady t.root)
    (hw : Spells Length.Measures w t.root) (hp : w <+: text.toList) : t.StandsIn text := by
  have hsize := measure_measures.bytes hw.size
  refine ⟨?_, fun n hn => ?_, fun n hn => ?_, fun n hn _ => ?_⟩
  · rw [Tree.lenBytes, hsize]
    exact hp.length_le
  · obtain ⟨p, v, q, rfl, hstart, hv, -⟩ := hn.spells measure_measures hw
    rw [Tree.lenBytes, hsize, Node.endByte, measure_measures.bytes hstart,
      measure_measures.bytes hv.size]
    simp
  · obtain ⟨p, v, q, rfl, hstart, hv, -⟩ := hn.spells measure_measures hw
    have hstop := measure_measures.add hstart hv.size
    have hpv : p ++ v <+: text.toList := (List.prefix_append (p ++ v) q).trans hp
    have hpp : p <+: text.toList := (List.prefix_append p v).trans hpv
    constructor
    · rw [Node.startByte, measure_measures.bytes hstart, extract_of_isPrefix hpp]
      exact congrArg Length.extent hstart
    · rw [Node.endByte, ← Length.bytes_add, measure_measures.bytes hstop, extract_of_isPrefix hpv]
      exact congrArg Length.extent hstop
  · rcases hn.size measure_measures hs hw with ⟨v, hsize, hspan⟩ | hhollow
    · exact .inl (hsize.trans hspan.symm)
    · exact .inr hhollow

theorem Language.Obtained.tiled (hg : l.Sound g) (h : l.Obtained t)
    (hl : t.language.sameAs l = true) : t.Tiled := by
  obtain ⟨w, hw⟩ := h.spells hg hl
  exact Tree.tiled (h.steady hg hl) hw

theorem Language.Follows.standsIn (hg : l.Sound g) (h : l.Follows text t) : t.StandsIn text := by
  obtain ⟨w, hp, hw⟩ := h.spells hg
  exact Tree.standsIn (h.obtained.steady hg (h.sameAs hg)) hw hp

/-- A replacement changes the length of the text as its edit says. -/
theorem Edit.size_replaced (text : Bytes) (start stop : Nat) (replacement : Bytes) :
    (Edit.replaced text start stop replacement).size
        + (Edit.replace text start stop replacement).oldEnd.bytes
      = text.size + (Edit.replace text start stop replacement).newEnd.bytes := by
  simp only [Edit.replaced, Edit.replace, Array.size_append, Array.size_extract]
  omega

/-- The geometry of a tree stays exact under edits.  A tree accepts the edits that are valid for
its length, and has the new length then; its nodes are the same ones in the same order and
stand one after another.  If the edits are those of a text, the nodes stand in the text where
their rows and columns say.  Only a node with nothing but hollow errors in it may have more
text than they have. -/
theorem Language.edit_tiles {handle : Nat} {grammar : Grammar} {scanner : Option Scanner}
    (h : Language.ofGrammar handle grammar scanner = .ok l) (ht : l.Obtained t)
    (hl : t.language.sameAs l = true) (e : Edit) :
    t.Tiled ∧ (∀ text, l.Follows text t → t.StandsIn text) ∧
      ((∃ t', t.edit e = .ok t') ↔ e.validate t.lenBytes = .ok ()) ∧
      ∀ t', t.edit e = .ok t' →
        t'.lenBytes
            = t.lenBytes - (e.oldEnd.bytes - e.start.bytes) + (e.newEnd.bytes - e.start.bytes) ∧
          t'.Tiled ∧ t'.root.shape = t.root.shape ∧
          ∀ text start stop replacement, l.Follows text t →
            e = Edit.replace text start stop replacement →
            t'.StandsIn (Edit.replaced text start stop replacement) ∧
              (t.lenBytes = text.size →
                t'.lenBytes = (Edit.replaced text start stop replacement).size) := by
  obtain ⟨g, -, hg⟩ := Language.ofGrammar_sound h
  refine ⟨ht.tiled hg hl, fun text hf => hf.standsIn hg, ⟨?_, fun hv => ?_⟩, fun t' he => ?_⟩
  · rintro ⟨t', he⟩
    exact (Tree.edit_eq_ok he).1
  · obtain ⟨t', he, -⟩ := Tree.edit_of_validate hv
    exact ⟨t', he⟩
  · obtain ⟨hv, hw, ht'⟩ := Tree.edit_eq_ok he
    obtain ⟨u, hu, hlen⟩ := Tree.edit_of_validate hv
    obtain rfl := Except.ok.inj (he.symm.trans hu)
    have hl' : t'.language.sameAs l = true := by rwa [Tree.language_of_edit he]
    have hold : e.oldEnd.bytes ≤ t.lenBytes := hw.oldEnd_le
    have hstart := hw.start_le
    have hnew := hw.newEnd_ge
    refine ⟨by omega, (ht.edited he).tiled hg hl', ?_, ?_⟩
    · rw [ht']
      exact shape_edit _ _ _ _
    · rintro text start stop replacement hf rfl
      refine ⟨(hf.edited he).standsIn hg, fun hfull => ?_⟩
      have := Edit.size_replaced text start stop replacement
      omega

/-- A line break after the first of four letters. -/
def Edit.breakLine : Edit := .replace (Bytes.ofString "bmne") 0 1 (Bytes.ofString "b\n")

set_option maxRecDepth 100000 in
/-- The last of four nodes is only moved by a line break after the first one. -/
theorem Grammar.exists_hollow_edit : ∃ l t t', Language.ofGrammar 0 .hollow none = .ok l ∧
    l.Follows (Bytes.ofString "bmne") t ∧ t.language.sameAs l = true ∧
    t.edit .breakLine = .ok t' ∧
    ((t.rootNode.storedChildren[3]?).any fun n => (t'.rootNode.storedChildren[3]?).any fun n' =>
      !n'.subtree.info.changed && n.startByte == 3 && n.endByte == 4) = true := by
  have h : (Language.ofGrammar 0 .hollow none).toOption.any (fun l =>
      let t := (l.parse {} (Bytes.ofString "bmne") none).1
      t.language.sameAs l && (t.edit .breakLine).toOption.any fun t' =>
        (t.rootNode.storedChildren[3]?).any fun n => (t'.rootNode.storedChildren[3]?).any fun n' =>
          !n'.subtree.info.changed && n.startByte == 3 && n.endByte == 4) = true := by
    decide +kernel
  obtain ⟨l, hl, h⟩ := exists_ok h
  simp only [Bool.and_eq_true] at h
  obtain ⟨hsame, h⟩ := h
  obtain ⟨t', he, h⟩ := exists_ok h
  exact ⟨l, _, t', hl, .parsed (by simp) (by simp), hsame, he, h⟩

theorem Language.edit_tiles_hollow : ∃ l t t', Language.ofGrammar 0 .hollow none = .ok l ∧
    l.Obtained t ∧ t.language.sameAs l = true ∧ t.edit .breakLine = .ok t' ∧
    t'.Tiled ∧ t'.StandsIn (Bytes.ofString "b\nmne") := by
  obtain ⟨l, t, t', hl, hf, hsame, he, -⟩ := Grammar.exists_hollow_edit
  obtain ⟨-, -, -, hedit⟩ := Language.edit_tiles hl hf.obtained hsame .breakLine
  obtain ⟨-, htiled, -, hstands⟩ := hedit t' he
  have htext : Edit.replaced (Bytes.ofString "bmne") 0 1 (Bytes.ofString "b\n")
      = Bytes.ofString "b\nmne" := by decide
  exact ⟨l, t, t', hl, hf.obtained, hsame, he, htiled, htext ▸ (hstands _ _ _ _ hf rfl).1⟩

/-! ## What edits leave alone -/

/-- What an edit makes of a node. -/
structure Edit.Frames (e : Edit) (n n' : Node) : Prop where
  root : n.path = [] → n'.subtree.info.changed = true
  marked : n.subtree.info.changed = true → n'.subtree.info.changed = true
  /-- What the edit can influence is marked. -/
  touched : n.subtree.info.changed = false → ¬n.subtree.IsHollow → n.startByte ≤ e.oldEnd.bytes →
    e.start.bytes < n.endByte + n.subtree.info.lookahead → n'.subtree.info.changed = true
  above : n'.subtree.info.changed = true → ∀ d ∈ n'.path, d.parent.info.changed = true
  same : n'.subtree.info.changed = false → n'.subtree = n.subtree
  moved : n'.subtree.info.changed = false → ¬n.subtree.IsHollow →
    if n.endByte + n.subtree.info.lookahead ≤ e.start.bytes then n'.startByte = n.startByte
    else n'.startByte + e.oldEnd.bytes = n.startByte + e.newEnd.bytes

/-- The root is marked by every edit. -/
theorem Tree.Twin.changed_of_root {n n' : Node} (h : Tree.Twin t t' n n') (he : t.edit e = .ok t')
    (hn : n.path = []) : n'.subtree.info.changed = true := by
  obtain ⟨-, -, rfl⟩ := Tree.edit_eq_ok he
  cases h with
  | root =>
    obtain ⟨⟨i, cs⟩, _, _⟩ := t
    simp only [Tree.rootNode]
    rfl
  | child _ hc _ =>
    rw [Node.getElem?_storedChildren] at hc
    obtain ⟨d, -, rfl⟩ := Option.map_eq_some_iff.mp hc
    simp at hn

/-- An edit changes sizes, places and marks, and nothing else.  The nodes are the same ones, and
all those are marked that the edit can influence, with all nodes above them; a node that is not
marked is as it was, where it was or moved with the text behind the edit.  Hollow errors alone
may be moved without a mark. -/
theorem Language.edit_frames {handle : Nat} {grammar : Grammar} {scanner : Option Scanner}
    (h : Language.ofGrammar handle grammar scanner = .ok l) (ht : l.Obtained t)
    (hl : t.language.sameAs l = true) (he : t.edit e = .ok t') :
    t'.language = t.language ∧ t'.complete = t.complete ∧ t'.root.shape = t.root.shape ∧
      (∀ n, t.HasNode n → ∃ n', Tree.Twin t t' n n') ∧
      (∀ n', t'.HasNode n' → ∃ n, Tree.Twin t t' n n') ∧
      ∀ n n', Tree.Twin t t' n n' → e.Frames n n' := by
  obtain ⟨g, -, hg⟩ := Language.ofGrammar_sound h
  obtain ⟨w, hspells⟩ := ht.spells hg hl
  have hsteady := ht.steady hg hl
  have hl' : t'.language.sameAs l = true := by rwa [Tree.language_of_edit he]
  have hsteady' := (ht.edited he).steady hg hl'
  obtain ⟨-, hw, ht'⟩ := Tree.edit_eq_ok he
  have hshape : t'.root.shape = t.root.shape := by
    rw [ht']
    exact shape_edit _ _ _ _
  have hframed : Framed e.start.bytes e.oldEnd.bytes e.newEnd.bytes 0 0 t.root t'.root := by
    rw [ht']
    exact framed_within hsteady hw
  refine ⟨Tree.language_of_edit he, by rw [ht'], hshape,
    fun n hn => Tree.Twin.exists_twin hshape hn, fun n' hn' => ?_, fun n n' htwin => ?_⟩
  · obtain ⟨n, htwin⟩ := Tree.Twin.exists_twin hshape.symm hn'
    exact ⟨n, htwin.symm⟩
  · have hroot := htwin.changed_of_root he
    -- a node that looked at nothing is the root or hollow
    have hlookahead (hn : ¬n.subtree.IsHollow) (hn' : n'.subtree.info.changed = false) :
        n.subtree.info.lookahead ≠ 0 := by
      intro hz
      have hpath : n.path ≠ [] := fun hnil => by
        rw [hroot hnil] at hn'
        contradiction
      exact hn (htwin.hasNode.isHollow measure_counts hsteady hspells hpath hz)
    obtain ⟨hmarked, htouched, hsame, hmoved⟩ := (htwin.framed hframed).here
    refine ⟨hroot, hmarked, fun hc hn hle hlt => ?_, htwin.symm.hasNode.marked hsteady', hsame,
      fun hc hn => hmoved hc (hlookahead hn hc)⟩
    by_contra hn'
    exact hn' (htouched hc (hlookahead hn (by simpa using hn')) hle hlt)

theorem Language.edit_frames_hollow : ∃ l t t' n n', Language.ofGrammar 0 .hollow none = .ok l ∧
    l.Obtained t ∧ t.language.sameAs l = true ∧ t.edit .breakLine = .ok t' ∧
    Tree.Twin t t' n n' ∧ n'.subtree = n.subtree ∧ n.startByte = 3 ∧ n'.startByte = 4 := by
  obtain ⟨l, t, t', hl, hf, hsame, he, hnode⟩ := Grammar.exists_hollow_edit
  obtain ⟨-, -, -, -, -, hframes⟩ := Language.edit_frames hl hf.obtained hsame he
  obtain ⟨n, hn, hnode⟩ := (Option.any_eq_true _ _).mp hnode
  obtain ⟨n', hn', hnode⟩ := (Option.any_eq_true _ _).mp hnode
  simp only [Bool.and_eq_true, Bool.not_eq_true', beq_iff_eq] at hnode
  obtain ⟨⟨hchanged, hstart⟩, hstop⟩ := hnode
  have htwin : Tree.Twin t t' n n' := .child .root hn hn'
  have hsolid : ¬n.subtree.IsHollow := fun hhollow => by
    rw [Node.endByte, hhollow.bytes, ← Node.startByte, hstart] at hstop
    exact absurd hstop (by decide)
  have hmoved := (hframes n n' htwin).moved hchanged hsolid
  have hplaces : Edit.breakLine.start.bytes = 0 ∧ Edit.breakLine.oldEnd.bytes = 1 ∧
      Edit.breakLine.newEnd.bytes = 2 := by decide
  rw [hplaces.1, hplaces.2.1, hplaces.2.2] at hmoved
  refine ⟨l, t, t', n, n', hl, hf.obtained, hsame, he, htwin, (hframes n n' htwin).same hchanged,
    hstart, ?_⟩
  split at hmoved <;> omega

-- a hollow error is moved behind new text without a mark
set_option maxRecDepth 100000 in
example : (Language.ofGrammar 0 .hollow none).toOption.any (fun l =>
    let t := (l.parse { maxOperations := some 6 } (Bytes.ofString "ae") none).1
    let e := Edit.replace (Bytes.ofString "a") 1 1 (Bytes.ofString "x")
    (t.edit e).toOption.any fun t' => (t'.rootNode.storedChildren[1]?).any fun n =>
      n.startByte == 2 && !n.subtree.info.changed) = true := by
  decide +kernel

end Glr
