import Glr.Proofs.Tree.Priced
import Glr.Proofs.Tree.Words

/-!
# Glr.Proofs.Tree.Marks

Which words of a node may stand behind an extra, while the node may still be shown under another
symbol.  A leaf may until it is a child, so all that counts of it is where it was found; the
leaves in a node with children stay as they are:

```
leaf                  ↦   free if it was found behind an extra
node with children    ↦   each of its words is free unless it may stand behind no extra
```

Under a node a leaf keeps what it has, so words that follow each other as they may still do when
nodes are built over them.
-/

namespace Glr.Subtree

open Parse

variable {l : Language} {Bound : NodeInfo → Prop} {size : Nat} {t : Subtree} {ts : List Subtree}
  {cs : List (Child Subtree)}

/-! ## Marks -/

/-- What of a word counts for those beside it. -/
structure Mark where
  extra : Bool
  /-- It may stand behind an extra. -/
  free : Prop

/-- The one may stand directly before the other. -/
def Mark.Before (a b : Mark) : Prop := a.extra = true → b.free

/-- The other is free at least where the one is. -/
def Mark.Yields (a b : Mark) : Prop := b.extra = a.extra ∧ (a.free → b.free)

/-- The marks of words that nothing changes any more. -/
def settled (Bound : NodeInfo → Prop) (js : List NodeInfo) : List Mark :=
  js.map fun j => ⟨j.extra, ¬Bound j⟩

/-- The marks of the words of a node on a stack.  A leaf may still be shown under another symbol,
so it counts as free only if it was found behind an extra. -/
def marks (Bound : NodeInfo → Prop) (t : Subtree) : List Mark :=
  if t.isLeaf then t.words.map fun j => ⟨j.extra, j.afterExtra = true⟩ else settled Bound t.words

theorem marks_leaf (i : NodeInfo) : marks Bound (.mk i []) =
    if i.size.bytes = 0 then [] else [⟨i.extra, i.afterExtra = true⟩] := by
  rw [marks, if_pos (show (Subtree.mk i []).isLeaf = true from rfl), words_leaf]
  split <;> rfl

theorem marks_inner (i : NodeInfo) (h : cs ≠ []) :
    marks Bound (.mk i cs) = settled Bound (wordsAll cs) := by
  rw [marks, if_neg (by simpa [isLeaf, Subtree.children] using h), words_of_ne_nil h]

theorem map_extra_marks (t : Subtree) :
    (marks Bound t).map Mark.extra = t.words.map NodeInfo.extra := by
  unfold marks settled
  split <;> exact List.map_map

/-- The marks of nodes say which of their words are extras. -/
theorem map_extra_flatMap (ts : List Subtree) :
    (ts.flatMap (marks Bound)).map Mark.extra = (ts.flatMap words).map NodeInfo.extra := by
  simp only [List.map_flatMap, map_extra_marks]

/-- The last elements of lists are alike where the lists are. -/
theorem exists_getLast?_of_map_eq {α β γ : Type*} {f : α → γ} {f' : β → γ} {as : List α}
    {bs : List β} (h : as.map f = bs.map f') {a : α} (ha : a ∈ as.getLast?) :
    ∃ b ∈ bs.getLast?, f' b = f a := by
  have hlast := congrArg List.getLast? h
  rw [List.getLast?_map, List.getLast?_map, ha, Option.map_some] at hlast
  exact Option.map_eq_some_iff.mp hlast.symm

theorem settled_append (is js : List NodeInfo) :
    settled Bound (is ++ js) = settled Bound is ++ settled Bound js :=
  List.map_append

/-- The marks of words may stand as they do exactly if the words may. -/
theorem isChain_settled_iff {js : List NodeInfo} :
    (settled Bound js).IsChain Mark.Before ↔ js.IsChain (MayFollow Bound) := by
  rw [settled, List.isChain_map]
  rfl

/-- The marks of a node by itself. -/
theorem isChain_marks (h : Everywhere (Sealed l Bound size) t) :
    (marks Bound t).IsChain Mark.Before := by
  obtain ⟨i, cs⟩ := t
  cases cs with
  | nil =>
    rw [marks_leaf]
    split
    · exact .nil
    · exact .singleton _
  | cons c cs =>
    rw [marks_inner i (List.cons_ne_nil c cs), isChain_settled_iff,
      ← words_of_ne_nil (i := i) (List.cons_ne_nil c cs)]
    exact h.here.follow

/-- A node that is built over others has their marks as of now. -/
theorem marks_node (spec : Spec) (h : ∀ c ∈ cs, Everywhere (Sealed l Bound size) c.node)
    {f : NodeInfo → NodeInfo} (hf : ∀ i, (f i).size = i.size) :
    marks Bound ((Subtree.node l spec cs).withInfo f) = settled Bound (wordsAll cs) := by
  have hwords := words_node spec h
  have hsize := size_node l spec cs
  rw [← hwords]
  generalize Subtree.node l spec cs = t at hsize
  obtain ⟨i, children⟩ := t
  cases children with
  | nil =>
    change i.size = Length.zero at hsize
    rw [withInfo_mk, marks_leaf, words_leaf, hf, hsize]
    rfl
  | cons c rest =>
    rw [withInfo_mk, marks_inner _ (List.cons_ne_nil c rest),
      words_of_ne_nil (List.cons_ne_nil c rest)]

/-- What a node was taken as does not matter behind others. -/
theorem isChain_append_retaken {as : List Mark} {f : NodeInfo → NodeInfo}
    (hf : ∀ i, (f i).size = i.size ∧ (f i).afterExtra = i.afterExtra)
    (h : (as ++ marks Bound t).IsChain Mark.Before) :
    (as ++ marks Bound (t.withInfo f)).IsChain Mark.Before := by
  obtain ⟨i, cs⟩ := t
  obtain ⟨hsize, hafter⟩ := hf i
  cases cs with
  | nil =>
    rw [withInfo_mk]
    rw [marks_leaf] at h ⊢
    rw [hsize, hafter]
    split
    · rename_i hz
      rwa [if_pos hz] at h
    · rename_i hz
      rw [if_neg hz, List.isChain_append] at h
      exact List.isChain_append.mpr ⟨h.1, .singleton _, fun a ha b hb => by
        obtain rfl := Option.some.inj hb
        exact h.2.2 a ha ⟨i.extra, i.afterExtra = true⟩ rfl⟩
  | cons c cs =>
    rw [marks_inner i (List.cons_ne_nil c cs)] at h
    rwa [withInfo_mk, marks_inner _ (List.cons_ne_nil c cs)]

/-! ### Words that stay -/

theorem isChain_of_yields {as bs : List Mark} (h : List.Forall₂ Mark.Yields as bs)
    (hc : as.IsChain Mark.Before) : bs.IsChain Mark.Before := by
  induction h with
  | nil => exact .nil
  | @cons a b as bs hab h ih =>
    cases h with
    | nil => exact .singleton _
    | @cons c d as bs hcd h =>
      rw [List.isChain_cons_cons] at hc ⊢
      exact ⟨fun hx => hcd.2 (hc.1 (hab.1 ▸ hx)), ih hc.2⟩

theorem map_extra_of_yields {as bs : List Mark} (h : List.Forall₂ Mark.Yields as bs) :
    bs.map Mark.extra = as.map Mark.extra := by
  induction h with
  | nil => rfl
  | cons hab _ ih => rw [List.map_cons, List.map_cons, hab.1, ih]

theorem yields_refl (as : List Mark) : List.Forall₂ Mark.Yields as as :=
  List.forall₂_same.mpr fun _ _ => ⟨rfl, id⟩

section

variable (hBound : ∀ i, Bound i → i.afterExtra = false)
include hBound

/-- Within other nodes a node keeps its words, also where it is shown under another symbol. -/
theorem yields_withInfo (t : Subtree) {f : NodeInfo → NodeInfo}
    (hf : ∀ i, (f i).size = i.size ∧ (f i).extra = i.extra ∧ (f i).afterExtra = i.afterExtra) :
    List.Forall₂ Mark.Yields (marks Bound t) (settled Bound (t.withInfo f).words) := by
  obtain ⟨i, cs⟩ := t
  cases cs with
  | nil =>
    obtain ⟨hsize, hextra, hafter⟩ := hf i
    rw [withInfo_mk, marks_leaf, words_leaf, hsize]
    split
    · exact .nil
    · refine .cons ⟨hextra, fun hfree hb => ?_⟩ .nil
      have hnot := hBound _ hb
      rw [hafter, hfree] at hnot
      contradiction
  | cons c cs =>
    rw [withInfo_mk, marks_inner i (List.cons_ne_nil c cs),
      words_of_ne_nil (List.cons_ne_nil c cs)]
    exact yields_refl _

theorem yields_self (t : Subtree) :
    List.Forall₂ Mark.Yields (marks Bound t) (settled Bound t.words) := by
  have h := yields_withInfo hBound t (f := id) fun _ => ⟨rfl, rfl, rfl⟩
  rwa [withInfo_id] at h

theorem yields_flatMap (ts : List Subtree) :
    List.Forall₂ Mark.Yields (ts.flatMap (marks Bound)) (settled Bound (ts.flatMap words)) := by
  induction ts with
  | nil => exact .nil
  | cons t ts ih =>
    rw [List.flatMap_cons, List.flatMap_cons, settled_append]
    exact List.rel_append (yields_self hBound t) ih

/-- The words of nodes follow each other as they may if their marks do. -/
theorem isChain_words (h : (ts.flatMap (marks Bound)).IsChain Mark.Before) :
    (ts.flatMap words).IsChain (MayFollow Bound) :=
  isChain_settled_iff.mp (isChain_of_yields (yields_flatMap hBound ts) h)

/-- A node that is shown under a visible symbol keeps its words. -/
theorem sealed_withSymbol (h : Everywhere (Sealed l Bound size) t) (herror : t.isError = false)
    {s : Symbol} (hs : l.isVisible s = true) :
    Everywhere (Sealed l Bound size) (t.withSymbol l s) ∧
      List.Forall₂ Mark.Yields (marks Bound t) (settled Bound (t.withSymbol l s).words) := by
  unfold withSymbol
  split
  · exact ⟨h, yields_self hBound t⟩
  · refine ⟨sealed_withInfo h ⟨rfl, rfl⟩ (fun he => ?_) fun hhidden => ?_,
      yields_withInfo hBound t fun _ => ⟨rfl, rfl, rfl⟩⟩
    · exact absurd he (isError_eq_false_iff.mp herror)
    · obtain ⟨i, cs⟩ := t
      simp [isHidden, withInfo, Subtree.info, hs] at hhidden

/-- The children of a production have the words of the nodes that they are made of. -/
theorem yields_dress (fields : List (Option FieldId)) {labels : List (Option Symbol)}
    (hlabels : ∀ s, some s ∈ labels → l.isVisible s = true)
    (hts : ∀ t ∈ ts, Everywhere (Sealed l Bound size) t ∧
      (t.isError = true → t.info.extra = true)) :
    (∀ c ∈ dress l fields labels ts, Everywhere (Sealed l Bound size) c.node) ∧
      List.Forall₂ Mark.Yields (ts.flatMap (marks Bound))
        (settled Bound (wordsAll (dress l fields labels ts))) := by
  induction ts generalizing fields labels with
  | nil => exact ⟨by simp [dress], .nil⟩
  | cons t ts ih =>
    obtain ⟨⟨ht, herror⟩, hrest⟩ := List.forall_mem_cons.mp hts
    rw [dress, List.flatMap_cons]
    split
    · obtain ⟨hall, hmarks⟩ := ih fields hlabels hrest
      rw [wordsAll, settled_append]
      exact ⟨List.forall_mem_cons.mpr ⟨ht, hall⟩, List.rel_append (yields_self hBound t) hmarks⟩
    · rename_i hx
      obtain ⟨hall, hmarks⟩ := ih fields.tail
        (fun s hs => hlabels s (List.mem_of_mem_tail hs)) hrest
      have hshown (s : Symbol) (hs : labels.head?.join = some s) : l.isVisible s = true :=
        hlabels s (List.mem_of_mem_head? (Option.join_eq_some_iff.mp hs))
      generalize labels.head?.join = label at hshown
      rw [wordsAll, settled_append]
      cases label with
      | none =>
        exact ⟨List.forall_mem_cons.mpr ⟨ht, hall⟩, List.rel_append (yields_self hBound t) hmarks⟩
      | some s =>
        have hsound : t.isError = false := Bool.eq_false_iff.mpr fun he => hx (herror he)
        obtain ⟨hsealed, hyields⟩ := sealed_withSymbol hBound ht hsound (hshown s rfl)
        exact ⟨List.forall_mem_cons.mpr ⟨hsealed, hall⟩, List.rel_append hyields hmarks⟩

end

end Glr.Subtree
