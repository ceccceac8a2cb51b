import Glr.Proofs.Tree.Layout
import Glr.Tree.Edit

/-!
# Glr.Proofs.Tree.Edit

What edits leave of a tree.  A node that no edit touched is laid out as it was built,
and no node is outgrown by its children, whatever the points of the edits say:

```
new size of the children  ≤  new size of the node
```
-/

namespace Glr

namespace Subtree

variable {A : LeafRule} {start : Nat}

/-- Where a leaf stands does not count. -/
def Anywhere (A : LeafRule) : Prop := ∀ s s' i, A s i → A s' i

mutual
theorem Laid.move (hA : Anywhere A) {start start' : Nat} :
    ∀ {t : Subtree}, Laid A start t → Laid A start' t
  | .mk _ [], h => laid_leaf.mpr (hA _ _ _ (laid_leaf.mp h))
  | .mk _ (_ :: _), h => by
    rw [Laid] at h ⊢
    exact ⟨h.1, LaidAll.move hA h.2⟩

theorem LaidAll.move (hA : Anywhere A) {start start' : Nat} :
    ∀ {cs : List (Child Subtree)}, LaidAll A start cs → LaidAll A start' cs
  | [], _ => trivial
  | ⟨_, _⟩ :: _, h => by
    rw [LaidAll] at h ⊢
    exact ⟨Laid.move hA h.1, LaidAll.move hA h.2⟩
end

/-- The bytes of some children. -/
def width (cs : List (Child Subtree)) : Nat := (span (cs.map Child.node)).bytes

@[simp] theorem width_nil : width [] = 0 := rfl

@[simp] theorem width_cons (c : Child Subtree) (cs : List (Child Subtree)) :
    width (c :: cs) = c.node.size.bytes + width cs := rfl

/-! ## What no edit touched -/

/-- What may be said of a node that starts at an offset. -/
abbrev NodeRule := Nat → Subtree → Prop

mutual
/-- What holds of a tree that was edited: nodes that no edit touched are as they were built, and
children fit into their node. -/
def Kept (U : NodeRule) (start : Nat) : Subtree → Prop
  | .mk info cs =>
    (info.changed = false → U start (.mk info cs)) ∧ width cs ≤ info.size.bytes ∧
      KeptAll U start cs
/-- All children are kept. -/
def KeptAll (U : NodeRule) (start : Nat) : List (Child Subtree) → Prop
  | [] => True
  | ⟨_, t⟩ :: rest => Kept U start t ∧ KeptAll U (start + t.size.bytes) rest
end

variable {U : NodeRule}

/-- It holds of some children, one after another. -/
def AllAt (U : NodeRule) (start : Nat) : List (Child Subtree) → Prop
  | [] => True
  | c :: rest => U start c.node ∧ AllAt U (start + c.node.size.bytes) rest

/-- What holds of a node holds of its children where they stand, and they fit into it. -/
structure PassedOn (U : NodeRule) : Prop where
  children : ∀ start info cs, U start (.mk info cs) → AllAt U start cs
  width : ∀ start info cs, U start (.mk info cs) → width cs ≤ info.size.bytes

mutual
/-- A tree that no edit touched is kept. -/
theorem PassedOn.kept (hU : PassedOn U) {start : Nat} :
    ∀ {t : Subtree}, U start t → Kept U start t
  | .mk info cs, h => by
    rw [Kept]
    exact ⟨fun _ => h, hU.width _ _ _ h, hU.keptAll (hU.children _ _ _ h)⟩

theorem PassedOn.keptAll (hU : PassedOn U) {start : Nat} :
    ∀ {cs : List (Child Subtree)}, AllAt U start cs → KeptAll U start cs
  | [], _ => trivial
  | ⟨_, _⟩ :: _, h => ⟨hU.kept h.1, hU.keptAll h.2⟩
end

/-- Trees that are laid out are so throughout. -/
theorem passedOn_laid : PassedOn (Laid A) where
  children start info cs h := by
    have key (cs : List (Child Subtree)) (start : Nat) (h : LaidAll A start cs) :
        AllAt (Laid A) start cs := by
      induction cs generalizing start with
      | nil => trivial
      | cons c rest ih =>
        rw [LaidAll] at h
        exact ⟨h.1, ih _ h.2⟩
    exact key cs start h.laidAll_children
  width start info cs h := by
    cases cs with
    | nil => exact Nat.zero_le _
    | cons c cs =>
      rw [Laid, size_of_eq_span] at h
      exact Nat.le_of_eq (congrArg Length.bytes h.1).symm

mutual
theorem Kept.move (hU : ∀ s s' t, U s t → U s' t) {start start' : Nat} :
    ∀ {t : Subtree}, Kept U start t → Kept U start' t
  | .mk info cs, h => by
    rw [Kept] at h ⊢
    exact ⟨fun hc => hU _ _ _ (h.1 hc), h.2.1, h.2.2.move hU⟩

theorem KeptAll.move (hU : ∀ s s' t, U s t → U s' t) {start start' : Nat} :
    ∀ {cs : List (Child Subtree)}, KeptAll U start cs → KeptAll U start' cs
  | [], _ => trivial
  | ⟨_, _⟩ :: _, h => by
    rw [KeptAll] at h ⊢
    exact ⟨h.1.move hU, h.2.move hU⟩
end

/-! ## Sizes after an edit -/

/-- The bytes between two places that lie between two others. -/
def overlap (low high start stop : Nat) : Nat := min high stop - max low start

theorem bytes_clamp (value low high : Length) (h : low.bytes ≤ high.bytes) :
    (value.clamp low high).bytes = min (max value.bytes low.bytes) high.bytes := by
  unfold Length.clamp
  split
  · omega
  · split <;> omega

theorem bytes_sizeAfter {size oldEnd : Length} (newEnd : Length)
    (h : oldEnd.bytes ≤ size.bytes) :
    (sizeAfter size oldEnd newEnd).bytes + oldEnd.bytes = newEnd.bytes + size.bytes := by
  unfold sizeAfter
  split
  · rw [Length.bytes_add, Length.bytes_sub]
    omega
  · omega

theorem size_edit (start oldEnd newEnd : Length) (t : Subtree) :
    (edit start oldEnd newEnd t).size = sizeAfter t.size oldEnd newEnd := by
  obtain ⟨info, cs⟩ := t
  rw [edit]
  rfl

theorem overlap_split {low high a b c : Nat} (hab : a ≤ b) (hbc : b ≤ c) (h : low ≤ high) :
    overlap low high a c = overlap low high a b + overlap low high b c := by
  unfold overlap
  omega

/-- An edited child loses what the edit takes from it and gains the new text. -/
theorem bytes_edit_child (s : Share) (childStart : Length) (t : Subtree) (new : Length)
    (h : s.start.bytes ≤ s.oldEnd.bytes) :
    let childEnd := childStart + t.size
    let start := s.start.clamp childStart childEnd - childStart
    let oldEnd := s.oldEnd.clamp childStart childEnd - childStart
    (edit start oldEnd (start + new) t).size.bytes
        + overlap s.start.bytes s.oldEnd.bytes childStart.bytes childEnd.bytes
      = t.size.bytes + new.bytes := by
  intro childEnd start oldEnd
  have hend : childEnd.bytes = childStart.bytes + t.size.bytes := rfl
  have hle : childStart.bytes ≤ childEnd.bytes := by omega
  have hstart : start.bytes = min (max s.start.bytes childStart.bytes) childEnd.bytes
      - childStart.bytes := by rw [Length.bytes_sub, bytes_clamp _ _ _ hle]
  have hold : oldEnd.bytes = min (max s.oldEnd.bytes childStart.bytes) childEnd.bytes
      - childStart.bytes := by rw [Length.bytes_sub, bytes_clamp _ _ _ hle]
  have hsize := bytes_sizeAfter (start + new) (show oldEnd.bytes ≤ t.size.bytes by omega)
  rw [Length.bytes_add] at hsize
  rw [size_edit, overlap]
  omega

/-- What an edit does not touch has no part of its range. -/
theorem overlap_of_not_touches {s : Share} {childStart childEnd : Length} {t : Subtree}
    (h : ¬s.touches childStart childEnd t = true) :
    overlap s.start.bytes s.oldEnd.bytes childStart.bytes childEnd.bytes = 0 := by
  simp only [Share.touches, Bool.and_eq_true, decide_eq_true_eq, gt_iff_lt] at h
  unfold overlap
  omega

/-- The bytes of the new text that is still to be placed. -/
def Share.toPlace (s : Share) : Nat := (s.inserted.getD Length.zero).bytes

/-- The children lose what the edit takes from them and gain the new text, which goes to
one of them at most. -/
theorem width_editAll (cs : List (Child Subtree)) (s : Share) (childStart : Length)
    (h : s.start.bytes ≤ s.oldEnd.bytes) :
    width (editAll s childStart cs)
        + overlap s.start.bytes s.oldEnd.bytes childStart.bytes (childStart.bytes + width cs)
      ≤ width cs + s.toPlace := by
  induction cs generalizing s childStart with
  | nil =>
    rw [editAll, width_nil, overlap]
    omega
  | cons c rest ih =>
    obtain ⟨field, t⟩ := c
    have hsplit := overlap_split (a := childStart.bytes) (b := (childStart + t.size).bytes)
      (c := (childStart + t.size).bytes + width rest) (Nat.le_add_right _ _) (Nat.le_add_right _ _) h
    rw [editAll, width_cons, show childStart.bytes + (t.size.bytes + width rest)
      = (childStart + t.size).bytes + width rest from (Nat.add_assoc ..).symm, hsplit]
    simp only
    split
    · split
      · have hchild := bytes_edit_child s childStart t (s.inserted.getD Length.zero) h
        have hrest := ih { s with inserted := none } (childStart + t.size) h
        rw [show Share.toPlace { s with inserted := none } = 0 from rfl] at hrest
        rw [width_cons, Share.toPlace]
        simp only at hchild hrest ⊢
        omega
      · have hchild := bytes_edit_child s childStart t Length.zero h
        have hrest := ih s (childStart + t.size) h
        rw [bytes_zero] at hchild
        rw [width_cons]
        simp only at hchild ⊢
        omega
    · rename_i htouch
      have hrest := ih s (childStart + t.size) h
      rw [overlap_of_not_touches htouch, width_cons]
      simp only
      omega

/-! ## Edits of trees -/

/-- An edit within a node. -/
structure Within (start oldEnd newEnd size : Length) : Prop where
  start_le : start.bytes ≤ oldEnd.bytes
  oldEnd_le : oldEnd.bytes ≤ size.bytes
  newEnd_ge : start.bytes ≤ newEnd.bytes

/-- The share of a child is an edit within the child. -/
theorem within_child (s : Share) (childStart : Length) (t : Subtree) (new : Length)
    (h : s.start.bytes ≤ s.oldEnd.bytes) :
    let childEnd := childStart + t.size
    let start := s.start.clamp childStart childEnd - childStart
    Within start (s.oldEnd.clamp childStart childEnd - childStart) (start + new) t.size := by
  intro childEnd start
  have hend : childEnd.bytes = childStart.bytes + t.size.bytes := rfl
  have hle : childStart.bytes ≤ childEnd.bytes := by omega
  refine ⟨?_, ?_, Nat.le_add_right _ _⟩
  · rw [Length.bytes_sub, Length.bytes_sub, bytes_clamp _ _ _ hle, bytes_clamp _ _ _ hle]
    omega
  · rw [Length.bytes_sub, bytes_clamp _ _ _ hle]
    omega

/-- Children that fit into a node still do after an edit. -/
theorem width_edit {start oldEnd newEnd size : Length} (hw : Within start oldEnd newEnd size)
    {cs : List (Child Subtree)} (h : width cs ≤ size.bytes) :
    width (editAll ⟨start, oldEnd, some (newEnd - start)⟩ Length.zero cs)
      ≤ (sizeAfter size oldEnd newEnd).bytes := by
  have hwidth := width_editAll cs ⟨start, oldEnd, some (newEnd - start)⟩ Length.zero hw.start_le
  have hsize := bytes_sizeAfter newEnd hw.oldEnd_le
  have hnew : (newEnd - start).bytes = newEnd.bytes - start.bytes := rfl
  have hle := hw.newEnd_ge
  have hle' := hw.start_le
  have hle'' := hw.oldEnd_le
  simp only [Share.toPlace, Option.getD_some, overlap, bytes_zero] at hwidth
  omega

mutual
/-- An edited node is kept, where it does not count where nodes stand. -/
theorem Kept.edit (hU : ∀ s s' t, U s t → U s' t) {start oldEnd newEnd : Length} {at' : Nat} :
    ∀ {t : Subtree}, Kept U at' t → Within start oldEnd newEnd t.size →
      Kept U at' (t.edit start oldEnd newEnd)
  | .mk info cs, h, hw => by
    rw [Kept] at h
    rw [Subtree.edit, Kept]
    exact ⟨by simp, width_edit hw h.2.1,
      h.2.2.editAll hU ⟨start, oldEnd, some (newEnd - start)⟩ _ hw.start_le⟩

theorem KeptAll.editAll (hU : ∀ s s' t, U s t → U s' t) (s : Share) (childStart : Length) {at' : Nat} :
    ∀ {cs : List (Child Subtree)}, KeptAll U at' cs → s.start.bytes ≤ s.oldEnd.bytes →
      KeptAll U at' (Subtree.editAll s childStart cs)
  | [], _, _ => by
    rw [Subtree.editAll]
    trivial
  | ⟨field, t⟩ :: rest, h, hs => by
    rw [KeptAll] at h
    rw [Subtree.editAll]
    simp only
    split
    · split
      · exact ⟨h.1.edit hU (within_child s childStart t _ hs),
          (h.2.editAll hU { s with inserted := none } (childStart + t.size) hs).move hU⟩
      · exact ⟨h.1.edit hU (within_child s childStart t Length.zero hs),
          (h.2.editAll hU s (childStart + t.size) hs).move hU⟩
    · exact ⟨h.1, h.2.editAll hU s (childStart + t.size) hs⟩
end

end Subtree

theorem Tree.language_of_edit {t t' : Tree} {e : Edit} (he : t.edit e = .ok t') :
    t'.language = t.language := by
  unfold Tree.edit at he
  split at he
  · contradiction
  · rw [← Except.ok.inj he]

/-- An edit that a tree accepts leaves it kept. -/
theorem Tree.kept_of_edit {U : Subtree.NodeRule} (hU : ∀ s s' t, U s t → U s' t) {t t' : Tree} {e : Edit}
    (h : Subtree.Kept U 0 t.root) (he : t.edit e = .ok t') : Subtree.Kept U 0 t'.root := by
  unfold Tree.edit at he
  cases hv : e.validate t.lenBytes with
  | error err =>
    rw [hv] at he
    contradiction
  | ok u =>
    rw [hv] at he
    obtain rfl := Except.ok.inj he
    obtain ⟨⟨-, h₁⟩, ⟨h₂, h₃⟩, -⟩ := Edit.validate_eq_ok_iff.mp hv
    exact h.edit hU ⟨h₂, h₁, h₃⟩

/-! ## Replacements -/

/-- A tree accepts an edit that is valid for its text, and has the new length then. -/
theorem Tree.edit_of_validate {t : Tree} {e : Edit} (h : e.validate t.lenBytes = .ok ()) :
    ∃ t', t.edit e = .ok t' ∧ t'.lenBytes + e.oldEnd.bytes = e.newEnd.bytes + t.lenBytes := by
  refine ⟨{ t with root := t.root.edit e.start e.oldEnd e.newEnd }, ?_, ?_⟩
  · unfold Tree.edit
    rw [h]
  · have hle : e.oldEnd.bytes ≤ t.root.size.bytes := (Edit.validate_eq_ok_iff.mp h).1.2
    show (Subtree.size _).bytes + _ = _
    rw [Subtree.size_edit]
    exact Subtree.bytes_sizeAfter e.newEnd hle

/-- Replacing a part of a text is an edit that is valid for the text. -/
theorem Edit.validate_replace {text replacement : Bytes} {start stop : Nat} (h : start ≤ stop)
    (h' : stop ≤ text.size) :
    (Edit.replace text start stop replacement).validate text.size = .ok () := by
  have hsplit : text.extract 0 stop = text.extract 0 start ++ text.extract start stop := by
    simp [Array.extract_append_extract, Nat.max_eq_right h]
  rw [Edit.replace_eq h h', Edit.validate_eq_ok_iff, hsplit]
  simp only [Length.of_append, Length.bytes_add, Length.extent_add]
  refine ⟨⟨?_, ?_⟩, ⟨Nat.le_add_right _ _, Nat.le_add_right _ _⟩, Point.not_add_lt _ _,
    Point.not_add_lt _ _⟩
  · show (text.extract 0 start).size ≤ _
    simp only [Array.size_extract]
    omega
  · show (text.extract 0 start).size + (text.extract start stop).size ≤ _
    simp only [Array.size_extract]
    omega

/-- Edits that describe replacements, one after another, from a text to another. -/
inductive Edit.Leads : Bytes → List Edit → Bytes → Prop where
  | none {text : Bytes} : Leads text [] text
  | replace {text text' replacement : Bytes} {start stop : Nat} {edits : List Edit}
      (h : start ≤ stop) (h' : stop ≤ text.size)
      (hedits : Leads (text.extract 0 start ++ replacement ++ text.extract stop text.size) edits
        text') : Leads text (Edit.replace text start stop replacement :: edits) text'

/-- A tree with the length of its text accepts replacements of the text, and has the length
of the new text then. -/
theorem Edit.Leads.editAll {text text' : Bytes} {edits : List Edit} (h : Edit.Leads text edits text')
    {t : Tree} (ht : t.lenBytes = text.size) :
    ∃ t', t.editAll edits = .ok t' ∧ t'.lenBytes = text'.size := by
  induction h generalizing t with
  | none => exact ⟨t, rfl, ht⟩
  | @replace text text' replacement start stop edits h h' _ ih =>
    have hvalid : (Edit.replace text start stop replacement).validate text.size = .ok () :=
      Edit.validate_replace h h'
    rw [← ht] at hvalid
    obtain ⟨t₁, hedit, hlen⟩ := Tree.edit_of_validate hvalid
    rw [Edit.replace_eq h h', ht] at hlen
    have hsize : t₁.lenBytes =
        (text.extract 0 start ++ replacement ++ text.extract stop text.size).size := by
      simp only [Length.of, Array.size_append, Array.size_extract] at hlen ⊢
      omega
    obtain ⟨t', hedits, hlen'⟩ := ih hsize
    refine ⟨t', ?_, hlen'⟩
    unfold Tree.editAll
    rw [List.foldlM_cons, hedit]
    exact hedits

end Glr
