import Glr.Proofs.Tree.Chain
import Glr.Tree.ChangedRanges

/-!
# Glr.Proofs.Tree.ChangedRanges

What the changed ranges of two trees say.  The trees are walked in preorder, in which starts
never go back, so a range that is added meets the last one or lies behind it:

```
ranges of what is behind  <  ranges from here on
```

* `Range.Merged.addTo` — ranges stay apart and in order;
* `stored_of_sameAs` — what is passed over is in both trees alike;
* `addChanges_spec` — every leaf is covered by a range or in the old tree as well.
-/

namespace Glr

open Subtree

/-! ## Ranges -/

namespace Range

variable {ranges : List Range} {r : Range} {limit a b : Nat}

/-- Ranges, the last one first, that are apart from each other and start at a byte at most. -/
structure Merged (limit : Nat) (ranges : List Range) : Prop where
  apart : ranges.Pairwise fun r s => s.endByte < r.startByte
  forward : ∀ r ∈ ranges, r.startByte ≤ r.endByte
  upTo : ∀ r ∈ ranges, r.startByte ≤ limit

/-- All bytes between two places are in one of the ranges. -/
def Covered (ranges : List Range) (start stop : Nat) : Prop :=
  ∃ r ∈ ranges, r.startByte ≤ start ∧ stop ≤ r.endByte

theorem merged_nil : Merged limit [] := ⟨.nil, by simp, by simp⟩

theorem Merged.mono {limit' : Nat} (h : Merged limit ranges) (hle : limit ≤ limit') :
    Merged limit' ranges :=
  ⟨h.apart, h.forward, fun r hr => (h.upTo r hr).trans hle⟩

theorem Covered.mono {a' b' : Nat} (h : Covered ranges a b) (ha : a ≤ a') (hb : b' ≤ b) :
    Covered ranges a' b' := by
  obtain ⟨r, hr, hstart, hstop⟩ := h
  exact ⟨r, hr, hstart.trans ha, hb.trans hstop⟩

/-- A range is added to the last one, which it extends, or behind it. -/
theorem addTo_cons (last : Range) (before : List Range) (r : Range) :
    ∃ last' added, addTo (last :: before) r = added ++ last' :: before ∧
      last'.startByte = last.startByte ∧ last.endByte ≤ last'.endByte ∧
      (added = [] ∧ r.startByte ≤ last.endByte ∧ r.endByte ≤ last'.endByte ∨
        added = [r] ∧ last' = last ∧ last.endByte < r.startByte) := by
  simp only [addTo]
  split
  · split
    · exact ⟨_, [], rfl, rfl, by simp only; omega, .inl ⟨rfl, ‹_›, Nat.le_refl _⟩⟩
    · exact ⟨last, [], rfl, rfl, Nat.le_refl _, .inl ⟨rfl, ‹_›, by omega⟩⟩
  · exact ⟨last, [r], rfl, rfl, Nat.le_refl _, .inr ⟨rfl, rfl, by omega⟩⟩

theorem Merged.addTo (h : Merged limit ranges) (hr : r.startByte ≤ r.endByte)
    (hlimit : limit ≤ r.startByte) : Merged r.startByte (addTo ranges r) := by
  cases ranges with
  | nil =>
    exact ⟨List.pairwise_singleton _ _, by simpa [Range.addTo] using hr, by simp [Range.addTo]⟩
  | cons last before =>
    obtain ⟨hapart, hbefore⟩ := List.pairwise_cons.mp h.apart
    obtain ⟨hforward, hforwards⟩ := List.forall_mem_cons.mp h.forward
    obtain ⟨hlast, hlasts⟩ := List.forall_mem_cons.mp h.upTo
    obtain ⟨last', added, heq, hstart, hstop, ⟨rfl, -, -⟩ | ⟨rfl, rfl, hbehind⟩⟩ :=
      addTo_cons last before r
    · rw [heq, List.nil_append]
      refine ⟨List.pairwise_cons.mpr ⟨fun s hs => ?_, hbefore⟩,
        List.forall_mem_cons.mpr ⟨by omega, hforwards⟩,
        List.forall_mem_cons.mpr ⟨by omega, fun s hs => (hlasts s hs).trans hlimit⟩⟩
      have := hapart s hs
      omega
    · rw [heq, List.singleton_append]
      refine ⟨List.pairwise_cons.mpr ⟨List.forall_mem_cons.mpr ⟨hbehind, fun s hs => ?_⟩, h.apart⟩,
        List.forall_mem_cons.mpr ⟨hr, h.forward⟩,
        List.forall_mem_cons.mpr ⟨Nat.le_refl _, fun s hs => (h.upTo s hs).trans hlimit⟩⟩
      have := hapart s hs
      omega

/-- What is covered stays covered. -/
theorem Covered.addTo (h : Covered ranges a b) (r : Range) : Covered (addTo ranges r) a b := by
  obtain ⟨s, hs, hstart, hstop⟩ := h
  cases ranges with
  | nil => simp at hs
  | cons last before =>
    obtain ⟨last', added, heq, hstart', hstop', -⟩ := addTo_cons last before r
    rw [heq]
    rcases List.mem_cons.mp hs with rfl | hs
    · exact ⟨last', by simp, by omega, by omega⟩
    · exact ⟨s, by simp [hs], hstart, hstop⟩

/-- A range that starts behind the others is covered once it is added. -/
theorem covered_addTo (h : Merged limit ranges) (hlimit : limit ≤ r.startByte) :
    Covered (addTo ranges r) r.startByte r.endByte := by
  cases ranges with
  | nil => exact ⟨r, List.mem_singleton_self r, Nat.le_refl _, Nat.le_refl _⟩
  | cons last before =>
    have hlast := h.upTo last List.mem_cons_self
    obtain ⟨last', added, heq, hstart, -, ⟨rfl, -, hstop⟩ | ⟨rfl, rfl, -⟩⟩ :=
      addTo_cons last before r
    · exact ⟨last', by simp [heq], by omega, hstop⟩
    · exact ⟨r, by simp [heq], Nat.le_refl _, Nat.le_refl _⟩

end Range

/-! ## The same place in another tree -/

/-- Which child a step goes to, and the symbol of the node that it starts from. -/
def Descent.turn (d : Descent) : Nat × Symbol := (d.index, d.parent.symbol)

/-- The way to a node by the indices of children and the symbols of the nodes above. -/
def Node.trail (n : Node) : List (Nat × Symbol) := n.path.map Descent.turn

/-- A node is at the place where another one is in its tree, below nodes of the same symbols, and
has its symbol and bytes. -/
structure Node.StandsFor (m n : Node) : Prop where
  symbol : m.subtree.symbol = n.subtree.symbol
  startByte : m.startByte = n.startByte
  bytes : m.subtree.size.bytes = n.subtree.size.bytes
  trail : m.trail = n.trail

/-- A leaf lies in one of the ranges, or some leaf stands for it. -/
def Node.Accounted (ranges : List Range) (ms : List Node) (n : Node) : Prop :=
  Range.Covered ranges n.startByte n.endByte ∨
    ∃ m ∈ ms, m.subtree.children = [] ∧ m.StandsFor n

theorem Node.Accounted.imp {ranges ranges' : List Range} {ms ms' : List Node} {n : Node}
    (h : n.Accounted ranges ms)
    (hranges : ∀ a b, Range.Covered ranges a b → Range.Covered ranges' a b)
    (hms : ∀ m ∈ ms, m ∈ ms') : n.Accounted ranges' ms' :=
  Or.imp (hranges _ _) (fun ⟨m, hm, hstands⟩ => ⟨m, hms m hm, hstands⟩) h

mutual
/-- Nodes that are the same have the same nodes in them. -/
theorem stored_of_sameAs (old new : Tree) {oldStart newStart : Length} (p q : List Descent)
    (htrail : p.map Descent.turn = q.map Descent.turn)
    (hstart : oldStart.bytes = newStart.bytes) :
    ∀ {s t : Subtree}, s.sameAs t = true → ∀ n ∈ (⟨new, t, newStart, q⟩ : Node).stored,
      ∃ m ∈ (⟨old, s, oldStart, p⟩ : Node).stored, m.StandsFor n ∧
        (n.subtree.children = [] → m.subtree.children = [])
  | .mk a as, .mk b bs, h, n, hn => by
    simp only [sameAs, Bool.and_eq_true, beq_iff_eq] at h
    obtain ⟨⟨⟨⟨hsymbol, hbytes⟩, -⟩, -⟩, hall⟩ := h
    rw [Node.stored_eq] at hn ⊢
    rcases List.mem_cons.mp hn with rfl | hn
    · refine ⟨_, List.mem_cons_self, ⟨hsymbol, hstart, hbytes, htrail⟩, fun hnil => ?_⟩
      obtain rfl : bs = [] := hnil
      cases as with
      | nil => rfl
      | cons _ _ => simp [sameAll] at hall
    · obtain ⟨m, hm, hstands⟩ := stored_of_sameAll ⟨old, .mk a as, oldStart, p⟩
        ⟨new, .mk b bs, newStart, q⟩ htrail hsymbol 0 hstart hall n hn
      exact ⟨m, List.mem_cons_of_mem _ hm, hstands⟩

theorem stored_of_sameAll (o n : Node) {oldStart newStart : Length} (htrail : o.trail = n.trail)
    (hsymbol : o.subtree.symbol = n.subtree.symbol) (k : Nat)
    (hstart : oldStart.bytes = newStart.bytes) : ∀ {as bs : List (Child Subtree)},
      sameAll as bs = true → ∀ c ∈ (n.place k newStart bs).flatMap Node.stored,
        ∃ m ∈ (o.place k oldStart as).flatMap Node.stored, m.StandsFor c ∧
          (c.subtree.children = [] → m.subtree.children = [])
  | [], [], _, _, hc => by simp [Node.place] at hc
  | ⟨e, s⟩ :: as, ⟨f, t⟩ :: bs, h, c, hc => by
    simp only [sameAll, Bool.and_eq_true] at h
    obtain ⟨⟨-, hs⟩, hall⟩ := h
    rw [Node.place, List.flatMap_cons] at hc ⊢
    rcases List.mem_append.mp hc with hc | hc
    · obtain ⟨m, hm, hstands⟩ := stored_of_sameAs o.tree n.tree
        (⟨o.subtree, o.start, k, e⟩ :: o.path) (⟨n.subtree, n.start, k, f⟩ :: n.path)
        (by simpa [Node.trail, Descent.turn, hsymbol] using htrail) hstart hs c hc
      exact ⟨m, List.mem_append_left _ hm, hstands⟩
    · have hbytes : s.size.bytes = t.size.bytes := by
        obtain ⟨a, as⟩ := s
        obtain ⟨b, bs⟩ := t
        simp only [sameAs, Bool.and_eq_true, beq_iff_eq] at hs
        exact hs.1.1.1.2
      have hstart : (oldStart + s.size).bytes = (newStart + t.size).bytes := by
        rw [Length.bytes_add, Length.bytes_add, hstart, hbytes]
      obtain ⟨m, hm, hstands⟩ := stored_of_sameAll o n htrail hsymbol (k + 1) hstart hall c hc
      exact ⟨m, List.mem_append_right _ hm, hstands⟩
  | [], _ :: _, h, _, _ => by simp [sameAll] at h
  | _ :: _, [], h, _, _ => by simp [sameAll] at h
end

/-! ## The walk -/

/-- The range of a pair of nodes starts where the new one does and reaches to its end. -/
theorem le_changedRange (s : Subtree) (oldStart : Length) (t : Subtree) (newStart : Length) :
    newStart.bytes + t.size.bytes ≤ (changedRange s oldStart t newStart).endByte := by
  unfold changedRange
  simp only [Range.between]
  split
  · exact Nat.le_of_lt ‹_›
  · exact Nat.le_refl _

/-- What is said of the ranges after the walk over some nodes of the new tree up to a byte: they
are merged, they cover what they did, and every leaf of the nodes is accounted for. -/
structure Walked (ranges after : List Range) (stop : Nat) (ms ns : List Node) : Prop where
  merged : Range.Merged stop after
  covered : ∀ a b, Range.Covered ranges a b → Range.Covered after a b
  leaves : ∀ n ∈ ns, n.subtree.children = [] → n.Accounted after ms

mutual
/-- The walk over two nodes at the same place accounts for every leaf of the new one. -/
theorem addChanges_spec (old new : Tree) (oldStart newStart : Length) (p q : List Descent)
    {ranges : List Range} (htrail : p.map Descent.turn = q.map Descent.turn)
    (hmerged : Range.Merged newStart.bytes ranges) :
    ∀ {s t : Subtree}, Everywhere Encloses t →
      Walked ranges (addChanges oldStart newStart ranges s t) (newStart.bytes + t.size.bytes)
        (⟨old, s, oldStart, p⟩ : Node).stored (⟨new, t, newStart, q⟩ : Node).stored
  | .mk a as, .mk b bs, h => by
    rw [addChanges]
    split
    · rename_i hsame
      simp only [Bool.and_eq_true, beq_iff_eq] at hsame
      refine ⟨hmerged.mono (Nat.le_add_right _ _), fun _ _ => id, fun n hn hleaf => .inr ?_⟩
      obtain ⟨m, hm, hstands, hleaf'⟩ := stored_of_sameAs old new p q htrail hsame.1 hsame.2 n hn
      exact ⟨m, hm, hleaf' hleaf, hstands⟩
    · split
      · rename_i hshape
        simp only [Bool.and_eq_true, beq_iff_eq] at hshape
        obtain ⟨⟨⟨hsymbol, hstart⟩, hlength⟩, hinner⟩ := hshape
        have hwidth : width bs ≤ b.size.bytes := (everywhere_mk.mp h).1
        have hall := addChangesAll_spec ⟨old, .mk a as, oldStart, p⟩ ⟨new, .mk b bs, newStart, q⟩
          oldStart newStart htrail hsymbol 0 hmerged hlength (everywhere_mk.mp h).2
        refine ⟨hall.merged.mono (Nat.add_le_add_left hwidth _), hall.covered,
          fun n hn hleaf => ?_⟩
        rw [Node.stored_eq] at hn
        rcases List.mem_cons.mp hn with rfl | hn
        · -- the node is no leaf, as it has as many children as the old one
          obtain rfl : bs = [] := hleaf
          simp [List.length_eq_zero_iff.mp hlength] at hinner
        · refine (hall.leaves n hn hleaf).imp (fun _ _ => id) fun m hm => ?_
          rw [Node.stored_eq]
          exact List.mem_cons_of_mem _ hm
      · -- what is in the node lies in the range that is added for it
        have hreach := le_changedRange (.mk a as) oldStart (.mk b bs) newStart
        have hlimit := Nat.le_refl (changedRange (.mk a as) oldStart (.mk b bs) newStart).startByte
        refine ⟨(hmerged.addTo (Nat.le_of_add_right_le hreach) hlimit).mono (Nat.le_add_right _ _),
          fun _ _ hc => hc.addTo _, fun n hn _ => .inl ?_⟩
        have hwithin := Node.within_of_mem_stored (n := ⟨new, .mk b bs, newStart, q⟩) h hn
        exact (Range.covered_addTo hmerged hlimit).mono hwithin.1 (hwithin.2.trans hreach)

theorem addChangesAll_spec (o n : Node) (oldStart newStart : Length) {ranges : List Range}
    (htrail : o.trail = n.trail) (hsymbol : o.subtree.symbol = n.subtree.symbol) (k : Nat)
    (hmerged : Range.Merged newStart.bytes ranges) : ∀ {as bs : List (Child Subtree)},
      as.length = bs.length → (∀ c ∈ bs, Everywhere Encloses c.node) →
      Walked ranges (addChangesAll oldStart newStart ranges as bs) (newStart.bytes + width bs)
        ((o.place k oldStart as).flatMap Node.stored) ((n.place k newStart bs).flatMap Node.stored)
  | [], [], _, _ => by
    rw [addChangesAll]
    · exact ⟨hmerged, fun _ _ => id, by simp [Node.place]⟩
    · simp
  | ⟨e, s⟩ :: as, ⟨f, t⟩ :: bs, hlength, h => by
    obtain ⟨ht, hbs⟩ := List.forall_mem_cons.mp h
    have hfirst := addChanges_spec o.tree n.tree oldStart newStart
      (⟨o.subtree, o.start, k, e⟩ :: o.path) (⟨n.subtree, n.start, k, f⟩ :: n.path)
      (by simpa [Node.trail, Descent.turn, hsymbol] using htrail) hmerged (s := s) ht
    have hrest := addChangesAll_spec o n (oldStart + s.size) (newStart + t.size) htrail hsymbol
      (k + 1) hfirst.merged (by simpa using hlength) hbs
    rw [addChangesAll, width_cons, ← Nat.add_assoc]
    refine ⟨hrest.merged, fun a b hc => hrest.covered a b (hfirst.covered a b hc),
      fun m hm hleaf => ?_⟩
    rw [Node.place, List.flatMap_cons] at hm
    rcases List.mem_append.mp hm with hm | hm
    · exact (hfirst.leaves m hm hleaf).imp hrest.covered fun x hx => by
        rw [Node.place, List.flatMap_cons]
        exact List.mem_append_left _ hx
    · exact (hrest.leaves m hm hleaf).imp (fun _ _ => id) fun x hx => by
        rw [Node.place, List.flatMap_cons]
        exact List.mem_append_right _ hx
  | [], _ :: _, hlength, _ => by simp at hlength
  | _ :: _, [], hlength, _ => by simp at hlength
end

/-- The changed ranges of two trees are in order and apart from each other, and account for every
leaf of the new tree: one that meets none of them is in the old tree too, at the same place below
nodes of the same symbols, with its symbol and bytes. -/
theorem Language.changedRanges_complete {handle : Nat} {grammar : Grammar}
    {scanner : Option Scanner} {l : Language}
    (h : Language.ofGrammar handle grammar scanner = .ok l) (old : Tree) {new : Tree}
    (hnew : l.Obtained new) (hl : new.language.sameAs l = true) :
    (∀ r ∈ old.changedRanges new, r.startByte ≤ r.endByte) ∧
      (old.changedRanges new).Pairwise (fun r s => r.endByte < s.startByte) ∧
      ∀ n, new.HasNode n → n.subtree.children = [] →
        (∀ r ∈ old.changedRanges new, n.endByte < r.startByte ∨ r.endByte < n.startByte) →
        ∃ m, old.HasNode m ∧ m.subtree.children = [] ∧ m.StandsFor n := by
  obtain ⟨g, -, hg⟩ := Language.ofGrammar_sound h
  have hwalked := addChanges_spec old new Length.zero Length.zero [] [] rfl Range.merged_nil
    (s := old.root) (hnew.encloses hg hl)
  have hranges (r : Range) : r ∈ old.changedRanges new ↔
      r ∈ addChanges Length.zero Length.zero [] old.root new.root := List.mem_reverse
  refine ⟨fun r hr => hwalked.merged.forward r ((hranges r).mp hr),
    List.pairwise_reverse.mpr hwalked.merged.apart, fun n hn hleaf hapart => ?_⟩
  rcases hwalked.leaves n (Tree.mem_nodes_iff.mpr hn) hleaf with ⟨r, hr, hstart, hstop⟩ | hstands
  · have := n.startByte_le_endByte
    have := hapart r ((hranges r).mpr hr)
    omega
  · obtain ⟨m, hm, hstands⟩ := hstands
    exact ⟨m, Tree.mem_nodes_iff.mp hm, hstands⟩

set_option maxRecDepth 100000 in
/-- Where two letters replace the third one of four, the first one is as it was. -/
theorem Language.changedRanges_complete_hollow : ∃ (l : Language) (old new : Tree) (n m : Node),
    Language.ofGrammar 0 .hollow none = .ok l ∧ l.Obtained old ∧ l.Obtained new ∧
    (old.changedRanges new).map (fun r => (r.startByte, r.endByte)) = [(2, 4)] ∧
    new.HasNode n ∧ n.startByte = 0 ∧ n.endByte = 1 ∧ old.HasNode m ∧ m.StandsFor n := by
  have h : (Language.ofGrammar 0 .hollow none).toOption.any (fun l =>
      let t := (l.parse {} (Bytes.ofString "amnd") none).1
      (t.edit (.replace (Bytes.ofString "amnd") 2 3 (Bytes.ofString "ef"))).toOption.any fun old =>
        let new := (l.parse {} (Bytes.ofString "amefd") (some old)).1
        new.language.sameAs l &&
          (old.changedRanges new).map (fun r => (r.startByte, r.endByte)) == [(2, 4)] &&
          new.rootNode.storedChildren[0]?.any fun n =>
            n.startByte == 0 && n.endByte == 1 && n.subtree.children.isEmpty) = true := by
    decide +kernel
  obtain ⟨l, hl, h⟩ := exists_ok h
  obtain ⟨old, hedit, h⟩ := exists_ok h
  have hold : l.Obtained old := .edited (.parsed (by simp)) hedit
  have hnew : l.Obtained (l.parse {} (Bytes.ofString "amefd") (some old)).1 :=
    .parsed (by simpa using hold)
  generalize (l.parse {} (Bytes.ofString "amefd") (some old)).1 = new at h hnew
  simp only [Bool.and_eq_true, beq_iff_eq, Option.any_eq_true] at h
  obtain ⟨⟨hsame, hranges⟩, n, hn, ⟨hstart, hstop⟩, hleaf⟩ := h
  have hn : new.HasNode n := .child .root (List.mem_of_getElem? hn)
  obtain ⟨-, -, hcomplete⟩ := Language.changedRanges_complete hl old hnew hsame
  obtain ⟨m, hm, -, hstands⟩ := hcomplete n hn (List.isEmpty_iff.mp hleaf) fun r hr => by
    have hr : (r.startByte, r.endByte) ∈ [(2, 4)] :=
      hranges ▸ List.mem_map_of_mem (f := fun r => (r.startByte, r.endByte)) hr
    obtain ⟨hstart, -⟩ := Prod.mk.inj (List.mem_singleton.mp hr)
    omega
  exact ⟨l, old, new, n, m, hl, hold, hnew, hranges, hn, hstart, hstop, hm, hstands⟩

end Glr
