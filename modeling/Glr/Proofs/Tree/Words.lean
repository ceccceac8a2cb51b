import Glr.Proofs.Tree.Framed
import Mathlib.Data.List.Chain
import Mathlib.Data.List.Forall2

/-!
# Glr.Proofs.Tree.Words

What stands behind an extra in a tree.  Only leaves with text count, the words of the tree:

```
words of a node  =  words of its children, one after another
```

Some words may stand behind no extra.  No node without error ends with an extra, for a reduction
leaves the extras on top of the stack outside; so whether a word may stand behind a node can be
told without going into it.  Only what spans a whole text has all extras inside.
-/

namespace Glr.Subtree

variable {l : Language} {Bound : NodeInfo → Prop} {A : LeafRule} {size size' : Nat} {t : Subtree}
  {ts : List Subtree} {cs : List (Child Subtree)} {i : NodeInfo} {spec : Spec}

/-! ## Words -/

mutual
/-- The leaves with text of a node, in the order of the text. -/
def words : Subtree → List NodeInfo
  | .mk info [] => if info.size.bytes = 0 then [] else [info]
  | .mk _ (c :: cs) => wordsAll (c :: cs)
/-- The leaves with text of some children. -/
def wordsAll : List (Child Subtree) → List NodeInfo
  | [] => []
  | ⟨_, t⟩ :: rest => t.words ++ wordsAll rest
end

theorem wordsAll_eq_flatMap (cs : List (Child Subtree)) :
    wordsAll cs = cs.flatMap fun c => c.node.words := by
  induction cs with
  | nil => rfl
  | cons c cs ih => rw [wordsAll, ih, List.flatMap_cons]

theorem words_leaf (i : NodeInfo) : words (.mk i []) = if i.size.bytes = 0 then [] else [i] := by
  rw [words]

theorem words_of_ne_nil (h : cs ≠ []) : words (.mk i cs) = wordsAll cs := by
  cases cs with
  | nil => contradiction
  | cons c cs => rw [words]

theorem wordsAll_append (as bs : List (Child Subtree)) :
    wordsAll (as ++ bs) = wordsAll as ++ wordsAll bs := by
  rw [wordsAll_eq_flatMap, List.flatMap_append, ← wordsAll_eq_flatMap, ← wordsAll_eq_flatMap]

/-- A word may stand directly behind another one, where `Bound` says which ones may stand behind no
extra. -/
def MayFollow (Bound : NodeInfo → Prop) (a b : NodeInfo) : Prop := a.extra = true → ¬Bound b

mutual
/-- Exactly what takes no room has no words. -/
theorem words_eq_nil_iff {start : Nat} :
    ∀ {t : Subtree}, Laid A start t → (t.words = [] ↔ t.size.bytes = 0)
  | .mk i [], _ => by
    rw [words_leaf, show (Subtree.mk i []).size = i.size from rfl]
    split <;> simp [*]
  | .mk i (c :: cs), h => by
    rw [Laid] at h
    rw [words, wordsAll_eq_nil_iff h.2, ← size_of_eq_span, ← h.1]
    rfl

theorem wordsAll_eq_nil_iff {start : Nat} : ∀ {cs : List (Child Subtree)}, LaidAll A start cs →
    (wordsAll cs = [] ↔ (span (cs.map Child.node)).bytes = 0)
  | [], _ => by simp [wordsAll]
  | ⟨_, t⟩ :: rest, h => by
    rw [LaidAll] at h
    rw [wordsAll, List.append_eq_nil_iff, words_eq_nil_iff h.1, wordsAll_eq_nil_iff h.2,
      List.map_cons, span_cons, Length.bytes_add, Nat.add_eq_zero_iff]
end

/-! ## Extras in nodes -/

/-- The words of a node follow each other as they may.  `size` says how much a node spans at least
that may end with an extra. -/
structure Sealed (l : Language) (Bound : NodeInfo → Prop) (size : Nat) (i : NodeInfo)
    (cs : List (Child Subtree)) : Prop where
  follow : (words (.mk i cs)).IsChain (MayFollow Bound)
  /-- A leaf that gives way to nothing has no text. -/
  blank : cs = [] → isHidden l (.mk i cs) = true → i.size.bytes = 0
  closed : cs ≠ [] → i.errorCost = 0 → i.symbol ≠ errorSymbol →
    size ≤ i.size.bytes ∨ ∀ j ∈ (words (.mk i cs)).getLast?, j.extra = false

theorem Sealed.mono (h : Everywhere (Sealed l Bound size) t) (hle : size' ≤ size) :
    Everywhere (Sealed l Bound size') t :=
  h.imp fun _ _ hi _ => ⟨hi.follow, hi.blank, fun hn hc hs =>
    (hi.closed hn hc hs).imp_left (Nat.le_trans hle)⟩

theorem Sealed.leaf (hblank : isHidden l (.mk i []) = true → i.size.bytes = 0) :
    Everywhere (Sealed l Bound size) (.mk i []) := by
  refine everywhere_mk.mpr ⟨⟨?_, fun _ => hblank, by simp⟩, by simp⟩
  rw [words_leaf]
  split
  · exact .nil
  · exact .singleton _

mutual
/-- What stands in the place of a child has its words. -/
theorem wordsAll_splice (field : Option FieldId) : ∀ {t : Subtree},
    Everywhere (Sealed l Bound size) t → wordsAll (splice l field [] t) = t.words
  | .mk i [], h => by
    unfold splice
    split
    · rename_i hidden
      have hblank : i.size.bytes = 0 := h.here.blank rfl hidden
      rw [words_leaf, if_pos hblank]
      simp [spliceAll, wordsAll]
    · rw [wordsAll, wordsAll, List.append_nil]
  | .mk i (c :: cs), h => by
    unfold splice
    split
    · rw [words_of_ne_nil (List.cons_ne_nil c cs)]
      exact wordsAll_spliceAll field fun d hd => h.child hd
    · rw [wordsAll, wordsAll, List.append_nil]

theorem wordsAll_spliceAll (outer : Option FieldId) : ∀ {cs : List (Child Subtree)},
    (∀ c ∈ cs, Everywhere (Sealed l Bound size) c.node) →
      wordsAll (spliceAll l outer [] cs) = wordsAll cs
  | [], _ => by simp [spliceAll]
  | ⟨field, t⟩ :: rest, h => by
    have hsplice := wordsAll_splice (field.or outer) (h ⟨field, t⟩ (by simp))
    have hrest := wordsAll_spliceAll outer fun c hc => h c (List.mem_cons_of_mem _ hc)
    rw [spliceAll, splice_eq_append, wordsAll_append, hrest, wordsAll]
    exact congrArg (· ++ _) hsplice
end

/-- A node over some nodes has their words. -/
theorem words_node (spec : Spec) (h : ∀ c ∈ cs, Everywhere (Sealed l Bound size) c.node) :
    (node l spec cs).words = wordsAll cs := by
  have hwords : wordsAll (node l spec cs).children = wordsAll cs := by
    show wordsAll (if l.isVisible spec.symbol then spliceAll l none [] cs else cs) = _
    split
    · exact wordsAll_spliceAll none h
    · rfl
  have hsize := size_node l spec cs
  rw [← hwords]
  generalize node l spec cs = t at hsize
  obtain ⟨i, children⟩ := t
  cases children with
  | nil =>
    change i.size = Length.zero at hsize
    rw [words_leaf, hsize]
    rfl
  | cons c rest => exact words_of_ne_nil (List.cons_ne_nil c rest)

/-- A node over nodes whose words follow each other as they may. -/
theorem sealed_node (h : ∀ c ∈ cs, Everywhere (Sealed l Bound size) c.node)
    (hfollow : (wordsAll cs).IsChain (MayFollow Bound))
    (hclosed : (node l spec cs).info.errorCost = 0 → spec.symbol ≠ errorSymbol →
      size ≤ (node l spec cs).size.bytes ∨ ∀ j ∈ (wordsAll cs).getLast?, j.extra = false) :
    Everywhere (Sealed l Bound size) (node l spec cs) := by
  have hkept : ∀ c ∈ (node l spec cs).children, Everywhere (Sealed l Bound size) c.node :=
    forall_children_node (fun _ _ _ h _ hc => h.child hc) h
  have hwords := words_node spec h
  have hsize := size_node l spec cs
  have hsymbol : (node l spec cs).info.symbol = spec.symbol := rfl
  rw [← hwords] at hfollow hclosed
  generalize node l spec cs = t at hkept hsize hsymbol hfollow hclosed
  obtain ⟨i, children⟩ := t
  refine everywhere_mk.mpr ⟨⟨hfollow, ?_, fun _ hc hs => ?_⟩, hkept⟩
  · rintro rfl -
    exact congrArg Length.bytes hsize
  · exact hclosed hc fun he => hs (hsymbol.trans he)

/-- The words of an error node are those of the nodes in it. -/
theorem sealed_error (h : ∀ t ∈ ts, Everywhere (Sealed l Bound size) t)
    (hfollow : (ts.flatMap words).IsChain (MayFollow Bound)) (state : StateId) (cost : Nat) :
    Everywhere (Sealed l Bound size) (error l state cost ts) ∧
      (error l state cost ts).words = ts.flatMap words := by
  have hts : ∀ c ∈ ts.map fun t => (⟨none, t⟩ : Child Subtree),
      Everywhere (Sealed l Bound size) c.node := by
    intro c hc
    obtain ⟨t, ht, rfl⟩ := List.mem_map.mp hc
    exact h t ht
  have hall : wordsAll (ts.map fun t => (⟨none, t⟩ : Child Subtree)) = ts.flatMap words := by
    rw [wordsAll_eq_flatMap, List.flatMap_map]
  refine ⟨sealed_node hts (by rwa [hall]) fun _ hs => absurd rfl hs, ?_⟩
  exact (words_node _ hts).trans hall

/-- A change of what is stored of a node leaves it sealed, unless it hides a leaf or takes an
error for none. -/
theorem sealed_withInfo (h : Everywhere (Sealed l Bound size) t) {f : NodeInfo → NodeInfo}
    (hf : (f t.info).size = t.info.size ∧ (f t.info).errorCost = t.info.errorCost)
    (hs : t.symbol = errorSymbol → (f t.info).symbol = errorSymbol)
    (hhidden : isHidden l (t.withInfo f) = true → isHidden l t = true) :
    Everywhere (Sealed l Bound size) (t.withInfo f) := by
  obtain ⟨i, cs⟩ := t
  obtain ⟨hsize, hcost⟩ : (f i).size = i.size ∧ (f i).errorCost = i.errorCost := hf
  cases cs with
  | nil =>
    refine Sealed.leaf fun hh => ?_
    exact (congrArg Length.bytes hsize).trans (h.here.blank rfl (hhidden hh))
  | cons c cs =>
    have hwords : words (.mk (f i) (c :: cs)) = words (.mk i (c :: cs)) := by rw [words, words]
    obtain ⟨hi, hcs⟩ := everywhere_mk.mp h
    refine everywhere_mk.mpr
      ⟨⟨?_, fun hn => absurd hn (List.cons_ne_nil c cs), fun hn hc hsymbol => ?_⟩, hcs⟩
    · exact hwords ▸ hi.follow
    · have hclosed := hi.closed hn (hcost.symm.trans hc) fun he => hsymbol (hs he)
      rw [← hwords, ← hsize] at hclosed
      exact hclosed

/-! ## Editing -/

theorem size_le_span (h : t ∈ ts) : t.size.bytes ≤ (span ts).bytes := by
  obtain ⟨before, after, rfl⟩ := List.append_of_mem h
  rw [span_append, span_cons, Length.bytes_add, Length.bytes_add]
  omega

mutual
/-- Where nodes span less, no node without error ends with an extra. -/
theorem Sealed.strict : ∀ {t : Subtree}, Everywhere (Sealed l Bound size) t →
    Everywhere Steady t → t.size.bytes < size ∨ t.info.lookahead = 0 ∧ t.isError = true →
    Everywhere (Sealed l Bound size') t
  | .mk i cs, h, hsteady, hless => by
    obtain ⟨hi, hcs⟩ := everywhere_mk.mp h
    obtain ⟨hsi, hscs⟩ := everywhere_mk.mp hsteady
    refine everywhere_mk.mpr ⟨⟨hi.follow, hi.blank, fun hn hc hs => ?_⟩,
      Sealed.strictAll hcs hscs fun c hc => ?_⟩
    · rcases hless with hless | ⟨-, herror⟩
      · exact (hi.closed hn hc hs).imp_left fun hle => absurd hless (Nat.not_lt.mpr hle)
      · exact absurd (beq_iff_eq.mp herror) hs
    · rcases hless with hless | ⟨hz, -⟩
      · have hle : c.node.size.bytes ≤ width cs := size_le_span (List.mem_map_of_mem hc)
        have hwidth := hsi.width
        change i.size.bytes < size at hless
        exact .inl (by omega)
      · have hblind := hsi.blind hz c hc
        exact .inr ⟨hblind, hsi.error c hc hblind⟩

theorem Sealed.strictAll : ∀ {cs : List (Child Subtree)},
    (∀ c ∈ cs, Everywhere (Sealed l Bound size) c.node) → (∀ c ∈ cs, Everywhere Steady c.node) →
    (∀ c ∈ cs, c.node.size.bytes < size ∨ c.node.info.lookahead = 0 ∧ c.node.isError = true) →
    ∀ c ∈ cs, Everywhere (Sealed l Bound size') c.node
  | [], _, _, _ => by simp
  | ⟨_, t⟩ :: rest, h, hsteady, hless => by
    rw [List.forall_mem_cons] at h hsteady hless ⊢
    exact ⟨Sealed.strict h.1 hsteady.1 hless.1,
      Sealed.strictAll h.2 hsteady.2 hless.2⟩
end

mutual
/-- An edit marks what spans all of a text, so no node without error that it leaves unmarked ends
with an extra. -/
theorem Framed.sealed {W : NodeRule} {s o n : Nat} (hs : s ≤ size) {x y : Nat} :
    ∀ {t t' : Subtree}, Framed s o n x y t t' → Everywhere Steady t →
      Kept (fun _ u => Everywhere (Sealed l Bound size) u) x t → Kept W y t' →
      x + t.size.bytes ≤ size →
      (t'.info.changed = false → t.info.lookahead = 0 → t.isError = true) →
      Kept (fun _ u => Everywhere (Sealed l Bound size') u) y t'
  | .mk i cs, .mk i' cs', h, hsteady, hkept, hkept', hle, herror => by
    have hhere := h.here
    have hwidth := hsteady.here.width
    change width cs ≤ i.size.bytes at hwidth
    rw [Kept] at hkept hkept' ⊢
    refine ⟨fun hc => ?_, hkept'.2.1, h.children.sealed hs (everywhere_mk.mp hsteady).2
      hkept.2.2 hkept'.2.2 (Nat.le_trans (Nat.add_le_add_left hwidth x) hle)
      hsteady.here.error⟩
    have hsame := hhere.same hc
    have hunmarked : i.changed = false :=
      Bool.eq_false_iff.mpr fun hm => Bool.eq_false_iff.mp hc (hhere.marked hm)
    rw [hsame]
    refine Sealed.strict (hkept.1 hunmarked) hsteady ?_
    by_contra hspans
    rw [not_or, Nat.not_lt, not_and] at hspans
    obtain ⟨hspans, hseen⟩ := hspans
    have hlookahead : i.lookahead ≠ 0 := fun hz => hseen hz (herror hc hz)
    change x + i.size.bytes ≤ size at hle
    change size ≤ i.size.bytes at hspans
    have hreaches : s < x + i.size.bytes + i.lookahead := by omega
    exact Bool.eq_false_iff.mp hc (hhere.touched hunmarked hlookahead (by omega) hreaches)

theorem FramedAll.sealed {W : NodeRule} {s o n : Nat} (hs : s ≤ size) {x y : Nat} :
    ∀ {cs cs' : List (Child Subtree)}, FramedAll s o n x y cs cs' →
      (∀ c ∈ cs, Everywhere Steady c.node) →
      KeptAll (fun _ u => Everywhere (Sealed l Bound size) u) x cs → KeptAll W y cs' →
      x + width cs ≤ size → (∀ c ∈ cs, c.node.info.lookahead = 0 → c.node.isError = true) →
      KeptAll (fun _ u => Everywhere (Sealed l Bound size') u) y cs'
  | [], [], _, _, _, _, _, _ => trivial
  | ⟨_, t⟩ :: rest, ⟨_, t'⟩ :: rest', h, hsteady, hkept, hkept', hle, herror => by
    rw [FramedAll] at h
    rw [KeptAll] at hkept hkept' ⊢
    rw [List.forall_mem_cons] at hsteady herror
    rw [width_cons] at hle
    simp only at hle
    exact ⟨h.1.sealed hs hsteady.1 hkept.1 hkept'.1 (by omega) fun _ => herror.1,
      h.2.sealed hs hsteady.2 hkept.2 hkept'.2 (by omega) herror.2⟩
  | [], ⟨_, _⟩ :: _, h, _, _, _, _, _ => h.elim
  | ⟨_, _⟩ :: _, [], h, _, _, _, _, _ => h.elim
end

end Glr.Subtree
