import Glr.Proofs.Tree.Framed

/-!
# Glr.Proofs.Tree.Threaded

What a scanner remembers, as it stands in a tree.  A state is stored on the leaf of the token
that left it, and every node has a copy of the last one in it:

```
last state of a node  =  last of the states on its leaves
```

A node without children may give way to nothing when a visible node is built around it.  Such a
leaf has no state, so none is lost.
-/

namespace Glr.Subtree

variable {l : Language} {Left : ScannerState → Prop} {t : Subtree} {ts : List Subtree}
  {cs : List (Child Subtree)} {i : NodeInfo}

/-! ## States in a tree -/

mutual
/-- The states on the leaves of a node, in the order of the text. -/
def memories : Subtree → List ScannerState
  | .mk info [] => info.lastExternal.toList
  | .mk _ (c :: cs) => memoriesAll (c :: cs)
/-- The states on the leaves of some children. -/
def memoriesAll : List (Child Subtree) → List ScannerState
  | [] => []
  | ⟨_, t⟩ :: rest => t.memories ++ memoriesAll rest
end

theorem memoriesAll_eq_flatMap (cs : List (Child Subtree)) :
    memoriesAll cs = cs.flatMap fun c => c.node.memories := by
  induction cs with
  | nil => rfl
  | cons c cs ih => rw [memoriesAll, ih, List.flatMap_cons]

theorem memories_leaf (i : NodeInfo) : memories (.mk i []) = i.lastExternal.toList := by
  rw [memories]

theorem memories_of_ne_nil (h : cs ≠ []) : memories (.mk i cs) = memoriesAll cs := by
  cases cs with
  | nil => contradiction
  | cons c cs => rw [memories]

/-- What is known after some nodes: the last state on their leaves, or the state at the start. -/
def lastMemory (ts : List Subtree) : ScannerState := (ts.flatMap memories).getLast?.getD #[]

/-! ## Stored states -/

/-- How the states of a scanner are stored, where `Left` says which ones it may have left. -/
structure Threaded (l : Language) (Left : ScannerState → Prop) (i : NodeInfo)
    (cs : List (Child Subtree)) : Prop where
  last : i.lastExternal = (memories (.mk i cs)).getLast?
  left : cs = [] → ∀ s, i.lastExternal = some s → Left s
  /-- A leaf with a state gives way to nothing. -/
  stays : cs = [] → isHidden l (.mk i cs) = true → i.lastExternal = none

theorem Threaded.leaf (hleft : ∀ s, i.lastExternal = some s → Left s)
    (hstays : isHidden l (.mk i []) = true → i.lastExternal = none) :
    Everywhere (Threaded l Left) (.mk i []) := by
  refine everywhere_mk.mpr ⟨⟨?_, fun _ => hleft, fun _ => hstays⟩, by simp⟩
  rw [memories_leaf]
  cases i.lastExternal <;> rfl

theorem lastExternal_eq (h : Everywhere (Threaded l Left) t) :
    t.info.lastExternal = t.memories.getLast? := by
  obtain ⟨i, cs⟩ := t
  exact h.here.last

/-- More nodes: their own last state is known then, or what was known before. -/
theorem lastMemory_append (ts us : List Subtree) :
    lastMemory (ts ++ us) = (us.flatMap memories).getLast?.getD (lastMemory ts) := by
  rw [lastMemory, List.flatMap_append, List.getLast?_append, lastMemory]
  cases (us.flatMap memories).getLast? <;> rfl

theorem lastMemory_append_singleton (ts : List Subtree) (h : Everywhere (Threaded l Left) t) :
    lastMemory (ts ++ [t]) = t.info.lastExternal.getD (lastMemory ts) := by
  rw [lastMemory_append, List.flatMap_singleton, lastExternal_eq h]

/-! ## Building -/

/-- The sum of some children has the last of their states. -/
theorem lastExternal_of
    (h : ∀ c ∈ cs, c.node.info.lastExternal = c.node.memories.getLast?) :
    (Sum.of cs).lastExternal = (memoriesAll cs).getLast? := by
  induction cs using List.reverseRecOn with
  | nil => rfl
  | append_singleton cs c ih =>
    have hcs := ih fun d hd => h d (by simp [hd])
    have hc := h c (by simp)
    rw [Sum.of, List.foldl_append, List.foldl_cons, List.foldl_nil, memoriesAll_eq_flatMap,
      List.flatMap_append, List.flatMap_singleton, List.getLast?_append, ← memoriesAll_eq_flatMap,
      ← hcs, ← hc]
    rfl

theorem memoriesAll_append (as bs : List (Child Subtree)) :
    memoriesAll (as ++ bs) = memoriesAll as ++ memoriesAll bs := by
  rw [memoriesAll_eq_flatMap, List.flatMap_append, ← memoriesAll_eq_flatMap,
    ← memoriesAll_eq_flatMap]

mutual
/-- What stands in the place of a child has its states. -/
theorem memoriesAll_splice (field : Option FieldId) :
    ∀ {t : Subtree}, Everywhere (Threaded l Left) t → memoriesAll (splice l field [] t) = t.memories
  | .mk info [], h => by
    unfold splice
    split
    · rename_i hhidden
      have hnone : info.lastExternal = none := h.here.stays rfl hhidden
      rw [memories_leaf, hnone]
      simp [spliceAll, memoriesAll]
    · rw [memoriesAll, memoriesAll, List.append_nil]
  | .mk info (c :: cs), h => by
    unfold splice
    split
    · rw [memories_of_ne_nil (List.cons_ne_nil c cs)]
      exact memoriesAll_spliceAll field fun d hd => h.child hd
    · rw [memoriesAll, memoriesAll, List.append_nil]

theorem memoriesAll_spliceAll (outer : Option FieldId) :
    ∀ {cs : List (Child Subtree)}, (∀ c ∈ cs, Everywhere (Threaded l Left) c.node) →
      memoriesAll (spliceAll l outer [] cs) = memoriesAll cs
  | [], _ => by simp [spliceAll]
  | ⟨field, t⟩ :: rest, h => by
    have hsplice := memoriesAll_splice (field.or outer) (h ⟨field, t⟩ (by simp))
    have hrest := memoriesAll_spliceAll outer fun c hc => h c (List.mem_cons_of_mem _ hc)
    rw [spliceAll, splice_eq_append, memoriesAll_append, hrest, memoriesAll]
    exact congrArg (· ++ _) hsplice
end

/-- A node over some nodes has their states. -/
theorem threaded_node (spec : Spec) (h : ∀ c ∈ cs, Everywhere (Threaded l Left) c.node) :
    Everywhere (Threaded l Left) (node l spec cs) ∧ (node l spec cs).memories = memoriesAll cs := by
  have hkept : ∀ c ∈ (node l spec cs).children, Everywhere (Threaded l Left) c.node :=
    forall_children_node (fun _ _ _ h _ hc => h.child hc) h
  have hlast : (node l spec cs).info.lastExternal
      = (Sum.of (node l spec cs).children).lastExternal := rfl
  have hmemories : memoriesAll (node l spec cs).children = memoriesAll cs := by
    show memoriesAll (if l.isVisible spec.symbol then spliceAll l none [] cs else cs) = _
    split
    · exact memoriesAll_spliceAll none h
    · rfl
  rw [lastExternal_of fun c hc => lastExternal_eq (hkept c hc)] at hlast
  rw [← hmemories]
  generalize node l spec cs = t at hkept hlast ⊢
  obtain ⟨i, children⟩ := t
  change ∀ c ∈ children, _ at hkept
  change i.lastExternal = (memoriesAll children).getLast? at hlast
  show _ ∧ _ = memoriesAll children
  cases children with
  | nil =>
    have hnone : i.lastExternal = none := hlast
    refine ⟨Threaded.leaf (by simp [hnone]) fun _ => hnone, ?_⟩
    rw [memories_leaf, hnone]
    rfl
  | cons c cs =>
    have hmemories := memories_of_ne_nil (i := i) (List.cons_ne_nil c cs)
    exact ⟨everywhere_mk.mpr ⟨⟨by rw [hmemories, hlast], by simp, by simp⟩, hkept⟩, hmemories⟩

/-- An error node around some nodes has their states. -/
theorem threaded_error (h : ∀ t ∈ ts, Everywhere (Threaded l Left) t) (state : StateId)
    (cost : Nat) :
    Everywhere (Threaded l Left) (error l state cost ts) ∧
      (error l state cost ts).memories = ts.flatMap memories := by
  have hts : ∀ c ∈ ts.map fun t => (⟨none, t⟩ : Child Subtree),
      Everywhere (Threaded l Left) c.node := by
    intro c hc
    obtain ⟨t, ht, rfl⟩ := List.mem_map.mp hc
    exact h t ht
  obtain ⟨hnode, hmemories⟩ := threaded_node
    { symbol := errorSymbol, parseState := state, errorCost := cost, fragile := true } hts
  rw [memoriesAll_eq_flatMap, List.flatMap_map] at hmemories
  exact ⟨hnode, hmemories⟩

/-- A change of what is stored beside the state leaves the states alone, unless it hides a leaf. -/
theorem threaded_withInfo (h : Everywhere (Threaded l Left) t) {f : NodeInfo → NodeInfo}
    (hlast : (f t.info).lastExternal = t.info.lastExternal)
    (hhidden : isHidden l (t.withInfo f) = true → isHidden l t = true) :
    Everywhere (Threaded l Left) (t.withInfo f) ∧ (t.withInfo f).memories = t.memories := by
  obtain ⟨i, cs⟩ := t
  change (f i).lastExternal = i.lastExternal at hlast
  have hmemories : memories (.mk (f i) cs) = memories (.mk i cs) := by
    cases cs with
    | nil => rw [memories_leaf, memories_leaf, hlast]
    | cons c cs => rw [memories, memories]
  refine ⟨h.withInfo fun hi => ⟨?_, fun hc s hs => ?_, fun hc hh => ?_⟩, hmemories⟩
  · exact (hlast.trans hi.last).trans (congrArg List.getLast? hmemories.symm)
  · exact hi.left hc s (hlast.symm.trans hs)
  · exact hlast.trans (hi.stays hc (hhidden hh))

theorem threaded_withExtra (h : Everywhere (Threaded l Left) t) (extra : Bool) :
    Everywhere (Threaded l Left) (t.withExtra extra) ∧ (t.withExtra extra).memories = t.memories :=
  threaded_withInfo h rfl id

theorem threaded_withParseState (h : Everywhere (Threaded l Left) t) (state : StateId) :
    Everywhere (Threaded l Left) (t.withParseState state) ∧
      (t.withParseState state).memories = t.memories :=
  threaded_withInfo h rfl id

/-- A node under a visible symbol is not hidden. -/
theorem threaded_withSymbol (h : Everywhere (Threaded l Left) t) {s : Symbol}
    (hs : l.isVisible s = true) :
    Everywhere (Threaded l Left) (t.withSymbol l s) ∧ (t.withSymbol l s).memories = t.memories := by
  unfold withSymbol
  split
  · exact ⟨h, rfl⟩
  · refine threaded_withInfo h rfl fun hhidden => ?_
    obtain ⟨i, cs⟩ := t
    simp [isHidden, withInfo, Subtree.info, hs] at hhidden

/-! ## Editing -/

mutual
theorem memories_shape : ∀ t : Subtree, t.shape.memories = t.memories
  | .mk i [] => by
    rw [shape, shapeAll, memories_leaf, memories_leaf]
    rfl
  | .mk i (c :: cs) => by
    rw [shape, memories_of_ne_nil (by simp [shapeAll_eq_map]),
      memories_of_ne_nil (List.cons_ne_nil c cs)]
    exact memoriesAll_shapeAll (c :: cs)

theorem memoriesAll_shapeAll :
    ∀ cs : List (Child Subtree), memoriesAll (shapeAll cs) = memoriesAll cs
  | [] => rfl
  | ⟨field, t⟩ :: rest => by
    rw [shapeAll, memoriesAll, memoriesAll, memories_shape, memoriesAll_shapeAll]
end

/-- Sizes and marks do not matter. -/
theorem threaded_shape_iff : Threaded l Left i.shape (shapeAll cs) ↔ Threaded l Left i cs := by
  have hmemories := memories_shape (.mk i cs)
  have hnil : shapeAll cs = [] ↔ cs = [] := by rw [shapeAll_eq_map, List.map_eq_nil_iff]
  rw [shape] at hmemories
  constructor
  · exact fun h => ⟨h.last.trans (congrArg List.getLast? hmemories), fun hc => h.left (hnil.mpr hc),
      fun hc => h.stays (hnil.mpr hc)⟩
  · exact fun h => ⟨h.last.trans (congrArg List.getLast? hmemories.symm),
      fun hc => h.left (hnil.mp hc), fun hc => h.stays (hnil.mp hc)⟩

end Glr.Subtree
