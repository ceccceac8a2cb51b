import Glr.Parse.Move

/-!
# Glr.Proofs.Tree.Plain

Nodes without what only their reuse depends on:

```
lookahead, parse state, lexical state, changed, fragile, after an extra
```

Nothing else of a node comes from these, so building nodes and leaving this out can be done in
either order, and trees that agree in the rest are the same.
-/

namespace Glr

/-- What is stored of a node, without what only its reuse depends on. -/
def NodeInfo.plain (i : NodeInfo) : NodeInfo :=
  { i with
    lookahead := 0, parseState := 0, lexState := 0, changed := false, fragile := false
    afterExtra := false }

namespace Subtree

mutual
/-- The node without what only its reuse depends on, and the nodes in it likewise. -/
def plain : Subtree → Subtree
  | .mk info children => .mk info.plain (plainAll children)
/-- Children without that. -/
def plainAll : List (Child Subtree) → List (Child Subtree)
  | [] => []
  | ⟨field, t⟩ :: rest => ⟨field, t.plain⟩ :: plainAll rest
end

variable {l : Language} {s t : Subtree} {cs cs' : List (Child Subtree)} {spec spec' : Spec}

@[simp] theorem plainAll_nil : plainAll [] = [] := rfl

@[simp] theorem plainAll_cons (c : Child Subtree) :
    plainAll (c :: cs) = ⟨c.field, c.node.plain⟩ :: plainAll cs := rfl

@[simp] theorem plainAll_append : plainAll (cs ++ cs') = plainAll cs ++ plainAll cs' := by
  induction cs with
  | nil => rfl
  | cons c cs ih => simp [ih]

@[simp] theorem plainAll_flatMap {α : Type} (f : α → List (Child Subtree)) (xs : List α) :
    plainAll (xs.flatMap f) = xs.flatMap fun x => plainAll (f x) := by
  induction xs with
  | nil => rfl
  | cons x xs ih => simp [ih]

@[simp] theorem plainAll_isEmpty : (plainAll cs).isEmpty = cs.isEmpty := by
  cases cs <;> rfl

/-! ## What is left of a node -/

@[simp] theorem info_plain (t : Subtree) : t.plain.info = t.info.plain := by
  cases t
  rfl

@[simp] theorem children_plain (t : Subtree) : t.plain.children = plainAll t.children := by
  cases t
  rfl

@[simp] theorem symbol_plain (t : Subtree) : t.plain.symbol = t.symbol := by
  cases t
  rfl

@[simp] theorem size_plain (t : Subtree) : t.plain.size = t.size := by
  cases t
  rfl

theorem extra_plain (t : Subtree) : t.plain.info.extra = t.info.extra := by
  cases t
  rfl

@[simp] theorem isLeaf_plain (t : Subtree) : t.plain.isLeaf = t.isLeaf := by
  simp [isLeaf]

@[simp] theorem isError_plain (t : Subtree) : t.plain.isError = t.isError := by
  simp [isError]

@[simp] theorem plain_plain_info (i : NodeInfo) : i.plain.plain = i.plain := rfl

mutual
@[simp] theorem plain_plain : ∀ t : Subtree, t.plain.plain = t.plain
  | .mk info children => by
    rw [plain, plain, plain_plain_info, plainAll_plainAll children]

theorem plainAll_plainAll : ∀ cs : List (Child Subtree), plainAll (plainAll cs) = plainAll cs
  | [] => rfl
  | ⟨field, t⟩ :: rest => by
    rw [plainAll, plainAll, plain_plain t, plainAll_plainAll rest]
end

theorem map_plain_plain (ts : List Subtree) : (ts.map plain).map plain = ts.map plain := by
  simp [Function.comp_def]

/-- The nodes that are no extras are the same ones. -/
theorem filter_extra_plain (ts : List Subtree) :
    (ts.map plain).filter (fun t => !t.info.extra) =
      (ts.filter fun t => !t.info.extra).map plain := by
  rw [List.filter_map]
  simp only [Function.comp_def, extra_plain]

@[simp] theorem withExtra_plain (t : Subtree) (extra : Bool) :
    (t.withExtra extra).plain = t.plain.withExtra extra := by
  cases t
  rfl

@[simp] theorem withParseState_plain (t : Subtree) (state : StateId) :
    (t.withParseState state).plain = t.plain := by
  cases t
  rfl

@[simp] theorem withSymbol_plain (t : Subtree) (x : Symbol) :
    (t.withSymbol l x).plain = t.plain.withSymbol l x := by
  unfold withSymbol
  rw [symbol_plain]
  split
  · rfl
  · cases t
    rfl

/-! ## Building -/

@[simp] theorem isHidden_plain (t : Subtree) : isHidden l t.plain = isHidden l t := by
  cases t
  rfl

mutual
theorem splice_plain (field : Option FieldId) (after : List (Child Subtree)) :
    ∀ t : Subtree, plainAll (splice l field after t) = splice l field (plainAll after) t.plain
  | .mk info children => by
    have hhidden : isHidden l (.mk info.plain (plainAll children)) = isHidden l (.mk info children) :=
      isHidden_plain (.mk info children)
    rw [plain, splice, splice, hhidden]
    split
    · exact spliceAll_plain field after children
    · rfl

theorem spliceAll_plain (outer : Option FieldId) (after : List (Child Subtree)) :
    ∀ cs : List (Child Subtree),
      plainAll (spliceAll l outer after cs) = spliceAll l outer (plainAll after) (plainAll cs)
  | [] => by rw [plainAll, spliceAll, spliceAll]
  | ⟨field, t⟩ :: rest => by
    rw [plainAll, spliceAll, spliceAll, splice_plain _ _ t, spliceAll_plain outer after rest]
end

/-- A sum of children without what only their reuse depends on. -/
def Sum.plain (s : Sum) : Sum := { s with reach := 0, fragile := false }

theorem Sum.plain_foldl {a b : Sum} (h : a.plain = b.plain) (cs : List (Child Subtree)) :
    (cs.foldl (fun s c => s.add c.node) a).plain =
      ((plainAll cs).foldl (fun s c => s.add c.node) b).plain := by
  induction cs generalizing a b with
  | nil => exact h
  | cons c cs ih =>
    refine ih ?_
    simp only [Sum.plain, Sum.mk.injEq] at h
    obtain ⟨hsize, -, hcost, hprecedence, -, hexternal⟩ := h
    simp [Sum.plain, Sum.add, hsize, hcost, hprecedence, hexternal, NodeInfo.plain]

theorem Sum.plain_of (h : plainAll cs = plainAll cs') : (Sum.of cs).plain = (Sum.of cs').plain := by
  unfold Sum.of
  rw [Sum.plain_foldl rfl cs, h, ← Sum.plain_foldl rfl cs']

/-- Nodes that are made in the same way of children that agree do agree. -/
theorem plain_node (hsymbol : spec.symbol = spec'.symbol)
    (hcost : spec.errorCost = spec'.errorCost)
    (hprecedence : spec.dynamicPrecedence = spec'.dynamicPrecedence)
    (h : plainAll cs = plainAll cs') : (node l spec cs).plain = (node l spec' cs').plain := by
  have hkept : plainAll (if l.isVisible spec'.symbol then spliceAll l none [] cs else cs) =
      plainAll (if l.isVisible spec'.symbol then spliceAll l none [] cs' else cs') := by
    split
    · rw [spliceAll_plain, spliceAll_plain, h]
    · exact h
  have hsum := Sum.plain_of hkept
  simp only [Sum.plain, Sum.mk.injEq] at hsum
  obtain ⟨hsize, -, hcosts, hprecedences, -, hexternal⟩ := hsum
  simp only [node, plain, NodeInfo.plain, hsymbol, hcost, hprecedence, hkept, hsize, hcosts,
    hprecedences, hexternal]

theorem plainAll_map_child (ts : List Subtree) :
    plainAll (ts.map fun t => ⟨none, t⟩) = (ts.map plain).map fun t => ⟨none, t⟩ := by
  induction ts with
  | nil => rfl
  | cons t ts ih => simp [ih]

theorem plain_error {state state' : StateId} {cost : Nat} {ts ts' : List Subtree}
    (h : ts.map plain = ts'.map plain) :
    (error l state cost ts).plain = (error l state' cost ts').plain :=
  plain_node rfl rfl rfl (by rw [plainAll_map_child, plainAll_map_child, h])

/-! ## Comparing -/

mutual
/-- Whether two nodes are equal. -/
def decEq : ∀ s t : Subtree, Decidable (s = t)
  | .mk a as, .mk b bs =>
    match decEqAll as bs with
    | isTrue h => decidable_of_iff (a = b) (by simp [h])
    | isFalse h => isFalse (by simp [h])
/-- Whether two lists of children are equal. -/
def decEqAll : ∀ as bs : List (Child Subtree), Decidable (as = bs)
  | [], [] => isTrue rfl
  | [], _ :: _ => isFalse (by simp)
  | _ :: _, [] => isFalse (by simp)
  | ⟨f, s⟩ :: as, ⟨g, t⟩ :: bs =>
    match decEq s t, decEqAll as bs with
    | isTrue h, isTrue h' => decidable_of_iff (f = g) (by simp [h, h'])
    | isFalse h, _ => isFalse (by simp [h])
    | _, isFalse h => isFalse (by simp [h])
end

instance : DecidableEq Subtree := decEq

mutual
/-- Nodes that agree are the same. -/
theorem sameAs_of_plain_eq : ∀ {s t : Subtree}, s.plain = t.plain → s.sameAs t = true
  | .mk a as, .mk b bs, h => by
    simp only [plain, Subtree.mk.injEq, NodeInfo.plain, NodeInfo.mk.injEq] at h
    simp [sameAs, h, sameAll_of_plainAll_eq h.2]

theorem sameAll_of_plainAll_eq :
    ∀ {as bs : List (Child Subtree)}, plainAll as = plainAll bs → sameAll as bs = true
  | [], [], _ => rfl
  | ⟨f, s⟩ :: as, ⟨g, t⟩ :: bs, h => by
    simp only [plainAll, List.cons.injEq, Child.mk.injEq] at h
    simp [sameAll, h.1.1, sameAs_of_plain_eq h.1.2, sameAll_of_plainAll_eq h.2]
end

end Subtree

end Glr
