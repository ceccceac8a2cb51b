import Glr.Parse.Run
import Glr.Proofs.Tree.Framed
import Glr.Proofs.Tree.Shown

/-!
# Glr.Proofs.Tree.Priced

What the errors in a tree cost.  An error node or a missing token adds a cost of its own, and
every other node costs what its children cost:

```
cost of an error  =  own cost + costs of its children
cost of a node    =  costs of its children
```

Whatever becomes the child of a node that is no error costs something if it is an error.  So a
node without cost that is no error itself has no error in it.  The error nodes that cost nothing
are texts that no rule matches, and they stand within other error nodes.
-/

namespace Glr

namespace Subtree

open Parse Run

/-- Whether the node itself is an error node or a missing token. -/
def isFault (t : Subtree) : Bool := t.isError || t.info.missing

/-- The node is no error. -/
structure Faultless (i : NodeInfo) (cs : List (Child Subtree)) : Prop where
  symbol : i.symbol ≠ errorSymbol
  missing : i.missing = false

/-- How the cost of a node comes about. -/
structure Priced (l : Language) (i : NodeInfo) (cs : List (Child Subtree)) : Prop where
  cost : Faultless i cs → i.errorCost = costOf (cs.map Child.node)
  /-- Error nodes in a node that is none cost something. -/
  error : i.symbol ≠ errorSymbol → ∀ c ∈ cs, c.node.isError = true → c.node.info.errorCost ≠ 0
  missing : i.missing = true → cs = [] ∧ i.errorCost ≠ 0 ∧ i.symbol ≠ errorSymbol
  /-- A missing token does not give way to nothing. -/
  stays : i.missing = true → isHidden l (.mk i cs) = false
  /-- Extras are error nodes and tokens that may stand anywhere. -/
  extra : i.extra = true → i.symbol ≠ errorSymbol → isShiftableExtra l (.mk i cs) = true

/-- What may become a child of a node that is no error. -/
structure Charged (l : Language) (t : Subtree) : Prop where
  priced : Everywhere (Priced l) t
  error : t.isError = true → t.info.errorCost ≠ 0

/-- What may come next in a text: it costs nothing by itself. -/
structure Free (l : Language) (t : Subtree) : Prop where
  priced : Everywhere (Priced l) t
  cost : t.info.errorCost = 0
  extra : t.info.extra = true → isShiftableExtra l t = true

variable {l : Language} {t : Subtree} {ts : List Subtree} {cs : List (Child Subtree)} {i : NodeInfo}
  {spec : Spec}

theorem isError_eq_false_iff : t.isError = false ↔ t.symbol ≠ errorSymbol := by
  simp [isError]

theorem Free.missing (h : Free l t) : t.info.missing = false := by
  rw [← Bool.not_eq_true]
  exact fun hm => (h.priced.here.missing hm).2.1 h.cost

/-- A token that costs nothing. -/
theorem priced_leaf (hc : i.errorCost = 0) (hm : i.missing = false) (hx : i.extra = false) :
    Everywhere (Priced l) (.mk i []) := by
  refine everywhere_mk.mpr ⟨⟨fun _ => hc, by simp, fun h => ?_, fun h => ?_, fun h => ?_⟩, by simp⟩
  · rw [hm] at h
    contradiction
  · rw [hm] at h
    contradiction
  · rw [hx] at h
    contradiction

/-- What is stored beside symbol and cost matters for extras only. -/
theorem priced_withInfo (h : Everywhere (Priced l) t) {f : NodeInfo → NodeInfo}
    (hs : (f t.info).symbol = t.info.symbol ∧ (f t.info).errorCost = t.info.errorCost ∧
      (f t.info).missing = t.info.missing ∧ (f t.info).visible = t.info.visible)
    (hx : (f t.info).extra = true → t.symbol ≠ errorSymbol → isShiftableExtra l t = true) :
    Everywhere (Priced l) (t.withInfo f) := by
  obtain ⟨hsymbol, hcost, hmissing, hvisible⟩ := hs
  have hhidden : isHidden l (t.withInfo f) = isHidden l t := by
    show (!(f t.info).visible && l.isNonterminal (f t.info).symbol) = _
    rw [hvisible, hsymbol]
    rfl
  have hshiftable : isShiftableExtra l (t.withInfo f) = isShiftableExtra l t := by
    show (t.isLeaf && (f t.info).symbol != endSymbol && !(f t.info).missing &&
      l.isExtra (f t.info).symbol) = _
    rw [hmissing, hsymbol]
    rfl
  refine h.withInfo fun hi => ⟨fun hf => ?_, fun hn => ?_, fun hm => ?_, fun hm => ?_,
    fun hx' hn => ?_⟩
  · rw [hcost]
    exact hi.cost ⟨hsymbol ▸ hf.symbol, hmissing ▸ hf.missing⟩
  · exact hi.error (hsymbol ▸ hn)
  · rw [hcost, hsymbol]
    exact hi.missing (hmissing ▸ hm)
  · exact hhidden.trans (hi.stays (hmissing ▸ hm))
  · exact hshiftable.trans (hx hx' fun hs => hn (hsymbol.trans hs))

/-! ## Building -/

/-- A hidden node has the cost of what stands in its place. -/
theorem Priced.cost_of_isHidden (hl : l.isNonterminal errorSymbol = false) (h : Priced l i cs)
    (hidden : isHidden l (.mk i cs) = true) :
    i.symbol ≠ errorSymbol ∧ i.errorCost = costOf (cs.map Child.node) := by
  have hsymbol : i.symbol ≠ errorSymbol := by
    intro he
    simp [isHidden, Subtree.symbol, Subtree.info, he, hl] at hidden
  have hmissing : i.missing = false := by
    rw [← Bool.not_eq_true]
    intro hm
    rw [h.stays hm] at hidden
    contradiction
  exact ⟨hsymbol, h.cost ⟨hsymbol, hmissing⟩⟩

/-- Taking the place of a node keeps its cost. -/
theorem keeps_of_priced (hl : l.isNonterminal errorSymbol = false) (h : Everywhere (Priced l) t) :
    Keeps l t := by
  intro field
  rw [costOf, List.map_map]
  refine sum_splice (f := fun t => t.info.errorCost) (fun i cs hi hidden => ?_) field h
  rw [show (Subtree.mk i cs).info.errorCost = _ from (hi.cost_of_isHidden hl hidden).2, costOf,
    List.map_map]
  rfl

/-- A node that is made without a cost of its own costs what it is made of. -/
theorem charged_node (hl : l.isNonterminal errorSymbol = false) (hs : spec.symbol ≠ errorSymbol)
    (hc : spec.errorCost = 0) (h : ∀ c ∈ cs, Charged l c.node) :
    Charged l (node l spec cs) ∧ (node l spec cs).info.errorCost = costOf (cs.map Child.node) := by
  have hkept : ∀ c ∈ (node l spec cs).children, Charged l c.node :=
    forall_children_node (fun i cs hidden hi c hc => ⟨hi.priced.child hc,
      hi.priced.here.error (hi.priced.here.cost_of_isHidden hl hidden).1 c hc⟩) h
  have hcost := errorCost_node (l := l) spec cs
  have hof : (node l spec cs).info.errorCost = _ :=
    errorCost_node_of_keeps fun c hc => keeps_of_priced hl (h c hc).priced
  rw [hc, Nat.zero_add] at hcost hof
  refine ⟨⟨?_, fun he => absurd (beq_iff_eq.mp he) hs⟩, hof⟩
  exact everywhere_mk.mpr ⟨⟨fun _ => hcost, fun _ c hc => (hkept c hc).error, by rintro ⟨⟩,
    by rintro ⟨⟩, by rintro ⟨⟩⟩, fun c hc => (hkept c hc).priced⟩

/-- An error node costs what it is made with and what it is made of. -/
theorem priced_error (hl : l.isNonterminal errorSymbol = false)
    (h : ∀ t ∈ ts, Everywhere (Priced l) t) (state : StateId) (cost : Nat) :
    Everywhere (Priced l) (error l state cost ts) ∧
      (error l state cost ts).info.errorCost = cost + costOf ts := by
  have hts : ∀ c ∈ ts.map fun t => (⟨none, t⟩ : Child Subtree),
      Everywhere (Priced l) c.node := by
    intro c hc
    obtain ⟨t, ht, rfl⟩ := List.mem_map.mp hc
    exact h t ht
  have hkept : ∀ c ∈ (error l state cost ts).children, Everywhere (Priced l) c.node :=
    forall_children_node (fun _ _ _ hi _ hc => hi.child hc) hts
  refine ⟨everywhere_mk.mpr ⟨⟨fun hf => absurd rfl hf.symbol, fun hs => absurd rfl hs,
    by rintro ⟨⟩, by rintro ⟨⟩, by rintro ⟨⟩⟩, hkept⟩, ?_⟩
  have hcost : (error l state cost ts).info.errorCost = cost + _ :=
    errorCost_node_of_keeps fun c hc => keeps_of_priced hl (hts c hc)
  rwa [map_node_none] at hcost

/-- An error node that costs something by itself, as an extra. -/
theorem charged_errorExtra (hl : l.isNonterminal errorSymbol = false)
    (h : ∀ t ∈ ts, Everywhere (Priced l) t) (state : StateId) {cost : Nat} (hc : cost ≠ 0) :
    Charged l ((error l state cost ts).withExtra true) ∧
      ((error l state cost ts).withExtra true).info.errorCost = cost + costOf ts := by
  obtain ⟨herror, hcost⟩ := priced_error hl h state cost
  refine ⟨⟨priced_withInfo herror ⟨rfl, rfl, rfl, rfl⟩ fun _ hs => absurd rfl hs, ?_⟩, hcost⟩
  rintro -
  rw [show ((error l state cost ts).withExtra true).info.errorCost = _ from hcost]
  omega

/-- A node under another symbol costs what it did. -/
theorem charged_withSymbol {s : Symbol} (hv : l.isVisible s = true) (hs : s ≠ errorSymbol)
    (hx : t.info.extra = false) (hn : t.symbol ≠ errorSymbol) (h : Charged l t) :
    Charged l (t.withSymbol l s) := by
  unfold withSymbol
  split
  · exact h
  · refine ⟨h.priced.withInfo fun hi => ⟨fun hf => hi.cost ⟨hn, hf.missing⟩, fun _ => hi.error hn,
      fun hm => ⟨(hi.missing hm).1, (hi.missing hm).2.1, hs⟩, fun _ => ?_, fun hx' => ?_⟩,
      fun he => absurd (beq_iff_eq.mp he) hs⟩
    · simp [isHidden, Subtree.info, hv]
    · rw [show t.info.extra = true from hx'] at hx
      contradiction

theorem errorCost_withSymbol (t : Subtree) (s : Symbol) :
    (t.withSymbol l s).info.errorCost = t.info.errorCost := by
  unfold withSymbol
  split <;> rfl

/-- The children of a production cost what the nodes do that they are made of, where error nodes
are extras. -/
theorem charged_dress (fields : List (Option FieldId)) {labels : List (Option Symbol)}
    (hlabels : ∀ s, some s ∈ labels → l.isVisible s = true ∧ s ≠ errorSymbol)
    (hts : ∀ t ∈ ts, Charged l t ∧ (t.isError = true → t.info.extra = true)) :
    (∀ c ∈ dress l fields labels ts, Charged l c.node) ∧
      costOf ((dress l fields labels ts).map Child.node) = costOf ts := by
  induction ts generalizing fields labels with
  | nil => exact ⟨by simp [dress], rfl⟩
  | cons t ts ih =>
    obtain ⟨⟨ht, hextra⟩, hrest⟩ := List.forall_mem_cons.mp hts
    rw [dress]
    split
    · obtain ⟨hall, hcost⟩ := ih fields hlabels hrest
      exact ⟨List.forall_mem_cons.mpr ⟨ht, hall⟩, by rw [List.map_cons, costOf_cons, hcost, costOf_cons]⟩
    · rename_i hx
      obtain ⟨hall, hcost⟩ := ih fields.tail
        (fun s hs => hlabels s (List.mem_of_mem_tail hs)) hrest
      have hshown (s : Symbol) (hs : labels.head?.join = some s) :=
        hlabels s (List.mem_of_mem_head? (Option.join_eq_some_iff.mp hs))
      have hsymbol : t.symbol ≠ errorSymbol := by
        refine isError_eq_false_iff.mp ?_
        rw [← Bool.not_eq_true]
        exact fun he => hx (hextra he)
      generalize labels.head?.join = label at hshown
      cases label with
      | none =>
        refine ⟨List.forall_mem_cons.mpr ⟨ht, hall⟩, ?_⟩
        rw [List.map_cons, costOf_cons, hcost, costOf_cons]
      | some s =>
        obtain ⟨hv, hne⟩ := hshown s rfl
        refine ⟨List.forall_mem_cons.mpr
          ⟨charged_withSymbol hv hne (by simpa using hx) hsymbol ht, hall⟩, ?_⟩
        rw [List.map_cons, costOf_cons, hcost, costOf_cons, errorCost_withSymbol]

/-! ## Errors and costs -/

theorem costOf_eq_zero_iff : costOf ts = 0 ↔ ∀ t ∈ ts, t.info.errorCost = 0 := by
  induction ts with
  | nil => simp
  | cons t ts ih => rw [costOf_cons, Nat.add_eq_zero_iff, ih, List.forall_mem_cons]

mutual
/-- There is no error in a node that costs nothing and is none itself. -/
theorem faultless_of_priced : ∀ {t : Subtree}, Everywhere (Priced l) t → t.isError = false →
    t.info.errorCost = 0 → Everywhere Faultless t
  | .mk i cs, h, he, hc => by
    have hi := h.here
    have hf : Faultless i cs := by
      refine ⟨isError_eq_false_iff.mp he, ?_⟩
      rw [← Bool.not_eq_true]
      exact fun hm => (hi.missing hm).2.1 hc
    have hcosts : costOf (cs.map Child.node) = 0 := (hi.cost hf).symm.trans hc
    refine everywhere_mk.mpr ⟨hf, faultlessAll_of_priced (everywhere_mk.mp h).2 fun c hcs => ?_⟩
    have hzero := costOf_eq_zero_iff.mp hcosts c.node (List.mem_map_of_mem hcs)
    refine ⟨?_, hzero⟩
    rw [← Bool.not_eq_true]
    exact fun he => hi.error hf.symbol c hcs he hzero

theorem faultlessAll_of_priced : ∀ {cs : List (Child Subtree)},
    (∀ c ∈ cs, Everywhere (Priced l) c.node) →
    (∀ c ∈ cs, c.node.isError = false ∧ c.node.info.errorCost = 0) →
    ∀ c ∈ cs, Everywhere Faultless c.node
  | [], _, _ => by simp
  | ⟨_, t⟩ :: rest, h, hc => by
    obtain ⟨ht, hrest⟩ := List.forall_mem_cons.mp h
    obtain ⟨⟨he, hz⟩, hcs⟩ := List.forall_mem_cons.mp hc
    exact List.forall_mem_cons.mpr
      ⟨faultless_of_priced ht he hz, faultlessAll_of_priced hrest hcs⟩
end

mutual
/-- A node without any error in it costs nothing. -/
theorem cost_of_faultless : ∀ {t : Subtree}, Everywhere (Priced l) t → Everywhere Faultless t →
    t.info.errorCost = 0
  | .mk i cs, h, hf => by
    rw [show (Subtree.mk i cs).info.errorCost = _ from h.here.cost hf.here, costOf_eq_zero_iff]
    intro t ht
    obtain ⟨c, hc, rfl⟩ := List.mem_map.mp ht
    exact costs_of_faultless (everywhere_mk.mp h).2 (everywhere_mk.mp hf).2 c hc

theorem costs_of_faultless : ∀ {cs : List (Child Subtree)},
    (∀ c ∈ cs, Everywhere (Priced l) c.node) → (∀ c ∈ cs, Everywhere Faultless c.node) →
    ∀ c ∈ cs, c.node.info.errorCost = 0
  | [], _, _ => by simp
  | ⟨_, t⟩ :: rest, h, hf => by
    obtain ⟨ht, hrest⟩ := List.forall_mem_cons.mp h
    obtain ⟨hft, hfrest⟩ := List.forall_mem_cons.mp hf
    exact List.forall_mem_cons.mpr
      ⟨cost_of_faultless ht hft, costs_of_faultless hrest hfrest⟩
end

/-- A node has an error exactly if there is one in it. -/
theorem hasError_eq_false_iff (h : Everywhere (Priced l) t) :
    t.hasError = false ↔ Everywhere Faultless t := by
  constructor
  · intro he
    simp only [hasError, Bool.or_eq_false_iff, decide_eq_false_iff_not] at he
    exact faultless_of_priced h he.1.2 (Nat.eq_zero_of_not_pos he.1.1)
  · intro hf
    have hcost := cost_of_faultless h hf
    have hsymbol := isError_eq_false_iff.mpr hf.here.symbol
    have hmissing := hf.here.missing
    simp [hasError, hcost, hsymbol, hmissing]

/-! ## Editing -/

theorem costOf_shapeAll (cs : List (Child Subtree)) :
    costOf ((shapeAll cs).map Child.node) = costOf (cs.map Child.node) := by
  rw [shapeAll_eq_map, List.map_map]
  simp [costOf, Function.comp_def, info_shape, NodeInfo.shape]

/-- Sizes and marks do not matter. -/
theorem priced_shape_iff : Priced l i.shape (shapeAll cs) ↔ Priced l i cs := by
  have hnil : shapeAll cs = [] ↔ cs = [] := by rw [shapeAll_eq_map, List.map_eq_nil_iff]
  have hhidden : isHidden l (.mk i.shape (shapeAll cs)) = isHidden l (.mk i cs) := rfl
  have hshiftable : isShiftableExtra l (.mk i.shape (shapeAll cs)) =
      isShiftableExtra l (.mk i cs) := by
    cases cs <;> rfl
  have herror : (∀ c ∈ shapeAll cs, c.node.isError = true → c.node.info.errorCost ≠ 0) ↔
      ∀ c ∈ cs, c.node.isError = true → c.node.info.errorCost ≠ 0 := by
    rw [shapeAll_eq_map, List.forall_mem_map]
    simp only [isError, Subtree.symbol, info_shape]
    rfl
  constructor
  · intro h
    have hcost := h.cost
    have hmissing := h.missing
    have hstays := h.stays
    have hextra := h.extra
    rw [costOf_shapeAll] at hcost
    rw [hnil] at hmissing
    rw [hhidden] at hstays
    rw [hshiftable] at hextra
    exact ⟨fun hf => hcost ⟨hf.symbol, hf.missing⟩, fun hs => herror.mp (h.error hs), hmissing,
      hstays, hextra⟩
  · intro h
    refine ⟨fun hf => ?_, fun hs => herror.mpr (h.error hs), fun hm => ?_, fun hm => ?_,
      fun hx hs => ?_⟩
    · rw [costOf_shapeAll]
      exact h.cost ⟨hf.symbol, hf.missing⟩
    · rw [hnil]
      exact h.missing hm
    · rw [hhidden]
      exact h.stays hm
    · rw [hshiftable]
      exact h.extra hx hs

end Subtree

end Glr
