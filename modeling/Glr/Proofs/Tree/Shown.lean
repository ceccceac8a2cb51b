import Glr.Proofs.Parse.Stack
import Glr.Proofs.Parse.Token

/-!
# Glr.Proofs.Tree.Shown

Trees as derivations.  A derivation has a production at every inner node, and a tree shows
it with the fields and labels of the steps, and with extras among its children:

```
node p (d₁ d₂ …)   ↦   node lhs (extra?  field₁: label₁ t₁  extra?  field₂: label₂ t₂  …)
```

Hidden nodes give way to their children, which keeps the cost of all errors below a node.
So a node without cost shows a derivation without missing tokens and error nodes.
-/

namespace Glr

/-! ## Derivations -/

/-- A derivation: a token, or a production with a derivation for every step. -/
inductive Derivation where
  | token (s : Symbol)
  | node (p : Production) (steps : List Derivation)

namespace Derivation

/-- The symbol that is derived from. -/
def symbol : Derivation → Symbol
  | token s => s
  | node p _ => p.lhs

/-- A derivation of a grammar: what stands below a production derives its right-hand side,
step by step. -/
inductive Valid (g : FlatGrammar) : Derivation → Prop where
  | token {s : Symbol} (hs : IsToken g.symbols s) : Valid g (.token s)
  | node {p : Production} {ds : List Derivation} (hp : p ∈ g.productions)
      (hrhs : ds.map symbol = p.rhs) (hds : ∀ d ∈ ds, Valid g d) : Valid g (.node p ds)

end Derivation

namespace Parse

open Subtree

variable {g : FlatGrammar} {l : Language} {ds : List Derivation} {ts us : List Subtree}
  {t : Subtree} {cs : List (Child Subtree)} {steps : List Step}

/-! ## Children -/

/-- The children that some nodes become by the steps that they stand for: every node that
is no extra fills the field of its step and is shown under the label of it. -/
inductive Dressed (l : Language) : List Step → List Subtree → List (Child Subtree) → Prop where
  | nil : Dressed l [] [] []
  | extra {steps : List Step} {t : Subtree} {ts : List Subtree} {cs : List (Child Subtree)}
      (hx : t.info.extra = true) (h : Dressed l steps ts cs) :
      Dressed l steps (t :: ts) (⟨none, t⟩ :: cs)
  | step {st : Step} {steps : List Step} {t : Subtree} {ts : List Subtree}
      {cs : List (Child Subtree)} (hx : t.info.extra = false) (h : Dressed l steps ts cs) :
      Dressed l (st :: steps) (t :: ts) (⟨st.field, shownBy l st t⟩ :: cs)

/-- A reduction dresses the nodes that it takes. -/
theorem dressed_dress (h : (ts.filter fun t => !t.info.extra).length = steps.length) :
    Dressed l steps ts (dress l (steps.map Step.field) (steps.map Step.label) ts) := by
  induction ts generalizing steps with
  | nil =>
    obtain rfl : steps = [] := List.length_eq_zero_iff.mp h.symm
    exact .nil
  | cons t ts ih =>
    by_cases hx : t.info.extra = true
    · rw [dress, if_pos hx]
      exact .extra hx (ih (by simpa [hx] using h))
    · have hx' : t.info.extra = false := by simpa using hx
      cases steps with
      | nil => simp [hx'] at h
      | cons st steps =>
        rw [dress_cons_node hx']
        exact .step hx' (ih (by simpa [hx'] using h))

theorem Dressed.append_extras (h : Dressed l steps ts cs) (hus : ∀ u ∈ us, u.info.extra = true) :
    Dressed l steps (ts ++ us) (cs ++ us.map fun u => ⟨none, u⟩) := by
  induction h with
  | nil =>
    induction us with
    | nil => exact .nil
    | cons u us ih => exact .extra (hus u (by simp)) (ih fun u hu => hus u (by simp [hu]))
  | extra hx _ ih => exact .extra hx ih
  | step hx _ ih => exact .step hx ih

theorem Dressed.extras_append (hus : ∀ u ∈ us, u.info.extra = true) (h : Dressed l steps ts cs) :
    Dressed l steps (us ++ ts) ((us.map fun u => ⟨none, u⟩) ++ cs) := by
  induction us with
  | nil => exact h
  | cons u us ih => exact .extra (hus u (by simp)) (ih fun u hu => hus u (by simp [hu]))

/-! ## Trees that show derivations -/

/-- Some nodes, extras among them, show some derivations; `T` says what the leaf of a token
is, and `X` what an extra is. -/
inductive Shown (l : Language) (T : NodeInfo → Prop) (X : Subtree → Prop) :
    List Derivation → List Subtree → Prop where
  | nil : Shown l T X [] []
  | extra {ds : List Derivation} {t : Subtree} {ts : List Subtree} (hx : X t)
      (h : Shown l T X ds ts) : Shown l T X ds (t :: ts)
  | token {i : NodeInfo} {ds : List Derivation} {ts : List Subtree} (ht : T i)
      (h : Shown l T X ds ts) : Shown l T X (.token i.symbol :: ds) (.mk i [] :: ts)
  | node {p : Production} {below : List Derivation} {nodes : List Subtree}
      {cs : List (Child Subtree)} {spec : Spec} {ds : List Derivation} {ts : List Subtree}
      (hsymbol : spec.symbol = p.lhs) (hcost : spec.errorCost = 0)
      (hbelow : Shown l T X below nodes) (hcs : Dressed l p.steps nodes cs)
      (h : Shown l T X ds ts) :
      Shown l T X (.node p below :: ds) (Subtree.node l spec cs :: ts)

/-- A token of the text, as the leaf of a tree. -/
structure TokenLeaf (g : FlatGrammar) (l : Language) (i : NodeInfo) : Prop extends Plain l i where
  token : IsToken g.symbols i.symbol

/-- A token of the text that may stand anywhere, as an extra. -/
structure ExtraLeaf (g : FlatGrammar) (t : Subtree) : Prop where
  leaf : t.children = []
  symbol : t.symbol ∈ g.extras
  extra : t.info.extra = true
  missing : t.info.missing = false

/-- A token of the text or one that is put in. -/
inductive LeafOrMissing (g : FlatGrammar) (l : Language) (i : NodeInfo) : Prop where
  | token (h : TokenLeaf g l i)
  | missing (ht : IsToken g.symbols i.symbol) (hx : i.extra = false) (hc : i.errorCost ≠ 0)

/-- A token that may stand anywhere or an error node. -/
inductive ExtraOrError (g : FlatGrammar) (t : Subtree) : Prop where
  | token (h : ExtraLeaf g t)
  | error (he : t.isError = true) (hx : t.info.extra = true) (hc : t.info.errorCost ≠ 0)

/-- Some nodes of a parse show some derivations, with missing tokens and error nodes. -/
abbrev Built (g : FlatGrammar) (l : Language) : List Derivation → List Subtree → Prop :=
  Shown l (LeafOrMissing g l) (ExtraOrError g)

/-- Some nodes show some derivations exactly. -/
abbrev Clean (g : FlatGrammar) (l : Language) : List Derivation → List Subtree → Prop :=
  Shown l (TokenLeaf g l) (ExtraLeaf g)

theorem LeafOrMissing.token_extra {i : NodeInfo} (h : LeafOrMissing g l i) :
    IsToken g.symbols i.symbol ∧ i.extra = false := by
  cases h with
  | token h => exact ⟨h.token, h.extra⟩
  | missing ht hx => exact ⟨ht, hx⟩

theorem ExtraOrError.extra (h : ExtraOrError g t) : t.info.extra = true := by
  cases h with
  | token h => exact h.extra
  | error _ hx => exact hx

section

variable {T : NodeInfo → Prop} {X : Subtree → Prop}

theorem Shown.append {es : List Derivation} (h : Shown l T X ds ts) (h' : Shown l T X es us) :
    Shown l T X (ds ++ es) (ts ++ us) := by
  induction h with
  | nil => exact h'
  | extra hx _ ih => exact .extra hx ih
  | token ht _ ih => exact .token ht ih
  | node hs hc hb hcs _ _ ih => exact .node hs hc hb hcs ih

theorem Shown.of_append (h : Shown l T X ds (ts ++ us)) :
    ∃ ds₁ ds₂, ds = ds₁ ++ ds₂ ∧ Shown l T X ds₁ ts ∧ Shown l T X ds₂ us := by
  induction ts generalizing ds with
  | nil => exact ⟨[], ds, rfl, .nil, h⟩
  | cons t ts ih =>
    cases h with
    | extra hx h =>
      obtain ⟨ds₁, ds₂, rfl, h₁, h₂⟩ := ih h
      exact ⟨ds₁, ds₂, rfl, .extra hx h₁, h₂⟩
    | token ht h =>
      obtain ⟨ds₁, ds₂, rfl, h₁, h₂⟩ := ih h
      exact ⟨_ :: ds₁, ds₂, rfl, .token ht h₁, h₂⟩
    | node hs hc hb hcs h =>
      obtain ⟨ds₁, ds₂, rfl, h₁, h₂⟩ := ih h
      exact ⟨_ :: ds₁, ds₂, rfl, .node hs hc hb hcs h₁, h₂⟩

/-- Nodes that are all extras show nothing. -/
theorem Shown.of_extras (h : ∀ t ∈ ts, X t) : Shown l T X [] ts := by
  induction ts with
  | nil => exact .nil
  | cons t ts ih => exact .extra (h t (by simp)) (ih fun u hu => h u (by simp [hu]))

end

/-- The nodes that are no extras have the symbols that are derived from. -/
theorem Built.map_symbol (h : Built g l ds ts) :
    ds.map Derivation.symbol = (ts.filter fun t => !t.info.extra).map Subtree.symbol := by
  induction h with
  | nil => rfl
  | extra hx _ ih => simpa [hx.extra] using ih
  | token ht _ ih =>
    have hx := ht.token_extra.2
    simpa [Subtree.info, hx, Derivation.symbol, Subtree.symbol] using ih
  | @node p _ _ cs spec _ _ hs _ _ _ _ _ ih =>
    have hx : (Subtree.node l spec cs).info.extra = false := rfl
    have hsymbol : (Subtree.node l spec cs).symbol = p.lhs := hs
    simpa [hx, hsymbol, Derivation.symbol] using ih

/-- Where one derivation is shown, one node shows it, and extras stand around that. -/
theorem Built.singleton {d : Derivation} (h : Built g l [d] ts) :
    ∃ before t after, ts = before ++ t :: after ∧ (∀ u ∈ before, ExtraOrError g u) ∧
      t.info.extra = false ∧ Built g l [d] [t] ∧ ∀ u ∈ after, ExtraOrError g u := by
  have hnil {us : List Subtree} (h : Built g l [] us) : ∀ u ∈ us, ExtraOrError g u := by
    generalize hds : ([] : List Derivation) = ds at h
    induction h with
    | nil => simp
    | extra hx _ ih => simpa [hx] using ih hds
    | token => contradiction
    | node => contradiction
  generalize hds : [d] = ds at h
  induction h with
  | nil => contradiction
  | @extra _ t _ hx _ ih =>
    obtain ⟨before, u, after, rfl, hbefore, hu⟩ := ih hds
    exact ⟨t :: before, u, after, rfl, by simpa [hx] using hbefore, hu⟩
  | @token i _ ts ht h _ =>
    obtain ⟨rfl, rfl⟩ := List.cons.inj hds
    exact ⟨[], .mk i [], ts, rfl, by simp, ht.token_extra.2, .token ht .nil, hnil h⟩
  | @node p below nodes cs spec _ ts hs hc hb hcs h _ _ =>
    obtain ⟨rfl, rfl⟩ := List.cons.inj hds
    exact ⟨[], _, ts, rfl, by simp, rfl, .node hs hc hb hcs .nil, hnil h⟩

/-! ## Costs -/

/-- The costs of some nodes together. -/
def costOf (ts : List Subtree) : Nat := (ts.map fun t => t.info.errorCost).sum

@[simp] theorem costOf_nil : costOf [] = 0 := rfl

@[simp] theorem costOf_cons (t : Subtree) (ts : List Subtree) :
    costOf (t :: ts) = t.info.errorCost + costOf ts := by
  simp [costOf]

@[simp] theorem costOf_append (ts us : List Subtree) :
    costOf (ts ++ us) = costOf ts + costOf us := by
  simp [costOf]

theorem errorCost_sum (cs : List (Child Subtree)) :
    (Sum.of cs).errorCost = costOf (cs.map Child.node) := by
  have hfold (s : Sum) : (cs.foldl (fun s c => s.add c.node) s).errorCost
      = s.errorCost + costOf (cs.map Child.node) := by
    induction cs generalizing s with
    | nil => rfl
    | cons c cs ih =>
      rw [List.foldl_cons, ih, List.map_cons, costOf_cons, ← Nat.add_assoc]
      rfl
  rw [Sum.of, hfold]
  exact Nat.zero_add _

/-- A node costs what it was made with and what its children cost. -/
theorem errorCost_node (spec : Spec) (cs : List (Child Subtree)) :
    (Subtree.node l spec cs).info.errorCost
      = spec.errorCost + costOf ((Subtree.node l spec cs).children.map Child.node) := by
  rw [← errorCost_sum]
  rfl

/-- Taking the place of a node keeps its cost. -/
def Keeps (l : Language) (t : Subtree) : Prop :=
  ∀ field, costOf ((splice l field [] t).map Child.node) = t.info.errorCost

theorem keeps_of_isHidden_eq_false (h : isHidden l t = false) : Keeps l t := by
  obtain ⟨info, cs⟩ := t
  intro field
  rw [splice, if_neg (by simp [h])]
  simp

theorem costOf_spliceAll (h : ∀ c ∈ cs, Keeps l c.node) (outer : Option FieldId) :
    costOf ((spliceAll l outer [] cs).map Child.node) = costOf (cs.map Child.node) := by
  induction cs with
  | nil => rfl
  | cons c cs ih =>
    obtain ⟨field, t⟩ := c
    have ht : Keeps l t := h ⟨field, t⟩ (by simp)
    have hcs := ih fun c hc => h c (by simp [hc])
    rw [spliceAll, splice_eq_append, List.map_append, costOf_append, ht, hcs, List.map_cons,
      costOf_cons]

/-- A node costs what it was made with and what it was made of. -/
theorem errorCost_node_of_keeps {spec : Spec} (h : ∀ c ∈ cs, Keeps l c.node) :
    (Subtree.node l spec cs).info.errorCost = spec.errorCost + costOf (cs.map Child.node) := by
  rw [errorCost_node]
  by_cases hv : l.isVisible spec.symbol = true
  · have hcs : (Subtree.node l spec cs).children = spliceAll l none [] cs := by
      simp [Subtree.node, hv, Subtree.children]
    rw [hcs, costOf_spliceAll h]
  · have hcs : (Subtree.node l spec cs).children = cs := by
      simp [Subtree.node, hv, Subtree.children]
    rw [hcs]

/-- A node that is made without cost and does not keep its place keeps its cost. -/
theorem keeps_node {spec : Spec} (hc : spec.errorCost = 0) (h : ∀ c ∈ cs, Keeps l c.node) :
    Keeps l (Subtree.node l spec cs) := by
  by_cases hv : l.isVisible spec.symbol = true
  · refine keeps_of_isHidden_eq_false ?_
    simp [isHidden, Subtree.node, Subtree.info, hv]
  · have hnode : Subtree.node l spec cs = .mk (Subtree.node l spec cs).info cs := by
      simp [Subtree.node, hv, Subtree.info]
    intro field
    have hcost : (Subtree.node l spec cs).info.errorCost =
        spec.errorCost + costOf (cs.map Child.node) := errorCost_node_of_keeps h
    rw [hc, Nat.zero_add] at hcost
    rw [hcost]
    rw [hnode, splice]
    split
    · exact costOf_spliceAll h field
    · rw [List.map_singleton, costOf_cons, costOf_nil, Nat.add_zero]
      exact hcost

theorem errorCost_shownBy (st : Step) (t : Subtree) :
    (shownBy l st t).info.errorCost = t.info.errorCost := by
  unfold shownBy withSymbol
  split
  · split <;> rfl
  · rfl

/-- A node that is shown under the label of a step keeps its cost. -/
theorem keeps_shownBy (hg : l.Sound g) {st : Step}
    (hlabel : ∀ s, st.label = some s → IsShown g.symbols s) (h : Keeps l t) :
    Keeps l (shownBy l st t) := by
  unfold shownBy
  split
  · rename_i s hs
    unfold withSymbol
    split
    · exact h
    · refine keeps_of_isHidden_eq_false ?_
      simp [isHidden, withInfo, Subtree.info, hg.isVisible_of_isShown (hlabel s hs)]
  · exact h

/-- Dressed nodes keep their costs if the nodes do. -/
theorem Dressed.keeps (hg : l.Sound g)
    (hlabels : ∀ st ∈ steps, ∀ s, st.label = some s → IsShown g.symbols s)
    (h : Dressed l steps ts cs) (hts : ∀ t ∈ ts, Keeps l t) :
    (∀ c ∈ cs, Keeps l c.node) ∧ costOf (cs.map Child.node) = costOf ts := by
  induction h with
  | nil => simp
  | @extra steps t ts cs hx _ ih =>
    obtain ⟨h₁, h₂⟩ := ih hlabels fun u hu => hts u (by simp [hu])
    refine ⟨fun c hc => ?_, by simp [h₂]⟩
    rcases List.mem_cons.mp hc with rfl | hc
    · exact hts t (by simp)
    · exact h₁ c hc
  | @step st steps t ts cs hx _ ih =>
    obtain ⟨h₁, h₂⟩ := ih (fun st' hst' => hlabels st' (by simp [hst'])) fun u hu =>
      hts u (by simp [hu])
    refine ⟨fun c hc => ?_, by simp [h₂, errorCost_shownBy]⟩
    rcases List.mem_cons.mp hc with rfl | hc
    · exact keeps_shownBy hg (hlabels st (by simp)) (hts t (by simp))
    · exact h₁ c hc

/-- What stands below a valid derivation is valid, and the labels of its steps are shown. -/
theorem valid_below (hg : l.Sound g) {p : Production} {below : List Derivation}
    (h : (Derivation.node p below).Valid g) :
    (∀ d ∈ below, d.Valid g) ∧ ∀ st ∈ p.steps, ∀ s, st.label = some s → IsShown g.symbols s := by
  cases h with
  | node hp _ hds => exact ⟨hds, fun st hst => ((hg.grammar.productions p hp).steps st hst).label⟩

theorem ExtraOrError.isHidden_eq_false (hg : l.Sound g) (h : ExtraOrError g t) :
    isHidden l t = false := by
  cases h with
  | token h =>
    have htoken := hg.grammar.extras _ h.symbol
    simp [isHidden, hg.isNonterminal_eq_false (FlatGrammar.isTerminal_of_isToken htoken)]
  | error he =>
    have hsymbol : t.symbol = errorSymbol := by simpa [isError] using he
    simp [isHidden, hsymbol, isNonterminal_errorSymbol hg]

/-- All nodes of a parse keep their costs. -/
theorem Built.keeps (hg : l.Sound g) (hds : ∀ d ∈ ds, d.Valid g) (h : Built g l ds ts) :
    ∀ t ∈ ts, Keeps l t := by
  induction h with
  | nil => simp
  | @extra _ t _ hx _ ih =>
    intro u hu
    rcases List.mem_cons.mp hu with rfl | hu
    · exact keeps_of_isHidden_eq_false (hx.isHidden_eq_false hg)
    · exact ih hds u hu
  | @token i _ _ ht _ ih =>
    intro u hu
    rcases List.mem_cons.mp hu with rfl | hu
    · have hterm := hg.isNonterminal_eq_false
        (FlatGrammar.isTerminal_of_isToken ht.token_extra.1)
      exact keeps_of_isHidden_eq_false (by simp [isHidden, Subtree.symbol, Subtree.info, hterm])
    · exact ih (fun d hd => hds d (by simp [hd])) u hu
  | @node p below _ _ _ _ _ _ hc _ hcs _ ihb ih =>
    obtain ⟨hbelow, hlabels⟩ := valid_below hg (hds (.node p below) (by simp))
    intro u hu
    rcases List.mem_cons.mp hu with rfl | hu
    · exact keeps_node hc (hcs.keeps hg hlabels (ihb hbelow)).1
    · exact ih (fun d hd => hds d (by simp [hd])) u hu

/-- Where there is no cost, derivations are shown exactly. -/
theorem Built.clean (hg : l.Sound g) (hds : ∀ d ∈ ds, d.Valid g) (h : Built g l ds ts)
    (hcost : costOf ts = 0) : Clean g l ds ts := by
  induction h with
  | nil => exact .nil
  | @extra _ t _ hx _ ih =>
    rw [costOf_cons] at hcost
    cases hx with
    | token hx => exact .extra hx (ih hds (by omega))
    | error _ _ hc => omega
  | @token i _ _ ht _ ih =>
    rw [costOf_cons] at hcost
    have hi : i.errorCost = 0 := Nat.eq_zero_of_add_eq_zero_right hcost
    cases ht with
    | token ht => exact .token ht (ih (fun d hd => hds d (by simp [hd])) (by omega))
    | missing _ _ hc => exact absurd hi hc
  | @node p below nodes cs spec ds ts hs hc hb hcs _ ihb ih =>
    obtain ⟨hbelow, hlabels⟩ := valid_below hg (hds (.node p below) (by simp))
    obtain ⟨hkeeps, hsum⟩ := hcs.keeps hg hlabels (Built.keeps hg hbelow hb)
    rw [costOf_cons, errorCost_node_of_keeps hkeeps, hsum] at hcost
    exact .node hs hc (ihb hbelow (by omega)) hcs (ih (fun d hd => hds d (by simp [hd])) (by omega))

end Parse

end Glr
