import Glr.Proofs.Editing
import Glr.Proofs.Parse.Derived
import Glr.Proofs.Tree.Priced
import Mathlib.Tactic.Abel

/-!
# Glr.Proofs.Parse.Priced

What a hypothesis costs.  A cost is added when a token is put in, when nodes are given up and
when a token is skipped, and the nodes that come of it carry it:

```
cost  =  costs of the nodes  +  cost of what was skipped since the last error
```

The second part moves into an error node where that error ends.  For none of it to be lost there,
some token that is no extra has to be among the skipped ones, so that the error node is made.
-/

namespace Glr.Parse

open Subtree Run
open Version (stateOf)

variable {g : FlatGrammar} {l : Language} {Spans : Nat → Length → Prop} {text : Bytes}
  {old : Option Tree} {size : Nat} {v w : Version} {t u : Subtree} {ts : List Subtree} {r : Run}

/-! ## Hypotheses -/

/-- What may stand on a stack: error nodes are extras, and only tokens are missing. -/
structure Settled (l : Language) (t : Subtree) : Prop extends Charged l t where
  isExtra : t.isError = true → t.info.extra = true
  isTerminal : t.info.missing = true → l.isNonterminal t.symbol = false

/-- What was skipped: it has no cost by itself. -/
structure Skipped (l : Language) (t : Subtree) : Prop where
  priced : Everywhere (Priced l) t
  cost : t.info.errorCost = 0
  extra : t.info.extra = true → t.isError = false

/-- A hypothesis costs what its nodes and the tokens that it skips cost. -/
structure Version.Priced (l : Language) (size : Nat) (v : Version) : Prop where
  cost : v.errorCost = costOf v.nodes + v.pendingCost
  nodes : ∀ t ∈ v.nodes, Settled l t
  pending : ∀ t ∈ v.pending, Skipped l t
  idle : v.pending = [] → v.pendingCost = 0
  /-- What was skipped will become an error node. -/
  busy : v.pending ≠ [] → v.pendingCost ≠ 0 ∧ ∃ t ∈ v.pending, t.info.extra = false
  lookahead : ∀ t, v.lookahead = some t → Free l t
  old : ∀ o, v.old = some o → o.Sound (fun _ t => Everywhere (Subtree.Priced l) t) size

theorem Skipped.missing (h : Skipped l t) : t.info.missing = false := by
  rw [← Bool.not_eq_true]
  exact fun hm => (h.priced.here.missing hm).2.1 h.cost

theorem costOf_skipped (h : ∀ t ∈ ts, Skipped l t) : costOf ts = 0 :=
  costOf_eq_zero_iff.mpr fun t ht => (h t ht).cost

/-- All nodes of a hypothesis are priced. -/
theorem Version.Priced.everywhere (h : v.Priced l size) :
    ∀ t ∈ v.nodes ++ v.pending, Everywhere (Subtree.Priced l) t := by
  intro t ht
  rcases List.mem_append.mp ht with ht | ht
  · exact (h.nodes t ht).priced
  · exact (h.pending t ht).priced

/-- A hypothesis costs nothing exactly if it skips nothing and there is no error in its
nodes. -/
theorem Version.Priced.cost_eq_zero_iff (h : v.Priced l size) :
    v.errorCost = 0 ↔ v.pending = [] ∧ ∀ t ∈ v.nodes, Everywhere Faultless t := by
  rw [h.cost, Nat.add_eq_zero_iff, costOf_eq_zero_iff]
  constructor
  · rintro ⟨hnodes, hpending⟩
    refine ⟨Classical.byContradiction fun hne => (h.busy hne).1 hpending, fun t ht => ?_⟩
    refine faultless_of_priced (h.nodes t ht).priced ?_ (hnodes t ht)
    rw [← Bool.not_eq_true]
    exact fun he => (h.nodes t ht).error he (hnodes t ht)
  · rintro ⟨hpending, hnodes⟩
    exact ⟨fun t ht => cost_of_faultless (h.nodes t ht).priced (hnodes t ht), h.idle hpending⟩

/-! ## Finding the token -/

/-- A token costs nothing. -/
theorem free_token (hg : l.Sound g) (text : Bytes) (site : Site) : Free l (token l text site).1 := by
  have htoken := tokenAt_token text site hg
  generalize (token l text site).1 = t at htoken
  obtain ⟨i, cs⟩ := t
  obtain rfl : cs = [] := htoken.leaf
  refine ⟨priced_leaf htoken.cost htoken.plain.missing htoken.plain.extra, htoken.cost, fun hx => ?_⟩
  rw [htoken.plain.extra] at hx
  contradiction

/-- What is taken from the previous tree has no error in it. -/
theorem free_of_reused {site : ReuseSite}
    (h : Reused (fun _ t => Everywhere (Subtree.Priced l) t) size l site t) : Free l t := by
  have herror := h.noError
  simp only [hasError, Bool.or_eq_false_iff, decide_eq_false_iff_not] at herror
  exact ⟨h.built, Nat.eq_zero_of_not_pos herror.1.1, fun hx =>
    h.built.here.extra hx (isError_eq_false_iff.mp herror.1.2)⟩

theorem Fetched.priced (hg : l.Sound g) (h : v.Priced l text.size) (hf : Fetched l text v t w) :
    w.Priced l text.size := by
  cases hf with
  | kept _ => exact h
  | @reused _ o o' _ ho hp hr =>
    have hspec := OldTree.reuse?_spec l v.reuseSite (h.old o ho)
    rw [hr] at hspec
    refine ⟨h.cost, h.nodes, h.pending, h.idle, h.busy, ?_, ?_⟩
    · rintro u hu
      obtain rfl := Option.some.inj hu
      exact free_of_reused (hspec.2 _ rfl)
    · rintro o hu
      obtain rfl := Option.some.inj hu
      exact hspec.1
  | @lexed old _ ho =>
    refine ⟨h.cost, h.nodes, h.pending, h.idle, h.busy, ?_, ?_⟩
    · rintro u hu
      obtain rfl := Option.some.inj hu
      exact free_token hg text (v.site l)
    · rintro o hu
      cases ho with
      | not => exact h.old o hu
      | inVain ho' hr =>
        obtain rfl := Option.some.inj hu
        have hspec := OldTree.reuse?_spec l v.reuseSite (h.old _ ho')
        rw [hr] at hspec
        exact hspec.1

/-! ## Taking tokens -/

theorem ne_errorSymbol_of_isToken (hg : l.Sound g) {s : Symbol} (h : IsToken g.symbols s) :
    s ≠ errorSymbol := by
  obtain ⟨info, hi, -⟩ := h
  exact Nat.ne_of_lt (Nat.lt_of_lt_of_le (Array.getElem?_eq_some_iff.mp hi).1 hg.grammar.size_le)

theorem ne_errorSymbol_of_isShiftableExtra (hg : l.Sound g) (h : isShiftableExtra l t = true) :
    t.symbol ≠ errorSymbol :=
  ne_errorSymbol_of_isToken hg (hg.grammar.extras _ (mem_extras_of_isShiftableExtra hg h))

theorem ne_errorSymbol_of_mem_actionsFor (hg : l.Sound g) {q next : StateId}
    (h : .shift next ∈ actionsFor l q t) : t.symbol ≠ errorSymbol := by
  rw [actionsFor] at h
  split at h
  · rename_i hn
    intro he
    rw [he, isNonterminal_errorSymbol hg] at hn
    contradiction
  · exact ne_errorSymbol_of_isToken hg (hg.isToken_of_shift h)

/-- What is taken costs nothing, so the hypothesis does not either. -/
theorem Version.Priced.shift (h : v.Priced l size) (hl : v.lookahead = some t) (next : StateId)
    {x : Bool} (hs : t.symbol ≠ errorSymbol) (hx : x = true → isShiftableExtra l t = true) :
    (v.shift next t x).Priced l size := by
  have ht := h.lookahead t hl
  have hstate := priced_withInfo ht.priced
    (f := fun i => { i with parseState := v.state }) ⟨rfl, rfl, rfl, rfl⟩
    fun hx _ => ht.extra hx
  have hnode : Everywhere (Subtree.Priced l) ((t.withParseState v.state).withExtra x) :=
    priced_withInfo hstate ⟨rfl, rfl, rfl, rfl⟩ fun hx' _ => hx hx'
  have hnodes : (v.shift next t x).nodes = v.nodes ++ [(t.withParseState v.state).withExtra x] :=
    Version.nodes_push v _ _
  refine ⟨?_, fun u hu => ?_, h.pending, h.idle, h.busy, by rintro u ⟨⟩, h.old⟩
  · rw [hnodes, costOf_append, costOf_cons, costOf_nil,
      show ((t.withParseState v.state).withExtra x).info.errorCost = 0 from ht.cost]
    exact h.cost
  · rw [hnodes] at hu
    rcases List.mem_append.mp hu with hu | hu
    · exact h.nodes u hu
    · rw [List.mem_singleton.mp hu]
      have herror : ((t.withParseState v.state).withExtra x).isError = false :=
        isError_eq_false_iff.mpr hs
      refine ⟨⟨hnode, fun he => ?_⟩, fun he => ?_, fun hm => ?_⟩
      · rw [herror] at he
        contradiction
      · rw [herror] at he
        contradiction
      · have hmissing := ht.missing
        rw [show t.info.missing = true from hm] at hmissing
        contradiction

/-! ## Reductions -/

/-- The symbol of a production is no error, and what it is shown under is visible. -/
theorem shown_of_production (hg : l.Sound g) {prod : Production} (hmem : prod ∈ g.productions) :
    prod.lhs ≠ errorSymbol ∧
      ∀ s, .some s ∈ prod.info.labels → l.isVisible s = true ∧ s ≠ errorSymbol := by
  refine ⟨fun he => ?_, fun s hlabel => ?_⟩
  · have hrule := hg.isNonterminal_of_isRule (hg.grammar.productions prod hmem).lhs
    rw [he, isNonterminal_errorSymbol hg] at hrule
    contradiction
  · obtain ⟨st, hst, hlabel⟩ := List.mem_map.mp hlabel
    have hshown := ((hg.grammar.productions prod hmem).steps st hst).label s hlabel
    exact ⟨hg.isVisible_of_isShown hshown, ne_errorSymbol_of_isShown hg.grammar.size_le hshown⟩

/-- The new node costs what the nodes of the production do. -/
theorem Version.Priced.reduced (hg : l.Sound g) (h : v.Priced l size) {prod : Production}
    (hmem : prod ∈ g.productions) {before after : List Subtree}
    (hnodes : v.nodes = before ++ (ts ++ after)) {spec : Spec} (hspec : spec.symbol = prod.lhs)
    (hcost : spec.errorCost = 0) :
    let node := Subtree.node l spec (dress l prod.info.fields prod.info.labels ts)
    Charged l node ∧ node.info.errorCost = costOf ts := by
  obtain ⟨hlhs, hlabels⟩ := shown_of_production hg hmem
  have htaken (u : Subtree) (hu : u ∈ ts) : Settled l u :=
    h.nodes u (by rw [hnodes]; exact List.mem_append_right _ (List.mem_append_left _ hu))
  obtain ⟨hchildren, hcosts⟩ := charged_dress prod.info.fields hlabels fun u hu =>
    ⟨(htaken u hu).toCharged, (htaken u hu).isExtra⟩
  obtain ⟨hnode, hnodeCost⟩ :=
    charged_node (isNonterminal_errorSymbol hg) (hspec ▸ hlhs) hcost hchildren
  exact ⟨hnode, hnodeCost.trans hcosts⟩

theorem Version.Priced.reduce (hg : l.Sound g) (hs : v.Sound g l Spans text)
    (h : v.Priced l size) {p : ProductionId} {a : Symbol} (ha : .reduce p ∈ l.actions v.state a)
    {n : Nat} {info : ProductionInfo} {fragile : Bool} (hinfo : l.production? p = some info)
    (hw : Version.reduce l { v with reductions := n } info fragile t = .ok w) :
    w.Priced l size := by
  obtain ⟨prod, before, ts, after, spec, hprod, hnodes, -, -, hspec, hcost, -, -, hw'⟩ :=
    hs.stacked.nodes_reduced hg ha hinfo hw
  have hmem := Array.mem_of_getElem? hprod
  have hsymbol : spec.symbol ≠ errorSymbol := hspec ▸ (shown_of_production hg hmem).1
  obtain ⟨hnode, hnodeCost⟩ := h.reduced hg hmem hnodes hspec hcost
  have hall := h.nodes
  have hcosts := h.cost
  rw [hnodes] at hall hcosts
  obtain ⟨stack, external, precedence, rfl⟩ := Version.reduce_eq hw
  refine ⟨?_, fun u hu => ?_, h.pending, h.idle, h.busy, h.lookahead, h.old⟩
  · rw [hw', costOf_append, costOf_cons, hnodeCost]
    rw [costOf_append, costOf_append] at hcosts
    exact hcosts
  · rw [hw'] at hu
    rcases List.mem_append.mp hu with hu | hu
    · exact hall u (List.mem_append_left _ hu)
    · rcases List.mem_cons.mp hu with rfl | hu
      · exact ⟨hnode, fun he => absurd (beq_iff_eq.mp he) hsymbol, by rintro ⟨⟩⟩
      · exact hall u (List.mem_append_right _ (List.mem_append_right _ hu))

/-! ## Errors -/

/-- A token that is put in costs as much as it adds. -/
theorem Version.Priced.inserted (hg : l.Sound g) (h : v.Priced l size) {s : Symbol}
    {next : StateId} (ha : .shift next ∈ l.actions v.state s) :
    (v.inserted l s next).Priced l size := by
  have htoken := hg.isToken_of_shift ha
  have hterm := hg.isNonterminal_eq_false (FlatGrammar.isTerminal_of_isToken htoken)
  have hne := ne_errorSymbol_of_isToken hg htoken
  have hmissing : Everywhere (Subtree.Priced l) (.missing l s v.state missingCost) := by
    refine everywhere_mk.mpr ⟨⟨fun hf => ?_, by simp, fun _ => ⟨rfl, Nat.succ_ne_zero _, hne⟩, fun _ => ?_,
      by rintro ⟨⟩⟩, by simp⟩
    · have := hf.missing
      contradiction
    · have hhidden : isHidden l (.missing l s v.state missingCost)
          = (!l.isVisible s && l.isNonterminal s) := rfl
      rw [hterm, Bool.and_false] at hhidden
      exact hhidden
  have hnodes : (v.inserted l s next).nodes = v.nodes ++ [.missing l s v.state missingCost] :=
    Version.nodes_push v _ _
  refine ⟨?_, fun u hu => ?_, h.pending, h.idle, h.busy, h.lookahead, h.old⟩
  · have hcost : (v.inserted l s next).errorCost = v.errorCost + missingCost := rfl
    have hadded : (Subtree.missing l s v.state missingCost).info.errorCost = missingCost := rfl
    have hpending : (v.inserted l s next).pendingCost = v.pendingCost := rfl
    rw [hcost, hnodes, costOf_append, costOf_cons, costOf_nil, hadded, hpending, h.cost]
    omega
  · rw [hnodes] at hu
    rcases List.mem_append.mp hu with hu | hu
    · exact h.nodes u hu
    · rw [List.mem_singleton.mp hu]
      exact ⟨⟨hmissing, fun he => absurd (beq_iff_eq.mp he) hne⟩,
        fun he => absurd (beq_iff_eq.mp he) hne, fun _ => hterm⟩

/-- An error node on a stack. -/
theorem settled_errorExtra (hg : l.Sound g) (h : ∀ t ∈ ts, Everywhere (Subtree.Priced l) t)
    (state : StateId) {cost : Nat} (hc : cost ≠ 0) :
    Settled l ((Subtree.error l state cost ts).withExtra true) ∧
      ((Subtree.error l state cost ts).withExtra true).info.errorCost = cost + costOf ts := by
  obtain ⟨herror, hcost⟩ := charged_errorExtra (isNonterminal_errorSymbol hg) h state hc
  exact ⟨⟨herror, fun _ => rfl, by rintro ⟨⟩⟩, hcost⟩

/-- Nodes that are given up keep their costs in the error node, which has the cost of what was
skipped too. -/
theorem Version.Priced.reset (hg : l.Sound g) (h : v.Priced l size) {taken stack : List Entry}
    (hstack : v.stack = taken ++ stack) {cost : Nat} (hcost : recoveryCost ≤ cost) :
    (v.reset l (taken.map Entry.node).reverse stack cost).Priced l size := by
  have hnodes : v.nodes = (stack.map Entry.node).reverse ++ (taken.map Entry.node).reverse := by
    rw [nodes_eq, hstack]
    simp
  have hall := h.nodes
  have hcosts := h.cost
  rw [hnodes] at hall hcosts
  rw [costOf_append] at hcosts
  have hlost : ∀ u ∈ (taken.map Entry.node).reverse ++ v.pending,
      Everywhere (Subtree.Priced l) u := by
    intro u hu
    rcases List.mem_append.mp hu with hu | hu
    · exact (hall u (List.mem_append_right _ hu)).priced
    · exact (h.pending u hu).priced
  have hne : cost + v.pendingCost ≠ 0 := by
    rw [recoveryCost] at hcost
    omega
  obtain ⟨herror, herrorCost⟩ := settled_errorExtra hg hlost (stateOf stack) hne
  rw [costOf_append, costOf_skipped h.pending] at herrorCost
  have hw : (v.reset l (taken.map Entry.node).reverse stack cost).nodes =
      (stack.map Entry.node).reverse ++ [(Subtree.error l (stateOf stack) (cost + v.pendingCost)
        ((taken.map Entry.node).reverse ++ v.pending)).withExtra true] :=
    Version.nodes_push _ _ _
  refine ⟨?_, fun u hu => ?_, by simp [Version.reset], fun _ => rfl,
    fun hp => absurd rfl hp, h.lookahead, h.old⟩
  · have hw' : (v.reset l (taken.map Entry.node).reverse stack cost).errorCost =
        v.errorCost + cost := rfl
    have hpending : (v.reset l (taken.map Entry.node).reverse stack cost).pendingCost = 0 := rfl
    rw [hw, hw', hpending, costOf_append, costOf_cons, costOf_nil, herrorCost, hcosts]
    omega
  · rw [hw] at hu
    rcases List.mem_append.mp hu with hu | hu
    · exact hall u (List.mem_append_left _ hu)
    · rwa [List.mem_singleton.mp hu]

/-- A token that is skipped is no extra: one that may stand anywhere is taken. -/
theorem Version.Priced.skip (h : v.Priced l size) (hl : v.lookahead = some t)
    (he : isShiftableExtra l t = false) : (v.skip t).Priced l size := by
  have ht := h.lookahead t hl
  have hx : t.info.extra = false := by
    rw [← Bool.not_eq_true]
    intro hx
    rw [ht.extra hx] at he
    contradiction
  have hpos : 0 < skippedCost t := by
    unfold skippedCost
    omega
  refine ⟨?_, h.nodes, fun u hu => ?_, fun hp => ?_, fun _ => ⟨?_, t, ?_, hx⟩, by rintro u ⟨⟩,
    h.old⟩
  · show v.errorCost + _ = costOf v.nodes + (v.pendingCost + _)
    rw [h.cost, Nat.add_assoc]
  · rcases List.mem_append.mp hu with hu | hu
    · exact h.pending u hu
    · rw [List.mem_singleton.mp hu]
      refine ⟨ht.priced, ht.cost, fun hx' => ?_⟩
      rw [hx] at hx'
      contradiction
  · exact absurd hp (List.append_ne_nil_of_right_ne_nil _ (List.cons_ne_nil _ _))
  · show v.pendingCost + (skippedCost t + _) ≠ 0
    omega
  · exact List.mem_append_right _ (List.mem_singleton_self t)

theorem Version.Priced.skipExtra (hg : l.Sound g) (h : v.Priced l size)
    (hl : v.lookahead = some t) (hp : v.pending ≠ []) (he : isShiftableExtra l t = true) :
    (v.skipExtra t).Priced l size := by
  have ht := h.lookahead t hl
  obtain ⟨hcost, u, hu, hx⟩ := h.busy hp
  refine ⟨h.cost, h.nodes, fun x hx => ?_, fun hp' => ?_,
    fun _ => ⟨hcost, u, List.mem_append_left _ hu, hx⟩, by rintro u ⟨⟩, h.old⟩
  · rcases List.mem_append.mp hx with hx | hx
    · exact h.pending x hx
    · rw [List.mem_singleton.mp hx]
      exact ⟨priced_withInfo ht.priced ⟨rfl, rfl, rfl, rfl⟩ fun _ _ => he, ht.cost,
        fun _ => isError_eq_false_iff.mpr (ne_errorSymbol_of_isShiftableExtra hg he)⟩
  · exact absurd hp' (List.append_ne_nil_of_right_ne_nil _ (List.cons_ne_nil _ _))

theorem Version.Priced.recoveries (hg : l.Sound g) (h : v.Priced l size)
    (hl : v.lookahead = some t) (he : isShiftableExtra l t = false) (hw : w ∈ v.recoveries l t) :
    w.Priced l size := by
  cases Recovers.of_mem hw with
  | insert _ _ _ ha => exact h.inserted hg ha
  | reset _ hstack hcost => exact h.reset hg hstack hcost
  | skip => exact h.skip hl he

/-- What was skipped becomes an error node, extras after the last other token apart. -/
theorem Version.Priced.exists_flushed (h : v.Priced l size) (hp : v.pending ≠ []) :
    ∃ skipped trailing, v.pending = skipped ++ trailing ∧ (∀ x ∈ trailing, x.info.extra = true) ∧
      (v.flush l).nodes = v.nodes ++
        ((Subtree.error l v.state v.pendingCost skipped).withExtra true :: trailing) := by
  obtain ⟨-, u, hu, hux⟩ := h.busy hp
  have hparts := splitAfterLast_append (fun t : Subtree => !t.info.extra) v.pending
  have htrailing (x : Subtree) (hx : x ∈ (splitAfterLast (fun t : Subtree => !t.info.extra)
      v.pending).2) : x.info.extra = true := by
    simpa using eq_false_of_mem_splitAfterLast hx
  have hnodes : (v.flush l).nodes = v.nodes ++ ((if (splitAfterLast
      (fun t : Subtree => !t.info.extra) v.pending).1.isEmpty then [] else
      [(Subtree.error l v.state v.pendingCost (splitAfterLast
        (fun t : Subtree => !t.info.extra) v.pending).1).withExtra true]) ++
      (splitAfterLast (fun t : Subtree => !t.info.extra) v.pending).2) :=
    Version.nodes_pushAll ({ v with pending := [], pendingCost := 0 } : Version) v.state _
  rw [← hparts] at hu
  refine ⟨_, _, hparts.symm, htrailing, ?_⟩
  generalize splitAfterLast (fun t : Subtree => !t.info.extra) v.pending = parts
    at hu htrailing hnodes
  obtain ⟨skipped, trailing⟩ := parts
  simp only at hu htrailing hnodes
  have hskipped : skipped ≠ [] := by
    rintro rfl
    rw [htrailing u hu] at hux
    contradiction
  rw [hnodes, if_neg (by simpa using hskipped)]
  rfl

/-- The cost of what was skipped goes into the error node that is made of it. -/
theorem Version.Priced.flush (hg : l.Sound g) (h : v.Priced l size) :
    (v.flush l).Priced l size := by
  by_cases hp : v.pending = []
  · have hflush : v.flush l = { v with
        pending := [], pendingCost := 0, recoveredAt := .some v.position.bytes } := by
      simp [Version.flush, hp, splitAfterLast, Version.pushAll]
    rw [hflush]
    exact ⟨by rw [← h.idle hp]; exact h.cost, h.nodes, by simp, fun _ => rfl, by simp, h.lookahead,
      h.old⟩
  obtain ⟨skipped, trailing, hpending, htrailing, hnodes⟩ := h.exists_flushed hp
  have hall : ∀ x ∈ skipped, Skipped l x := fun x hx =>
    h.pending x (hpending ▸ List.mem_append_left _ hx)
  have hrest : ∀ x ∈ trailing, Skipped l x := fun x hx =>
    h.pending x (hpending ▸ List.mem_append_right _ hx)
  obtain ⟨herror, hcost⟩ :=
    settled_errorExtra hg (fun x hx => (hall x hx).priced) v.state (h.busy hp).1
  rw [costOf_skipped hall, Nat.add_zero] at hcost
  obtain ⟨stack, external, hflush⟩ := Version.flush_eq (l := l) v
  rw [hflush] at hnodes ⊢
  refine ⟨?_, fun x hx => ?_, by simp, fun _ => rfl, by simp, h.lookahead, h.old⟩
  · rw [hnodes, costOf_append, costOf_cons, hcost, costOf_skipped hrest]
    exact h.cost
  · rw [hnodes] at hx
    rcases List.mem_append.mp hx with hx | hx
    · exact h.nodes x hx
    · rcases List.mem_cons.mp hx with rfl | hx
      · exact herror
      · have herror := (hrest x hx).extra (htrailing x hx)
        refine ⟨⟨(hrest x hx).priced, fun he => ?_⟩, fun _ => htrailing x hx, fun hm => ?_⟩
        · rw [herror] at he
          contradiction
        · rw [(hrest x hx).missing] at hm
          contradiction

/-! ## Steps -/

theorem Acts.priced (hg : l.Sound g) (hs : v.Sound g l Spans text) (h : v.Priced l size)
    (hl : v.lookahead = some t) (ha : Acts l v t w) : w.Priced l size := by
  cases ha with
  | shift ha =>
    exact h.shift hl _ (ne_errorSymbol_of_mem_actionsFor hg ha) fun hx => by contradiction
  | reduce ha hinfo _ hw => exact h.reduce hg hs (mem_actions_of_reduce ha) hinfo hw
  | shiftExtra _ he =>
    exact h.shift hl _ (ne_errorSymbol_of_isShiftableExtra hg he) fun _ => he
  | drop => exact ⟨h.cost, h.nodes, h.pending, h.idle, h.busy, by rintro u ⟨⟩, by rintro o ⟨⟩⟩
  | recover _ hw he => exact h.recoveries hg hl he hw

/-- On every way on a hypothesis costs what it has. -/
theorem Next.priced (hg : l.Sound g) (hs : v.Sound g l Spans text) (h : v.Priced l size)
    (hl : v.lookahead = some t) (hn : Next l v t w) : w.Priced l size := by
  cases hn with
  | act _ ha => exact ha.priced hg hs h hl
  | flush _ _ ha =>
    obtain ⟨_, _, hflush⟩ := Version.flush_eq (l := l) v
    exact ha.priced hg (hs.flush hg) (h.flush hg) (by rw [hflush]; exact hl)
  | skipExtra hp he => exact h.skipExtra hg hl hp he
  | recover _ hw he => exact h.recoveries hg hl he hw

/-! ## Outcomes -/

/-- The nodes of a stack with the children of the start node in its place. -/
theorem sum_unrooted {α : Type} [AddCommMonoid α] (f : Subtree → α)
    (hstart : ts.filter (fun t => !t.info.extra) = [u]) :
    ((ts.flatMap fun t => if t.info.extra then [⟨none, t⟩] else t.children).map
        fun c => f c.node).sum + f u
      = (ts.map f).sum + (u.children.map fun c => f c.node).sum := by
  have hextras {ts : List Subtree} (h : ∀ t ∈ ts, t.info.extra = true) :
      ts.flatMap (fun t => if t.info.extra then [⟨none, t⟩] else t.children)
        = ts.map fun t => (⟨none, t⟩ : Child Subtree) := by
    induction ts with
    | nil => rfl
    | cons t ts ih =>
      obtain ⟨ht, hts⟩ := List.forall_mem_cons.mp h
      rw [List.flatMap_cons, if_pos ht, ih hts]
      rfl
  obtain ⟨before, after, rfl, hbefore, hu, hafter⟩ := List.filter_eq_cons_iff.mp hstart
  rw [List.flatMap_append, List.flatMap_cons,
    if_neg (by simpa using hu), hextras fun t ht => by simpa using hbefore t ht,
    hextras fun t ht => by simpa using List.filter_eq_nil_iff.mp hafter t ht]
  simp only [List.map_append, List.map_cons, List.map_map, List.sum_append, List.sum_cons,
    Function.comp_def]
  abel

/-- The root over the start node and the extras around it costs what they do. -/
theorem charged_rootOf (hg : l.Sound g) (hts : ∀ t ∈ ts, Settled l t)
    (hstart : ts.filter (fun t => !t.info.extra) = [u]) (hs : u.symbol = l.table.startSymbol)
    (hn : l.isNonterminal l.table.startSymbol = true) (cost : Nat) :
    Charged l (rootOf l ts cost) ∧ (rootOf l ts cost).info.errorCost = costOf ts := by
  have hu : u ∈ ts.filter fun t => !t.info.extra := by simp [hstart]
  have hu := hts u (List.mem_filter.mp hu).1
  have herror := isNonterminal_errorSymbol hg
  have hne : u.symbol ≠ errorSymbol := by
    intro he
    rw [← hs, he, herror] at hn
    contradiction
  have hmissing : u.info.missing = false := by
    rw [← Bool.not_eq_true]
    intro hm
    rw [← hs, hu.isTerminal hm] at hn
    contradiction
  have hcost : u.info.errorCost = costOf (u.children.map Child.node) :=
    hu.priced.here.cost ⟨hne, hmissing⟩
  unfold rootOf
  simp only [hstart]
  rw [if_pos hs]
  have hchildren : ∀ c ∈ ts.flatMap fun t => if t.info.extra then [⟨none, t⟩] else t.children,
      Charged l c.node := by
    intro c hc
    obtain ⟨t, ht, hc⟩ := List.mem_flatMap.mp hc
    split at hc
    · rw [List.mem_singleton.mp hc]
      exact (hts t ht).toCharged
    · rename_i hx
      have hsymbol : t.symbol ≠ errorSymbol := by
        refine isError_eq_false_iff.mp ?_
        rw [← Bool.not_eq_true]
        exact fun he => hx ((hts t ht).isExtra he)
      exact ⟨(hts t ht).priced.child hc, (hts t ht).priced.here.error hsymbol c hc⟩
  have hsum := sum_unrooted (fun t => t.info.errorCost) hstart
  rw [hcost, costOf, List.map_map] at hsum
  have hcosts : costOf ((ts.flatMap fun t =>
      if t.info.extra then [⟨none, t⟩] else t.children).map Child.node) = costOf ts := by
    rw [costOf, List.map_map]
    exact Nat.add_right_cancel hsum
  rw [← hcosts]
  exact charged_node herror hne rfl hchildren

/-- What is accepted costs what the hypothesis did. -/
theorem Version.Priced.root (hg : l.Sound g) (hs : v.Sound g l Spans text) (h : v.Priced l size)
    (hp : v.pending = []) (ha : .accept ∈ actionsFor l v.state t) :
    Charged l (rootOf l v.nodes v.errorCost) ∧
      (rootOf l v.nodes v.errorCost).info.errorCost = v.errorCost := by
  obtain ⟨start, hstart, hsymbol, -⟩ := (hs.fit hg t).accept ha
  have ha := mem_actions_of_accept ha
  rw [Version.state, ← hs.stacked.lastState] at ha
  obtain ⟨hrule, -⟩ := hg.accept hs.stacked.path ha
  obtain ⟨hroot, hcost⟩ := charged_rootOf hg h.nodes hstart hsymbol
    (by rw [hg.startSymbol, hrule]) v.errorCost
  refine ⟨hroot, ?_⟩
  rw [hcost, h.cost, h.idle hp, Nat.add_zero]

/-- An outcome is priced, and one that was accepted costs what its hypothesis did. -/
structure Finished.Priced (l : Language) (f : Finished) : Prop where
  root : Everywhere (Subtree.Priced l) f.root
  cost : f.root.isError = false → f.root.info.errorCost = f.errorCost

theorem Version.Priced.givenUp (hg : l.Sound g) (h : v.Priced l size) :
    (v.givenUp l).Priced l :=
  ⟨(priced_error (isNonterminal_errorSymbol hg) h.everywhere 0 recoveryCost).1, by rintro ⟨⟩⟩

theorem Halts.priced (hg : l.Sound g) (hs : v.Sound g l Spans text) (h : v.Priced l size)
    {events : List Event} {f : Finished} (he : Halts l v t events f) : f.Priced l := by
  cases he with
  | accept hp ha =>
    obtain ⟨hroot, hcost⟩ := h.root hg hs hp ha
    exact ⟨hroot.priced, fun _ => hcost⟩
  | noRecovery _ => exact h.givenUp hg
  | limit _ _ => exact h.givenUp hg

theorem Ends.priced (hg : l.Sound g) (hs : v.Sound g l Spans text) (h : v.Priced l size)
    {events : List Event} {f : Finished} (he : Ends l v t events f) : f.Priced l := by
  cases he with
  | now he => exact he.priced hg hs h
  | flush _ _ he => exact he.priced hg (hs.flush hg) (h.flush hg)

theorem priced_partialTree (hg : l.Sound g)
    (h : ∀ v ∈ r.versions, v.halted = false → v.Priced l size) :
    Everywhere (Subtree.Priced l) (r.partialTree l).root := by
  have herror := isNonterminal_errorSymbol hg
  unfold Run.partialTree
  simp only
  split
  · rename_i v hv
    obtain ⟨hmem, hlive⟩ := List.mem_filter.mp (mem_of_firstBest? hv)
    exact (priced_error herror (h v hmem (by simpa using hlive)).everywhere 0 0).1
  · exact (priced_error herror (by simp) 0 0).1

/-! ## Parses -/

theorem priced_startRun (hold : ∀ t, old = some t → t.language.sameAs l = true →
      Kept (fun _ t => Everywhere (Subtree.Priced l) t) 0 t.root) :
    ∀ v ∈ (l.startRun text old).versions, v.Priced l text.size := by
  rw [Language.versions_startRun]
  intro v hv
  rw [List.mem_singleton.mp hv]
  refine ⟨rfl, by simp [Version.nodes], by simp, fun _ => rfl, by simp, by rintro u ⟨⟩,
    fun o ho => ?_⟩
  simp only [Option.map_eq_some_iff, Option.filter_eq_some_iff] at ho
  obtain ⟨root, ⟨t, ⟨ht, husable⟩, rfl⟩, rfl⟩ := ho
  rw [← Tree.lenBytes_of_isUsable husable]
  exact OldTree.ofRoot_sound (hold t ht (Tree.sameAs_of_isUsable husable))

/-- At any time every live hypothesis costs what it has, and so do outcomes. -/
theorem Run.Reached.priced (hg : l.Sound g) (hold : ∀ t, old = some t → l.Obtained t)
    (hpriced : ∀ t, old = some t → t.language.sameAs l = true →
      Everywhere (Subtree.Priced l) t.root) (hr : r.Reached l text old) :
    (∀ v ∈ r.versions, v.halted = false → v.Priced l text.size) ∧
      ∀ f ∈ r.finished, f.Priced l :=
  hr.invariant hg (covers_anyText text) (fun t ht hl => (hold t ht).kept hg hl)
    (priced_startRun fun t ht hl => ((hold t ht).kept hg hl).of_everywhere (hpriced t ht hl))
    (fun _ _ _ _ h hf => hf.priced hg h) (fun _ _ _ hs hl h hn => hn.priced hg hs h hl)
    fun _ _ _ _ hs _ h he => he.priced hg hs h

end Glr.Parse

namespace Glr

open Parse Subtree

variable {g : FlatGrammar} {l : Language} {old : Option Tree} {t : Tree} {r : Run}

/-- A parse takes over and keeps what nodes cost. -/
theorem Language.priced_parse (hg : l.Sound g) (hold : ∀ t, old = some t → l.Obtained t)
    (hpriced : ∀ t, old = some t → t.language.sameAs l = true → Everywhere (Priced l) t.root)
    (limits : Limits) (text : Bytes) :
    Everywhere (Priced l) (l.parse limits text old).1.root := by
  rw [Language.tree_parse]
  have hstart : Run.Reached l text old (l.startRun text old) := .start
  obtain ⟨r, hr, htree⟩ := hstart.exists_tree limits (Run.stepBound text)
  obtain ⟨hversions, hfinished⟩ := hr.priced hg hold hpriced
  rcases htree with ⟨f, hf, htree⟩ | htree
  · rw [htree]
    exact (hfinished f hf).root
  · rw [htree]
    exact priced_partialTree hg hversions

/-- However a tree of a language came about, its nodes cost what they should. -/
theorem Language.Obtained.priced (hg : l.Sound g) (h : l.Obtained t)
    (hl : t.language.sameAs l = true) : Everywhere (Priced l) t.root :=
  h.everywhere (fun _ _ => priced_shape_iff)
    (fun limits text _ hold hpriced => Language.priced_parse hg hold hpriced limits text) hl

/-- A hypothesis is ranked by the cost that is stored in its nodes and of what it skips at the
moment; it is zero exactly if nothing is skipped and no node is an error, and what is accepted
has it as the cost of its root. -/
theorem Language.costs_accounted {handle : Nat} {grammar : Grammar} {scanner : Option Scanner}
    (h : Language.ofGrammar handle grammar scanner = .ok l) (text : Bytes)
    (hold : ∀ t, old = some t → l.Obtained t) (hr : r.Reached l text old) :
    (∀ v ∈ r.versions, v.halted = false → v.errorCost = costOf v.nodes + v.pendingCost ∧
      (v.errorCost = 0 ↔ v.pending = [] ∧ ∀ t ∈ v.nodes, Everywhere Faultless t)) ∧
    (∀ w t, r.Applies l text w t .accept →
      (rootOf l w.nodes w.errorCost).info.errorCost = w.errorCost) ∧
    ∀ f ∈ r.finished, f.root.isError = false → f.root.info.errorCost = f.errorCost := by
  obtain ⟨g, -, hg⟩ := Language.ofGrammar_sound h
  obtain ⟨hversions, hfinished⟩ := hr.priced hg hold fun t ht hl => (hold t ht).priced hg hl
  have hc := covers_anyText text
  have hsound := hr.sound hg hc fun t ht hl => (hold t ht).kept hg hl
  refine ⟨fun v hv hlive => ?_, fun w t happlies => ?_, fun f hf => (hfinished f hf).cost⟩
  · have hv := hversions v hv hlive
    exact ⟨hv.cost, hv.cost_eq_zero_iff⟩
  · obtain ⟨i, v, v', hn, hv, hf, hw, ha⟩ := happlies.fetched
    obtain ⟨u, hu, hlive⟩ := next?_eq_some hn
    obtain rfl := Option.some.inj (hv.symm.trans hu)
    have hmem := List.mem_of_getElem? hv
    have hv' := (hf.sound hg hc (hsound.versions v hmem hlive)).1
    have hpriced := hf.priced hg (hversions v hmem hlive)
    have hw' : w.Sound g l AnyText text ∧ w.Priced l text.size := by
      rcases hw with rfl | rfl
      · exact ⟨hv', hpriced⟩
      · exact ⟨hv'.flush hg, hpriced.flush hg⟩
    exact (hw'.2.root hg hw'.1 happlies.pending ha).2

set_option maxRecDepth 100000 in
theorem Language.costs_accounted_hollow : ∃ (l : Language) (r : Run) (v : Version),
    Language.ofGrammar 0 .hollow none = .ok l ∧ r.Reached l (Bytes.ofString "a?d") none ∧
    v ∈ r.versions ∧ v.pending ≠ [] ∧ v.errorCost = 601 ∧
    costOf v.nodes + v.pendingCost = 601 := by
  have hrun : (Language.ofGrammar 0 .hollow none).toOption.any (fun l =>
      ((Run.turn l (Bytes.ofString "a?d"))^[2] (l.startRun (Bytes.ofString "a?d") none)).versions.any
        fun v => !v.halted && !v.pending.isEmpty && v.errorCost == 601) = true := by
    decide +kernel
  obtain ⟨l, hl, hrun⟩ := exists_ok hrun
  simp only [Bool.and_eq_true, List.any_eq_true, Bool.not_eq_true', beq_iff_eq] at hrun
  obtain ⟨v, hv, ⟨hlive, hpending⟩, hcost⟩ := hrun
  have hr : Run.Reached l (Bytes.ofString "a?d") none _ := Run.Reached.start.turns 2
  obtain ⟨hversions, -⟩ := Language.costs_accounted hl (Bytes.ofString "a?d") (by simp) hr
  refine ⟨l, _, v, hl, hr, hv, List.isEmpty_eq_false_iff.mp hpending, hcost, ?_⟩
  rw [← (hversions v hv hlive).1, hcost]

end Glr
