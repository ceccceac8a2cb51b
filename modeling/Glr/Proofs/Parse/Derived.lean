import Glr.Proofs.Reached
import Glr.Proofs.Tree.Shown

/-!
# Glr.Proofs.Parse.Derived

The derivations that a parse without a previous tree has found.  At any time the nodes of
a hypothesis show some derivations of the grammar, one for every symbol of its path:

```
shift   d …          ↦  d …  token
reduce  d …  d₁ d₂   ↦  d …  node p [d₁, d₂]
error   d …  d₁ d₂   ↦  d …
```

What is accepted shows a derivation of the start symbol, and exactly if there is no error.
-/

namespace Glr.Parse

open Subtree Run
open Version (stateOf)

variable {g : FlatGrammar} {l : Language} {Spans : Nat → Length → Prop} {text : Bytes}
  {v w : Version} {t : Subtree} {ts : List Subtree}

/-- A token from the text. -/
structure Token (l : Language) (t : Subtree) : Prop extends Plain l t.info where
  leaf : t.children = []
  terminal : l.isNonterminal t.symbol = false

/-- The nodes of a hypothesis show derivations of the grammar, and it has found its tokens
in the text. -/
structure Version.Derived (g : FlatGrammar) (l : Language) (v : Version) : Prop where
  nodes : ∃ ds, (∀ d ∈ ds, d.Valid g) ∧ Built g l ds v.nodes
  pending : ∀ t ∈ v.pending, t.info.extra = true → ExtraLeaf g t
  cost : v.pending ≠ [] → v.pendingCost ≠ 0
  lookahead : ∀ t, v.lookahead = some t → Token l t
  old : v.old = none

/-! ## Finding the token -/

theorem Fetched.derived (hg : l.Sound g) (h : v.Derived g l) (hf : Fetched l text v t w) :
    w.Derived g l := by
  cases hf with
  | kept _ => exact h
  | reused _ ho =>
    rw [h.old] at ho
    contradiction
  | @lexed old _ ho =>
    have htoken := tokenAt_token text (v.site l) hg
    refine ⟨h.nodes, h.pending, h.cost, ?_, ?_⟩
    · rintro u hu
      obtain rfl := Option.some.inj hu
      exact ⟨htoken.plain, htoken.leaf, htoken.terminal⟩
    · cases ho with
      | not => exact h.old
      | inVain ho =>
        rw [h.old] at ho
        contradiction

/-! ## Taking tokens -/

theorem isToken_of_mem_actionsFor (hg : l.Sound g) {q next : StateId} (ht : Token l t)
    (h : .shift next ∈ actionsFor l q t) : IsToken g.symbols t.symbol := by
  rw [actionsFor, if_neg (by simp [ht.terminal])] at h
  exact hg.isToken_of_shift h

theorem mem_extras_of_isShiftableExtra (hg : l.Sound g) (h : isShiftableExtra l t = true) :
    t.symbol ∈ g.extras := by
  simp only [isShiftableExtra, Bool.and_eq_true, Language.isExtra, hg.extras,
    List.contains_iff_mem] at h
  exact h.2.2

/-- A token that is taken is a leaf of a derivation. -/
theorem Version.built_shift (ht : Token l t) (htoken : IsToken g.symbols t.symbol)
    {ds : List Derivation} (hbuilt : Built g l ds v.nodes) (next : StateId) :
    Built g l (ds ++ [.token t.symbol]) (v.shift next t false).nodes := by
  rw [show (v.shift next t false).nodes = v.nodes ++ [(t.withParseState v.state).withExtra false]
    from Version.nodes_push v _ _]
  obtain ⟨i, cs⟩ := t
  obtain rfl : cs = [] := ht.leaf
  have hleaf : TokenLeaf g l (((Subtree.mk i []).withParseState v.state).withExtra false).info :=
    ⟨⟨rfl, ht.missing, ht.visible, ht.named⟩, htoken⟩
  exact hbuilt.append (Shown.token (LeafOrMissing.token hleaf) .nil)

/-- A token that may stand anywhere shows nothing. -/
theorem Version.built_shiftExtra (ht : Token l t) (hextra : t.symbol ∈ g.extras)
    {ds : List Derivation} (hbuilt : Built g l ds v.nodes) (next : StateId) :
    Built g l ds (v.shift next t true).nodes := by
  rw [show (v.shift next t true).nodes = v.nodes ++ [(t.withParseState v.state).withExtra true]
    from Version.nodes_push v _ _, ← List.append_nil ds]
  obtain ⟨i, cs⟩ := t
  obtain rfl : cs = [] := ht.leaf
  have hx : ExtraLeaf g (((Subtree.mk i []).withParseState v.state).withExtra true) :=
    ⟨rfl, hextra, rfl, ht.missing⟩
  exact hbuilt.append (.extra (.token hx) .nil)

/-- A token that is taken keeps what the nodes derive. -/
theorem Version.Derived.shift (h : v.Derived g l) (hl : v.lookahead = some t) {next : StateId}
    {x : Bool} (htoken : x = false → IsToken g.symbols t.symbol)
    (hextra : x = true → t.symbol ∈ g.extras) : (v.shift next t x).Derived g l := by
  obtain ⟨ds, hds, hbuilt⟩ := h.nodes
  have ht := h.lookahead t hl
  refine ⟨?_, h.pending, h.cost, by rintro u ⟨⟩, h.old⟩
  cases x with
  | true => exact ⟨ds, hds, Version.built_shiftExtra ht (hextra rfl) hbuilt next⟩
  | false =>
    refine ⟨_, fun d hd => ?_, Version.built_shift ht (htoken rfl) hbuilt next⟩
    rcases List.mem_append.mp hd with hd | hd
    · exact hds d hd
    · rw [List.mem_singleton.mp hd]
      exact .token (htoken rfl)

/-! ## Reductions -/

/-- The derivations of the nodes of a production make one of its left-hand side, at the same
cost. -/
theorem Version.built_reduce (hg : l.Sound g) (hs : Stacked g l v.stack) {ds : List Derivation}
    (hds : ∀ d ∈ ds, d.Valid g) (hbuilt : Built g l ds v.nodes) {p : ProductionId} {a : Symbol}
    (ha : .reduce p ∈ l.actions v.state a) {n : Nat} {info : ProductionInfo} {fragile : Bool}
    (hinfo : l.production? p = some info)
    (hw : Version.reduce l { v with reductions := n } info fragile t = .ok w) :
    ∃ prod before below, g.productions[p]? = some prod ∧ ds = before ++ below ∧
      below.map Derivation.symbol = prod.rhs ∧
      Built g l (before ++ [.node prod below]) w.nodes ∧ costOf w.nodes = costOf v.nodes := by
  obtain ⟨prod, front, ts, extras, spec, hprod, hnodes, hparted, hfills, hspec, hcost, -, -,
    hw'⟩ := hs.nodes_reduced hg ha hinfo hw
  rw [hnodes] at hbuilt
  obtain ⟨before, ds, rfl, hbefore, hbuilt⟩ := hbuilt.of_append
  obtain ⟨below, after, rfl, hbelow, hafter⟩ := hbuilt.of_append
  -- the derivations of the nodes that are taken are those of the right-hand side
  have hrhs : below.map Derivation.symbol = prod.rhs :=
    (Built.map_symbol hbelow).trans hfills.map_filter
  have hdressed : Dressed l prod.steps ts (dress l prod.info.fields prod.info.labels ts) := by
    refine dressed_dress ?_
    rw [hfills.length_filter, Production.rhs, List.length_map]
  -- what is above them shows nothing
  obtain rfl : after = [] := by
    have hmap := Built.map_symbol hafter
    rw [List.filter_eq_nil_iff.mpr fun u hu => by simp [hparted.after u hu]] at hmap
    exact List.map_eq_nil_iff.mp hmap
  have hkeeps := Built.keeps hg (fun d hd => hds d (by simp [hd])) hbelow
  have hlabels : ∀ st ∈ prod.steps, ∀ s, st.label = some s → IsShown g.symbols s :=
    fun st hst => ((hg.grammar.productions prod (Array.mem_of_getElem? hprod)).steps st hst).label
  obtain ⟨hkeeps, hsum⟩ := hdressed.keeps hg hlabels hkeeps
  refine ⟨prod, before, below, hprod, by simp, hrhs, ?_, ?_⟩
  · rw [hw']
    exact hbefore.append (.node hspec hcost hbelow hdressed hafter)
  · rw [hw', hnodes]
    simp only [costOf_append, costOf_cons, errorCost_node_of_keeps hkeeps, hcost, hsum,
      Nat.zero_add]

/-- A reduction keeps what the nodes derive. -/
theorem Version.Derived.reduce (hg : l.Sound g) (hs : Stacked g l v.stack) (h : v.Derived g l)
    {p : ProductionId} {a : Symbol} (ha : .reduce p ∈ l.actions v.state a) {n : Nat}
    {info : ProductionInfo} {fragile : Bool} (hinfo : l.production? p = some info)
    (hw : Version.reduce l { v with reductions := n } info fragile t = .ok w) :
    w.Derived g l := by
  obtain ⟨ds, hds, hbuilt⟩ := h.nodes
  obtain ⟨prod, before, below, hprod, rfl, hrhs, hbuilt, -⟩ :=
    Version.built_reduce hg hs hds hbuilt ha hinfo hw
  obtain ⟨stack, external, precedence, rfl⟩ := Version.reduce_eq hw
  refine ⟨⟨_, fun d hd => ?_, hbuilt⟩, h.pending, h.cost, h.lookahead, h.old⟩
  rcases List.mem_append.mp hd with hd | hd
  · exact hds d (by simp [hd])
  · rw [List.mem_singleton.mp hd]
    exact .node (Array.mem_of_getElem? hprod) hrhs fun d hd => hds d (by simp [hd])

/-! ## Errors -/

/-- An error node that costs something is an extra. -/
theorem extraOrError_error (state : StateId) {cost : Nat} (hc : cost ≠ 0) :
    ExtraOrError g ((Subtree.error l state cost ts).withExtra true) := by
  refine .error rfl rfl ?_
  show cost + _ ≠ 0
  omega

/-- A token that is put in stands for its symbol. -/
theorem Version.Derived.inserted (hg : l.Sound g) (h : v.Derived g l) {s : Symbol} {next : StateId}
    (ha : .shift next ∈ l.actions v.state s) : (v.inserted l s next).Derived g l := by
  have htoken := hg.isToken_of_shift ha
  obtain ⟨ds, hds, hbuilt⟩ := h.nodes
  refine ⟨⟨ds ++ [.token s], fun d hd => ?_, ?_⟩, h.pending, h.cost, h.lookahead, h.old⟩
  · rcases List.mem_append.mp hd with hd | hd
    · exact hds d hd
    · rw [List.mem_singleton.mp hd]
      exact .token htoken
  · show Built g l _ (Version.push v _ _).nodes
    rw [Version.nodes_push]
    have hleaf : LeafOrMissing g l (Subtree.missing l s v.state missingCost).info :=
      .missing htoken rfl (show missingCost ≠ 0 by decide)
    exact hbuilt.append (Shown.token hleaf .nil)

/-- The derivations of nodes that are given up are given up. -/
theorem Version.Derived.reset (h : v.Derived g l) {taken stack : List Entry}
    (hstack : v.stack = taken ++ stack) {cost : Nat} (hcost : recoveryCost ≤ cost) :
    (v.reset l (taken.map Entry.node).reverse stack cost).Derived g l := by
  obtain ⟨ds, hds, hbuilt⟩ := h.nodes
  rw [nodes_eq, hstack, List.map_append, List.reverse_append] at hbuilt
  obtain ⟨before, after, rfl, hbefore, -⟩ := hbuilt.of_append
  refine ⟨⟨before, fun d hd => hds d (by simp [hd]), ?_⟩, by rintro u ⟨⟩,
    fun hp => absurd rfl hp, h.lookahead, h.old⟩
  show Built g l _ (Version.push _ _ _).nodes
  rw [Version.nodes_push, ← List.append_nil before]
  refine hbefore.append (.extra (extraOrError_error _ ?_) .nil)
  rw [recoveryCost] at hcost
  omega

theorem Version.Derived.skip (h : v.Derived g l) (hl : v.lookahead = some t) :
    (v.skip t).Derived g l := by
  have hcost : (v.skip t).pendingCost ≠ 0 := by
    simp only [Version.skip, skippedCost]
    omega
  refine ⟨h.nodes, fun u hu hx => ?_, fun _ => hcost, by rintro u ⟨⟩, h.old⟩
  rcases List.mem_append.mp hu with hu | hu
  · exact h.pending u hu hx
  · rw [List.mem_singleton.mp hu, (h.lookahead t hl).extra] at hx
    contradiction

theorem Version.Derived.skipExtra (hg : l.Sound g) (h : v.Derived g l) (hp : v.pending ≠ [])
    (hl : v.lookahead = some t) (he : isShiftableExtra l t = true) :
    (v.skipExtra t).Derived g l := by
  have ht := h.lookahead t hl
  refine ⟨h.nodes, fun u hu hx => ?_, fun _ => h.cost hp, by rintro u ⟨⟩, h.old⟩
  rcases List.mem_append.mp hu with hu | hu
  · exact h.pending u hu hx
  · rw [List.mem_singleton.mp hu]
    exact ⟨ht.leaf, mem_extras_of_isShiftableExtra hg he, rfl, ht.missing⟩

/-- Every way on from an error keeps the derivations that are left. -/
theorem Version.Derived.recoveries (hg : l.Sound g) (h : v.Derived g l)
    (hl : v.lookahead = some t) (hw : w ∈ v.recoveries l t) : w.Derived g l := by
  cases Recovers.of_mem hw with
  | insert _ _ _ ha => exact h.inserted hg ha
  | reset _ hstack hcost => exact h.reset hstack hcost
  | skip => exact h.skip hl

/-- What was skipped becomes extras. -/
theorem Version.Derived.flush (h : v.Derived g l) : (v.flush l).Derived g l := by
  have hparts := splitAfterLast_append (fun t : Subtree => !t.info.extra) v.pending
  have htrailing (u : Subtree) (hu : u ∈ (splitAfterLast (fun t : Subtree => !t.info.extra)
      v.pending).2) : ExtraOrError g u := by
    have hx : u.info.extra = true := by simpa using eq_false_of_mem_splitAfterLast hu
    exact .token (h.pending u (by rw [← hparts]; simp [hu]) hx)
  have hskipped (hne : (splitAfterLast (fun t : Subtree => !t.info.extra) v.pending).1 ≠ []) :
      v.pendingCost ≠ 0 := by
    refine h.cost fun hnil => hne ?_
    exact (List.append_eq_nil_iff.mp (hparts.trans hnil)).1
  unfold Version.flush
  simp only
  generalize splitAfterLast (fun t : Subtree => !t.info.extra) v.pending = parts at htrailing hskipped
  obtain ⟨skipped, trailing⟩ := parts
  simp only at htrailing hskipped ⊢
  generalize hts : (if skipped.isEmpty = true then [] else _) ++ trailing = ts
  have hextras (u : Subtree) (hu : u ∈ ts) : ExtraOrError g u := by
    rw [← hts] at hu
    rcases List.mem_append.mp hu with hu | hu
    · split at hu
      · contradiction
      · rename_i hne
        rw [List.mem_singleton.mp hu]
        exact extraOrError_error _ (hskipped (by simpa using hne))
    · exact htrailing u hu
  obtain ⟨ds, hds, hbuilt⟩ := h.nodes
  have hnodes := Version.nodes_pushAll { v with pending := [], pendingCost := 0 } v.state ts
  obtain ⟨stack, external, hpush⟩ :=
    Version.pushAll_eq { v with pending := [], pendingCost := 0 } v.state ts
  rw [hpush] at hnodes ⊢
  refine ⟨⟨ds, hds, ?_⟩, by simp, by simp, h.lookahead, h.old⟩
  rw [← List.append_nil ds]
  exact hnodes ▸ hbuilt.append (.of_extras hextras)

/-! ## Steps -/

theorem Acts.derived (hg : l.Sound g) (hs : Stacked g l v.stack) (h : v.Derived g l)
    (hl : v.lookahead = some t) (ha : Acts l v t w) : w.Derived g l := by
  cases ha with
  | shift ha =>
    exact h.shift hl (fun _ => isToken_of_mem_actionsFor hg (h.lookahead t hl) ha) fun hx => by
      contradiction
  | reduce ha hinfo _ hw => exact h.reduce hg hs (mem_actions_of_reduce ha) hinfo hw
  | shiftExtra _ he =>
    exact h.shift hl (fun hx => by contradiction) fun _ => mem_extras_of_isShiftableExtra hg he
  | drop => exact ⟨h.nodes, h.pending, h.cost, by rintro u ⟨⟩, rfl⟩
  | recover _ hw => exact h.recoveries hg hl hw

/-- Every way on keeps derivations. -/
theorem Next.derived (hg : l.Sound g) (hs : v.Sound g l Spans text) (h : v.Derived g l)
    (hl : v.lookahead = some t) (hn : Next l v t w) : w.Derived g l := by
  cases hn with
  | act _ ha => exact ha.derived hg hs.stacked h hl
  | flush _ _ ha =>
    obtain ⟨_, _, hflush⟩ := Version.flush_eq (l := l) v
    exact ha.derived hg (hs.flush hg).stacked h.flush (by rw [hflush]; exact hl)
  | skipExtra hp he => exact h.skipExtra hg hp hl he
  | recover _ hw => exact h.recoveries hg hl hw

/-! ## Roots -/

/-- Children that are all shown stay as they are. -/
theorem spliceAll_eq_self {cs : List (Child Subtree)}
    (h : ∀ c ∈ cs, isHidden l c.node = false) : spliceAll l none [] cs = cs := by
  induction cs with
  | nil => rfl
  | cons c cs ih =>
    obtain ⟨field, ⟨info, children⟩⟩ := c
    have hc : isHidden l (.mk info children) = false := h ⟨field, .mk info children⟩ (by simp)
    rw [spliceAll, ih fun c hc => h c (by simp [hc]), splice, if_neg (by simp [hc]), Option.or_none]

/-- Making a node of the children of a node is making it of what that was made of. -/
theorem node_append_children {spec spec' : Spec} (hs : spec'.symbol = spec.symbol)
    (before cs after : List (Child Subtree)) :
    Subtree.node l spec' (before ++ ((Subtree.node l spec cs).children ++ after))
      = Subtree.node l spec' (before ++ (cs ++ after)) := by
  by_cases hv : l.isVisible spec.symbol = true
  · have hcs : (Subtree.node l spec cs).children = spliceAll l none [] cs := by
      simp [Subtree.node, hv, Subtree.children]
    have hself := spliceAll_eq_self (isHidden_eq_false_of_mem_spliceAll l none cs)
    have hall : spliceAll l none [] (before ++ (spliceAll l none [] cs ++ after))
        = spliceAll l none [] (before ++ (cs ++ after)) := by
      rw [spliceAll_append, spliceAll_append, hself, spliceAll_append, spliceAll_append]
    simp only [Subtree.node, hs, hv, if_true, Subtree.children, hall]
  · have hcs : (Subtree.node l spec cs).children = cs := by
      simp [Subtree.node, hv, Subtree.children]
    rw [hcs]

/-- The root over nodes that show a derivation of the start symbol shows it, the extras
around among its children, and costs what they cost. -/
theorem built_rootOf (hg : l.Sound g) {p : Production} {below : List Derivation}
    {nodes : List Subtree} (cost : Nat) (hvalid : (Derivation.node p below).Valid g)
    (h : Built g l [.node p below] nodes) (hstart : p.lhs = l.table.startSymbol) :
    Built g l [.node p below] [rootOf l nodes cost] ∧
      (rootOf l nodes cost).info.errorCost = costOf nodes := by
  obtain ⟨before, start, after, rfl, hbefore, hx, hshown, hafter⟩ := Built.singleton h
  have hfilter (us : List Subtree) (hus : ∀ u ∈ us, ExtraOrError g u) :
      us.filter (fun t => !t.info.extra) = [] :=
    List.filter_eq_nil_iff.mpr fun u hu => by simp [(hus u hu).extra]
  have hflat (us : List Subtree) (hus : ∀ u ∈ us, ExtraOrError g u) :
      us.flatMap (fun t => if t.info.extra then [⟨none, t⟩] else t.children)
        = us.map fun u => (⟨none, u⟩ : Child Subtree) := by
    induction us with
    | nil => rfl
    | cons u us ih =>
      rw [List.flatMap_cons, ih fun u hu => hus u (by simp [hu]), if_pos (hus u (by simp)).extra]
      rfl
  have honly : (before ++ start :: after).filter (fun t => !t.info.extra) = [start] := by
    rw [List.filter_append, List.filter_cons, hfilter before hbefore, hfilter after hafter]
    simp [hx]
  obtain ⟨hvalids, hlabels⟩ := valid_below hg hvalid
  unfold rootOf
  simp only [honly]
  cases hshown with
  | extra hx' => simp [hx'.extra] at hx
  | @node _ _ nodes cs spec _ _ hs hc hbelow hcs _ =>
    have hsymbol : (Subtree.node l spec cs).symbol = spec.symbol := rfl
    rw [if_pos (by rw [hsymbol, hs, hstart]), List.flatMap_append, List.flatMap_cons,
      hflat before hbefore, hflat after hafter, if_neg (by simp [hx]), node_append_children]
    swap
    · exact hsymbol
    have hall : Built g l below (before ++ (nodes ++ after)) := by
      have hall := (Shown.of_extras hbefore).append (hbelow.append (.of_extras hafter))
      rwa [List.append_nil, List.nil_append] at hall
    have hdressed := hcs.append_extras fun u hu => (hafter u hu).extra
    have hdressed := hdressed.extras_append fun u hu => (hbefore u hu).extra
    refine ⟨.node (hsymbol.trans hs) rfl hall hdressed .nil, ?_⟩
    -- hidden nodes keep their costs, below the node as below the root
    obtain ⟨hkeeps, hsum⟩ := hdressed.keeps hg hlabels (Built.keeps hg hvalids hall)
    obtain ⟨hkeeps', hsum'⟩ := hcs.keeps hg hlabels (Built.keeps hg hvalids hbelow)
    rw [errorCost_node_of_keeps hkeeps, hsum]
    simp only [costOf_append, costOf_cons, errorCost_node_of_keeps hkeeps', hsum', hc,
      Nat.zero_add]

/-- What is accepted shows one derivation, and that is one of the start symbol. -/
theorem built_root_of_accept (hg : l.Sound g) (hs : Stacked g l v.stack) {ds : List Derivation}
    (hds : ∀ d ∈ ds, d.Valid g) (hbuilt : Built g l ds v.nodes)
    (ha : .accept ∈ actionsFor l v.state t) :
    ∃ d, ds = [d] ∧ d.symbol = g.start ∧ Built g l [d] [rootOf l v.nodes v.errorCost] ∧
      (rootOf l v.nodes v.errorCost).info.errorCost = costOf v.nodes := by
  have ha := mem_actions_of_accept ha
  rw [Version.state, ← hs.lastState] at ha
  obtain ⟨hrule, q, hpath⟩ := hg.accept hs.path ha
  have hsymbols : ds.map Derivation.symbol = [g.start] := by
    have hmap := hs.fills.map_filter
    rw [hpath] at hmap
    exact (Built.map_symbol hbuilt).trans hmap
  obtain ⟨d, rfl, hd⟩ := List.map_eq_singleton_iff.mp hsymbols
  have hvalid := hds d (by simp)
  cases d with
  | token s =>
    cases hvalid with
    | token hs =>
      have hterm := hg.isNonterminal_eq_false (FlatGrammar.isTerminal_of_isToken hs)
      rw [← hd, show (Derivation.token s).symbol = s from rfl, hterm] at hrule
      contradiction
  | node p below =>
    exact ⟨_, rfl, hd, built_rootOf hg v.errorCost hvalid hbuilt (hd.trans hg.startSymbol.symm)⟩

/-! ## Outcomes -/

/-- An outcome without errors shows a derivation of the start symbol exactly. -/
def Finished.Derives (g : FlatGrammar) (l : Language) (f : Finished) : Prop :=
  f.root.hasError = false → ∃ d, d.Valid g ∧ d.symbol = g.start ∧ Clean g l [d] [f.root]

/-- A node without errors costs nothing. -/
theorem errorCost_eq_zero_of_hasError (h : t.hasError = false) : t.info.errorCost = 0 := by
  simp only [Subtree.hasError, Bool.or_eq_false_iff, decide_eq_false_iff_not] at h
  exact Nat.eq_zero_of_not_pos h.1.1

/-- An outcome that is given up has an error. -/
theorem hasError_givenUp (v : Version) : (v.givenUp l).root.hasError = true := by
  simp [Version.givenUp, Subtree.hasError, Subtree.isError, Subtree.error, Subtree.node,
    Subtree.symbol, Subtree.info]

theorem derives_givenUp (v : Version) : (v.givenUp l).Derives g l := by
  intro h
  rw [hasError_givenUp] at h
  contradiction

theorem Halts.derives (hg : l.Sound g) (hs : Stacked g l v.stack) (h : v.Derived g l)
    {events : List Event} {f : Finished} (he : Halts l v t events f) : f.Derives g l := by
  cases he with
  | accept _ ha =>
    intro hroot
    obtain ⟨ds, hds, hbuilt⟩ := h.nodes
    obtain ⟨d, rfl, hd, hbuilt, -⟩ := built_root_of_accept hg hs hds hbuilt ha
    refine ⟨d, hds d (by simp), hd, Built.clean hg hds hbuilt ?_⟩
    rw [costOf_cons, costOf_nil, Nat.add_zero]
    exact errorCost_eq_zero_of_hasError hroot
  | noRecovery _ => exact derives_givenUp v
  | limit _ _ => exact derives_givenUp v

theorem Ends.derives (hg : l.Sound g) (hs : v.Sound g l Spans text) (h : v.Derived g l)
    {events : List Event} {f : Finished} (he : Ends l v t events f) : f.Derives g l := by
  cases he with
  | now he => exact he.derives hg hs.stacked h
  | flush _ _ he => exact he.derives hg (hs.flush hg).stacked h.flush

/-- Every outcome of a parse without a previous tree shows what it derives. -/
theorem Run.Reached.derives (hg : l.Sound g) {r : Run} (h : r.Reached l text none) :
    ∀ f ∈ r.finished, f.Derives g l := by
  refine (h.invariant hg (covers_anyText text) (by simp) (P := Version.Derived g l) ?_
    (fun v t w _ hv hf => hf.derived hg hv) (fun v t w hs hl hv hn => hn.derived hg hs hv hl)
    fun v t es f hs _ hv he => he.derives hg hs hv).2
  intro v hv
  rw [Language.versions_startRun] at hv
  rw [List.mem_singleton.mp hv]
  exact ⟨⟨[], by simp, .nil⟩, by simp, by simp, by rintro u ⟨⟩, rfl⟩

end Glr.Parse

namespace Glr

/-! ## Trees without errors -/

open Parse

/-- A complete tree without errors is a derivation of the start symbol: its inner nodes are
those of the productions, with their fields and labels, hidden ones replaced by their
children, and extra tokens stand between its leaves. -/
theorem Language.exists_derivation {handle : Nat} {grammar : Grammar} {scanner : Option Scanner}
    {l : Language} (h : Language.ofGrammar handle grammar scanner = .ok l) (limits : Limits)
    (text : Bytes) {t : Tree} {events : List Event} (ht : l.parse limits text none = (t, events))
    (hcomplete : t.complete = true) (herror : t.hasError = false) :
    ∃ g, FlatGrammar.ofGrammar grammar = .ok g ∧
      ∃ d, d.Valid g ∧ d.symbol = g.start ∧ Clean g l [d] [t.root] := by
  obtain ⟨g, hflat, hg⟩ := Language.ofGrammar_sound h
  refine ⟨g, hflat, ?_⟩
  have htree := Language.tree_parse l limits text none
  rw [ht] at htree
  obtain rfl : t = _ := htree
  obtain ⟨r, hr, f, hf, hroot⟩ := Run.Reached.start.exists_finished limits _ hcomplete
  rw [hroot]
  refine hr.derives hg f hf ?_
  rw [← hroot]
  exact herror

set_option maxRecDepth 100000 in
theorem Language.exists_derivation_hollow : ∃ l g, Language.ofGrammar 0 .hollow none = .ok l ∧
    FlatGrammar.ofGrammar .hollow = .ok g ∧
    (l.parse {} (Bytes.ofString "ad") none).1.complete = true ∧
    (l.parse {} (Bytes.ofString "ad") none).1.hasError = false ∧
    ∃ d, d.Valid g ∧ d.symbol = g.start ∧
      Clean g l [d] [(l.parse {} (Bytes.ofString "ad") none).1.root] := by
  have hparse : (Language.ofGrammar 0 .hollow none).toOption.any (fun l =>
      (l.parse {} (Bytes.ofString "ad") none).1.complete
        && !(l.parse {} (Bytes.ofString "ad") none).1.hasError) = true := by
    decide +kernel
  obtain ⟨l, hl, ht⟩ := exists_ok hparse
  simp only [Bool.and_eq_true, Bool.not_eq_true'] at ht
  obtain ⟨hcomplete, herror⟩ := ht
  obtain ⟨g, hg, hd⟩ := Language.exists_derivation hl {} (Bytes.ofString "ad") (Prod.eta _).symm
    hcomplete herror
  exact ⟨l, g, hl, hg, hcomplete, herror, hd⟩

end Glr
