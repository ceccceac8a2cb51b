import Glr.Proofs.Parse.Priced

/-!
# Glr.Proofs.Parse.Weighed

What a hypothesis is ranked by among those that cost the same.  A reduction adds the dynamic
precedence of its production twice, to the hypothesis and to the new node:

```
precedence of a hypothesis  =  precedences of its nodes
precedence of a node        =  precedence of its production + precedences of its children
```

The two agree as long as nothing else moves precedence.  A hidden node that gives way to its
children takes the precedence of its production with it, so productions with precedence have to be
of visible nodes.  And a node of the previous tree comes with a precedence that no reduction of
this parse has added, so there must be none in that tree.
-/

namespace Glr

namespace Subtree

open Parse

/-! ## Nodes -/

/-- The dynamic precedences of some nodes together. -/
def weightOf (ts : List Subtree) : Int := (ts.map fun t => t.info.dynamicPrecedence).sum

/-- A node that gives way to its children has no precedence beside theirs. -/
def Weighed (l : Language) : LocalRule :=
  fun i cs => isHidden l (.mk i cs) = true → i.dynamicPrecedence = weightOf (cs.map Child.node)

/-- The node has no precedence. -/
def Weightless : LocalRule := fun i _ => i.dynamicPrecedence = 0

/-- What may come next in a text: it has no precedence. -/
structure Light (l : Language) (t : Subtree) : Prop where
  weighed : Everywhere (Weighed l) t
  weight : t.info.dynamicPrecedence = 0

variable {l : Language} {t u : Subtree} {ts us : List Subtree} {cs : List (Child Subtree)}
  {spec : Spec}

@[simp] theorem weightOf_nil : weightOf [] = 0 := rfl

@[simp] theorem weightOf_cons (t : Subtree) (ts : List Subtree) :
    weightOf (t :: ts) = t.info.dynamicPrecedence + weightOf ts := by
  simp [weightOf]

@[simp] theorem weightOf_append (ts us : List Subtree) :
    weightOf (ts ++ us) = weightOf ts + weightOf us := by
  simp [weightOf]

theorem weightOf_map_node (cs : List (Child Subtree)) :
    weightOf (cs.map Child.node) = (cs.map fun c => c.node.info.dynamicPrecedence).sum := by
  rw [weightOf, List.map_map]
  rfl

theorem weightOf_eq_zero (h : ∀ t ∈ ts, Light l t) : weightOf ts = 0 := by
  induction ts with
  | nil => rfl
  | cons t ts ih =>
    obtain ⟨ht, hts⟩ := List.forall_mem_cons.mp h
    rw [weightOf_cons, ht.weight, ih hts, Int.add_zero]

/-- Adding up from some precedence. -/
theorem foldl_dynamicPrecedence (cs : List (Child Subtree)) (n : Int) :
    cs.foldl (fun n c => n + c.node.info.dynamicPrecedence) n = n + weightOf (cs.map Child.node) := by
  induction cs generalizing n with
  | nil => exact (Int.add_zero n).symm
  | cons c cs ih => rw [List.foldl_cons, ih, List.map_cons, weightOf_cons, Int.add_assoc]

theorem dynamicPrecedence_sum (cs : List (Child Subtree)) :
    (Sum.of cs).dynamicPrecedence = weightOf (cs.map Child.node) := by
  have hfold (s : Sum) : (cs.foldl (fun s c => s.add c.node) s).dynamicPrecedence
      = cs.foldl (fun n c => n + c.node.info.dynamicPrecedence) s.dynamicPrecedence := by
    induction cs generalizing s with
    | nil => rfl
    | cons c cs ih => exact ih (s.add c.node)
  rw [Sum.of, hfold, foldl_dynamicPrecedence]
  exact Int.zero_add _

/-- Where there is no precedence at all there is none to lose. -/
theorem light_of_weightless (h : Everywhere Weightless t) : Light l t := by
  refine ⟨h.imp fun i cs hi hcs _ => ?_, h.here⟩
  have hzero : ∀ u ∈ cs.map Child.node, Light l u := by
    intro u hu
    obtain ⟨c, hc, rfl⟩ := List.mem_map.mp hu
    exact ⟨(hcs c hc).2, (hcs c hc).1.here⟩
  rw [weightOf_eq_zero hzero]
  exact hi

theorem weighed_leaf {i : NodeInfo} (hi : i.dynamicPrecedence = 0) : Light l (.mk i []) :=
  light_of_weightless (everywhere_mk.mpr ⟨hi, by simp⟩)

/-- What is stored beside the precedence matters for whether the node is hidden. -/
theorem weighed_withInfo (h : Everywhere (Weighed l) t) {f : NodeInfo → NodeInfo}
    (hf : (f t.info).dynamicPrecedence = t.info.dynamicPrecedence)
    (hv : isHidden l (t.withInfo f) = true → isHidden l t = true) :
    Everywhere (Weighed l) (t.withInfo f) := by
  obtain ⟨i, cs⟩ := t
  exact h.withInfo fun hi hidden => hf.trans (hi (hv hidden))

/-- A node has the precedence that it is made with and those of what it is made of. -/
theorem weight_node (h : ∀ c ∈ cs, Everywhere (Weighed l) c.node) :
    (node l spec cs).info.dynamicPrecedence =
      spec.dynamicPrecedence + weightOf (cs.map Child.node) := by
  have hstored : (node l spec cs).info.dynamicPrecedence = spec.dynamicPrecedence +
      weightOf ((node l spec cs).children.map Child.node) := by
    rw [← dynamicPrecedence_sum]
    rfl
  rw [hstored, weightOf_map_node, weightOf_map_node,
    sum_children_node (f := fun t => t.info.dynamicPrecedence) (fun i cs hi hidden => ?_) h]
  exact (hi hidden).trans (weightOf_map_node cs)

/-- A node that is made with a precedence keeps it where it is visible. -/
theorem weighed_node (hs : spec.dynamicPrecedence ≠ 0 → l.isVisible spec.symbol = true)
    (h : ∀ c ∈ cs, Everywhere (Weighed l) c.node) : Everywhere (Weighed l) (node l spec cs) := by
  refine everywhere_mk.mpr ⟨fun hidden => ?_,
    forall_children_node (fun _ _ _ hi _ hc => hi.child hc) h⟩
  have hzero : spec.dynamicPrecedence = 0 := by
    refine Classical.byContradiction fun hne => ?_
    have hv : (!l.isVisible spec.symbol && l.isNonterminal spec.symbol) = true := hidden
    rw [hs hne] at hv
    contradiction
  rw [← dynamicPrecedence_sum]
  exact (congrArg (· + _) hzero).trans (Int.zero_add _)

/-- An error node has the precedences of what it is made of. -/
theorem weighed_error (h : ∀ t ∈ ts, Everywhere (Weighed l) t) (state : StateId) (cost : Nat) :
    Everywhere (Weighed l) (error l state cost ts) ∧
      (error l state cost ts).info.dynamicPrecedence = weightOf ts := by
  have hts : ∀ c ∈ ts.map fun t => (⟨none, t⟩ : Child Subtree), Everywhere (Weighed l) c.node := by
    intro c hc
    obtain ⟨t, ht, rfl⟩ := List.mem_map.mp hc
    exact h t ht
  have hweight : (error l state cost ts).info.dynamicPrecedence = 0 + _ := weight_node hts
  rw [map_node_none, Int.zero_add] at hweight
  exact ⟨weighed_node (fun hne => absurd rfl hne) hts, hweight⟩

theorem weighed_withSymbol {s : Symbol} (hv : l.isVisible s = true)
    (h : Everywhere (Weighed l) t) : Everywhere (Weighed l) (t.withSymbol l s) := by
  unfold withSymbol
  split
  · exact h
  · refine weighed_withInfo h rfl fun hidden => ?_
    have hidden : (!l.isVisible s && l.isNonterminal s) = true := hidden
    rw [hv] at hidden
    contradiction

theorem weight_withSymbol (t : Subtree) (s : Symbol) :
    (t.withSymbol l s).info.dynamicPrecedence = t.info.dynamicPrecedence := by
  unfold withSymbol
  split <;> rfl

/-- The children of a production have the precedences of the nodes that they are made of. -/
theorem weighed_dress (fields : List (Option FieldId)) {labels : List (Option Symbol)}
    (hlabels : ∀ s, some s ∈ labels → l.isVisible s = true)
    (hts : ∀ t ∈ ts, Everywhere (Weighed l) t) :
    (∀ c ∈ dress l fields labels ts, Everywhere (Weighed l) c.node) ∧
      weightOf ((dress l fields labels ts).map Child.node) = weightOf ts := by
  induction ts generalizing fields labels with
  | nil => exact ⟨by simp [dress], rfl⟩
  | cons t ts ih =>
    obtain ⟨ht, hrest⟩ := List.forall_mem_cons.mp hts
    rw [dress]
    split
    · obtain ⟨hall, hweight⟩ := ih fields hlabels hrest
      exact ⟨List.forall_mem_cons.mpr ⟨ht, hall⟩, by
        rw [List.map_cons, weightOf_cons, hweight, weightOf_cons]⟩
    · obtain ⟨hall, hweight⟩ := ih fields.tail
        (fun s hs => hlabels s (List.mem_of_mem_tail hs)) hrest
      have hshown (s : Symbol) (hs : labels.head?.join = some s) :=
        hlabels s (List.mem_of_mem_head? (Option.join_eq_some_iff.mp hs))
      generalize labels.head?.join = label at hshown
      cases label with
      | none =>
        refine ⟨List.forall_mem_cons.mpr ⟨ht, hall⟩, ?_⟩
        rw [List.map_cons, weightOf_cons, hweight, weightOf_cons]
      | some s =>
        refine ⟨List.forall_mem_cons.mpr ⟨weighed_withSymbol (hshown s rfl) ht, hall⟩, ?_⟩
        rw [List.map_cons, weightOf_cons, hweight, weightOf_cons, weight_withSymbol]

/-- The root, be it over the start node or an error in its place, has the precedences of all that
is on the stack. -/
theorem weight_rootOf (h : ∀ t ∈ ts, Everywhere (Weighed l) t) (cost : Nat) :
    (rootOf l ts cost).info.dynamicPrecedence = weightOf ts := by
  unfold rootOf
  simp only
  split
  · rename_i start hstart
    split
    · have hchildren : ∀ c ∈ ts.flatMap fun t =>
          if t.info.extra then [⟨none, t⟩] else t.children, Everywhere (Weighed l) c.node := by
        intro c hc
        obtain ⟨t, ht, hc⟩ := List.mem_flatMap.mp hc
        split at hc
        · rw [List.mem_singleton.mp hc]
          exact h t ht
        · exact (h t ht).child hc
      have hsum := sum_unrooted (fun t => t.info.dynamicPrecedence) hstart
      rw [weight_node hchildren]
      show start.info.dynamicPrecedence - List.foldl _ 0 start.children + _ = _
      rw [foldl_dynamicPrecedence, weightOf_map_node, weightOf_map_node, weightOf]
      omega
    · exact (weighed_error h 0 cost).2
  · exact (weighed_error h 0 cost).2

end Subtree

/-- Only visible nodes are made with a precedence. -/
def Language.ShowsPrecedence (l : Language) : Prop :=
  ∀ info ∈ l.table.productions, info.dynamicPrecedence ≠ 0 → l.isVisible info.lhs = true

instance (l : Language) : Decidable l.ShowsPrecedence :=
  inferInstanceAs (Decidable (∀ info ∈ l.table.productions, _))

namespace Parse

open Subtree Run
open Version (stateOf)

variable {g : FlatGrammar} {l : Language} {Spans : Nat → Length → Prop} {text : Bytes}
  {old : Option Tree} {size : Nat} {v w : Version} {t u : Subtree} {ts : List Subtree} {r : Run}

/-! ## Hypotheses -/

/-- A hypothesis has the precedences of its nodes; what it skips has none. -/
structure Version.Weighed (l : Language) (size : Nat) (v : Version) : Prop where
  weight : v.dynamicPrecedence = weightOf v.nodes
  nodes : ∀ t ∈ v.nodes, Everywhere (Subtree.Weighed l) t
  pending : ∀ t ∈ v.pending, Light l t
  lookahead : ∀ t, v.lookahead = some t → Light l t
  old : ∀ o, v.old = some o → o.Sound (fun _ t => Everywhere Weightless t) size

theorem Version.Weighed.everywhere (h : v.Weighed l size) :
    ∀ t ∈ v.nodes ++ v.pending, Everywhere (Subtree.Weighed l) t := by
  intro t ht
  rcases List.mem_append.mp ht with ht | ht
  · exact h.nodes t ht
  · exact (h.pending t ht).weighed

theorem light_withInfo (h : Light l t) {f : NodeInfo → NodeInfo}
    (hf : (f t.info).dynamicPrecedence = t.info.dynamicPrecedence)
    (hv : isHidden l (t.withInfo f) = true → isHidden l t = true) : Light l (t.withInfo f) :=
  ⟨weighed_withInfo h.weighed hf hv, hf.trans h.weight⟩

theorem Fetched.weighed (hg : l.Sound g) (h : v.Weighed l text.size) (hf : Fetched l text v t w) :
    w.Weighed l text.size := by
  cases hf with
  | kept _ => exact h
  | @reused _ o o' _ ho hp hr =>
    have hspec := OldTree.reuse?_spec l v.reuseSite (h.old o ho)
    rw [hr] at hspec
    refine ⟨h.weight, h.nodes, h.pending, ?_, ?_⟩
    · rintro u hu
      obtain rfl := Option.some.inj hu
      exact light_of_weightless (hspec.2 _ rfl).built
    · rintro o hu
      obtain rfl := Option.some.inj hu
      exact hspec.1
  | @lexed old _ ho =>
    refine ⟨h.weight, h.nodes, h.pending, ?_, ?_⟩
    · rintro u hu
      obtain rfl := Option.some.inj hu
      have htoken := tokenAt_token text (v.site l) hg
      generalize (token l text (v.site l)).1 = t at htoken
      obtain ⟨i, cs⟩ := t
      obtain rfl : cs = [] := htoken.leaf
      exact weighed_leaf htoken.precedence
    · rintro o hu
      cases ho with
      | not => exact h.old o hu
      | inVain ho' hr =>
        obtain rfl := Option.some.inj hu
        have hspec := OldTree.reuse?_spec l v.reuseSite (h.old _ ho')
        rw [hr] at hspec
        exact hspec.1

/-! ## Ways on -/

/-- Nodes without precedence on the stack leave the sum as it is. -/
theorem Version.Weighed.of_nodes_append (h : v.Weighed l size) (hts : ∀ t ∈ ts, Light l t)
    (hnodes : w.nodes = v.nodes ++ ts) (hw : w.dynamicPrecedence = v.dynamicPrecedence)
    (hpending : ∀ t ∈ w.pending, Light l t) (hlookahead : ∀ t, w.lookahead = some t → Light l t)
    (hold : w.old = v.old) : w.Weighed l size := by
  refine ⟨?_, fun t ht => ?_, hpending, hlookahead, by rw [hold]; exact h.old⟩
  · rw [hw, h.weight, hnodes, weightOf_append, weightOf_eq_zero hts, Int.add_zero]
  · rw [hnodes] at ht
    rcases List.mem_append.mp ht with ht | ht
    · exact h.nodes t ht
    · exact (hts t ht).weighed

theorem Version.Weighed.shift (h : v.Weighed l size) (hl : v.lookahead = some t) (next : StateId)
    (x : Bool) : (v.shift next t x).Weighed l size := by
  have hnode : Light l ((t.withParseState v.state).withExtra x) :=
    light_withInfo (light_withInfo (h.lookahead t hl) rfl id) rfl id
  have hnodes : ∀ u ∈ [(t.withParseState v.state).withExtra x], Light l u := by simpa using hnode
  exact h.of_nodes_append hnodes (Version.nodes_push v _ _) rfl h.pending (by rintro u ⟨⟩) rfl

/-- A reduction adds the precedence of its production on both sides. -/
theorem Version.Weighed.reduce (hg : l.Sound g) (hshown : l.ShowsPrecedence)
    (hs : v.Sound g l Spans text) (h : v.Weighed l size) {p : ProductionId} {a : Symbol}
    (ha : .reduce p ∈ l.actions v.state a) {n : Nat} {info : ProductionInfo} {fragile : Bool}
    (hinfo : l.production? p = some info)
    (hw : Version.reduce l { v with reductions := n } info fragile t = .ok w) :
    w.Weighed l size := by
  obtain ⟨prod, before, ts, after, spec, hprod, hnodes, -, -, hspec, -, hprecedence, hadded, hw'⟩ :=
    hs.stacked.nodes_reduced hg ha hinfo hw
  have hmem := Array.mem_of_getElem? hprod
  have hinfo' : l.production? p = some prod.info := by
    rw [hg.production?_eq, hprod]
    rfl
  have hvisible : spec.dynamicPrecedence ≠ 0 → l.isVisible spec.symbol = true := by
    rw [hprecedence, hspec]
    exact hshown _ (Array.mem_of_getElem? hinfo')
  have hlabels (s : Symbol) (hlabel : .some s ∈ prod.info.labels) : l.isVisible s = true :=
    ((shown_of_production hg hmem).2 s hlabel).1
  have hall := h.nodes
  have hweight := h.weight
  rw [hnodes] at hall hweight
  obtain ⟨hchildren, htaken⟩ := weighed_dress prod.info.fields hlabels fun u (hu : u ∈ ts) =>
    hall u (List.mem_append_right _ (List.mem_append_left _ hu))
  have hnode := weighed_node hvisible hchildren
  have hnodeWeight : (Subtree.node l spec
      (dress l prod.info.fields prod.info.labels ts)).info.dynamicPrecedence = _ :=
    weight_node hchildren
  obtain ⟨stack, external, precedence, rfl⟩ := Version.reduce_eq hw
  refine ⟨?_, fun u hu => ?_, h.pending, h.lookahead, h.old⟩
  · rw [hw', hadded, hweight]
    simp only [weightOf_append, weightOf_cons]
    rw [hnodeWeight, htaken, hprecedence]
    omega
  · rw [hw'] at hu
    rcases List.mem_append.mp hu with hu | hu
    · exact hall u (List.mem_append_left _ hu)
    · rcases List.mem_cons.mp hu with rfl | hu
      · exact hnode
      · exact hall u (List.mem_append_right _ (List.mem_append_right _ hu))

/-- Nodes that are given up take their precedences into the error node. -/
theorem Version.Weighed.reset (h : v.Weighed l size) {taken stack : List Entry}
    (hstack : v.stack = taken ++ stack) (cost : Nat) :
    (v.reset l (taken.map Entry.node).reverse stack cost).Weighed l size := by
  have hnodes : v.nodes = (stack.map Entry.node).reverse ++ (taken.map Entry.node).reverse := by
    rw [nodes_eq, hstack]
    simp
  have hall := h.nodes
  have hweight := h.weight
  rw [hnodes] at hall hweight
  rw [weightOf_append] at hweight
  have hlost : ∀ u ∈ (taken.map Entry.node).reverse ++ v.pending,
      Everywhere (Subtree.Weighed l) u := by
    intro u hu
    rcases List.mem_append.mp hu with hu | hu
    · exact hall u (List.mem_append_right _ hu)
    · exact (h.pending u hu).weighed
  obtain ⟨herror, herrorWeight⟩ := weighed_error hlost (stateOf stack) (cost + v.pendingCost)
  rw [weightOf_append, weightOf_eq_zero h.pending, Int.add_zero] at herrorWeight
  have hw : (v.reset l (taken.map Entry.node).reverse stack cost).nodes =
      (stack.map Entry.node).reverse ++ [(Subtree.error l (stateOf stack) (cost + v.pendingCost)
        ((taken.map Entry.node).reverse ++ v.pending)).withExtra true] :=
    Version.nodes_push _ _ _
  refine ⟨?_, fun u hu => ?_, by simp [Version.reset], h.lookahead, h.old⟩
  · rw [hw, weightOf_append, weightOf_cons, weightOf_nil, Int.add_zero]
    exact hweight.trans (congrArg _ herrorWeight.symm)
  · rw [hw] at hu
    rcases List.mem_append.mp hu with hu | hu
    · exact hall u (List.mem_append_left _ hu)
    · rw [List.mem_singleton.mp hu]
      exact weighed_withInfo herror rfl id

theorem Version.Weighed.recoveries (h : v.Weighed l size) (hl : v.lookahead = some t)
    (hw : w ∈ v.recoveries l t) : w.Weighed l size := by
  cases Recovers.of_mem hw with
  | @insert s next _ _ _ ha =>
    have hmissing : Light l (.missing l s v.state missingCost) := weighed_leaf rfl
    have hnodes : ∀ u ∈ [Subtree.missing l s v.state missingCost], Light l u := by
      simpa using hmissing
    exact h.of_nodes_append hnodes (Version.nodes_push v _ _) rfl h.pending h.lookahead rfl
  | reset _ hstack _ => exact h.reset hstack _
  | skip =>
    exact ⟨h.weight, h.nodes, List.forall_mem_append.mpr
      ⟨h.pending, by simpa using h.lookahead t hl⟩, by rintro u ⟨⟩, h.old⟩

/-- What was skipped has no precedence, in an error node neither. -/
theorem Version.Weighed.flush (h : v.Weighed l size) : (v.flush l).Weighed l size := by
  have hpending := h.pending
  rw [← splitAfterLast_append (fun t : Subtree => !t.info.extra) v.pending] at hpending
  obtain ⟨hskipped, htrailing⟩ := List.forall_mem_append.mp hpending
  obtain ⟨herror, hweight⟩ := weighed_error (fun x hx => (hskipped x hx).weighed) v.state
    v.pendingCost
  rw [weightOf_eq_zero hskipped] at hweight
  obtain ⟨stack, external, hflush⟩ := Version.flush_eq (l := l) v
  refine h.of_nodes_append (List.forall_mem_append.mpr ⟨fun x hx => ?_, htrailing⟩)
    (Version.nodes_pushAll ({ v with pending := [], pendingCost := 0 } : Version) v.state _)
    (by rw [hflush]) (by rw [hflush]; simp) (by rw [hflush]; exact h.lookahead) (by rw [hflush])
  split at hx
  · contradiction
  · rw [List.mem_singleton.mp hx]
    exact light_withInfo ⟨herror, hweight⟩ rfl id

theorem Acts.weighed (hg : l.Sound g) (hshown : l.ShowsPrecedence) (hs : v.Sound g l Spans text)
    (h : v.Weighed l size) (hl : v.lookahead = some t) (ha : Acts l v t w) : w.Weighed l size := by
  cases ha with
  | shift _ => exact h.shift hl _ false
  | reduce ha hinfo _ hw => exact h.reduce hg hshown hs (mem_actions_of_reduce ha) hinfo hw
  | shiftExtra _ _ => exact h.shift hl _ true
  | drop => exact ⟨h.weight, h.nodes, h.pending, by rintro u ⟨⟩, by rintro o ⟨⟩⟩
  | recover _ hw _ => exact h.recoveries hl hw

/-- On every way on a hypothesis has the precedences of its nodes. -/
theorem Next.weighed (hg : l.Sound g) (hshown : l.ShowsPrecedence) (hs : v.Sound g l Spans text)
    (h : v.Weighed l size) (hl : v.lookahead = some t) (hn : Next l v t w) : w.Weighed l size := by
  cases hn with
  | act _ ha => exact ha.weighed hg hshown hs h hl
  | flush _ _ ha =>
    obtain ⟨_, _, hflush⟩ := Version.flush_eq (l := l) v
    exact ha.weighed hg hshown (hs.flush hg) h.flush (by rw [hflush]; exact hl)
  | skipExtra _ _ =>
    have hnode : Light l (t.withExtra true) := light_withInfo (h.lookahead t hl) rfl id
    exact ⟨h.weight, h.nodes, List.forall_mem_append.mpr ⟨h.pending, by simpa using hnode⟩,
      by rintro u ⟨⟩, h.old⟩
  | recover _ hw _ => exact h.recoveries hl hw

/-! ## Outcomes -/

theorem Halts.weighed (h : v.Weighed l size) {events : List Event} {f : Finished}
    (he : Halts l v t events f) : f.root.info.dynamicPrecedence = f.dynamicPrecedence := by
  have hgivenUp : (v.givenUp l).root.info.dynamicPrecedence = v.dynamicPrecedence := by
    rw [h.weight, ← Int.add_zero (weightOf v.nodes), ← weightOf_eq_zero h.pending,
      ← weightOf_append]
    exact (weighed_error h.everywhere 0 recoveryCost).2
  cases he with
  | accept _ _ => exact (weight_rootOf h.nodes _).trans h.weight.symm
  | noRecovery _ => exact hgivenUp
  | limit _ _ => exact hgivenUp

/-- An outcome is ranked by the precedence of its root. -/
theorem Ends.weighed (h : v.Weighed l size) {events : List Event} {f : Finished}
    (he : Ends l v t events f) : f.root.info.dynamicPrecedence = f.dynamicPrecedence := by
  cases he with
  | now he => exact he.weighed h
  | flush _ _ he => exact he.weighed h.flush

end Parse

open Parse Subtree

variable {g : FlatGrammar} {l : Language} {old : Option Tree} {r : Run}

theorem Language.weighed_startRun {text : Bytes} (hold : ∀ t, old = some t → l.Obtained t)
    (hg : l.Sound g) (hweight : ∀ t, old = some t → Everywhere Weightless t.root) :
    ∀ v ∈ (l.startRun text old).versions, v.Weighed l text.size := by
  rw [Language.versions_startRun]
  intro v hv
  rw [List.mem_singleton.mp hv]
  refine ⟨rfl, by simp [Version.nodes], by simp, by rintro u ⟨⟩, fun o ho => ?_⟩
  simp only [Option.map_eq_some_iff, Option.filter_eq_some_iff] at ho
  obtain ⟨root, ⟨t, ⟨ht, husable⟩, rfl⟩, rfl⟩ := ho
  rw [← Tree.lenBytes_of_isUsable husable]
  exact OldTree.ofRoot_sound
    (((hold t ht).kept hg (Tree.sameAs_of_isUsable husable)).of_everywhere (hweight t ht))

/-- Where only visible nodes are made with a precedence and nothing is taken over that has one,
hypotheses and outcomes are ranked by the precedences in their trees. -/
theorem Language.precedences_accounted {handle : Nat} {grammar : Grammar} {scanner : Option Scanner}
    (h : Language.ofGrammar handle grammar scanner = .ok l) (hshown : l.ShowsPrecedence)
    (text : Bytes) (hold : ∀ t, old = some t → l.Obtained t)
    (hweight : ∀ t, old = some t → Everywhere Weightless t.root) (hr : r.Reached l text old) :
    (∀ v ∈ r.versions, v.halted = false → v.dynamicPrecedence = weightOf v.nodes) ∧
      ∀ f ∈ r.finished, f.dynamicPrecedence = f.root.info.dynamicPrecedence := by
  obtain ⟨g, -, hg⟩ := Language.ofGrammar_sound h
  obtain ⟨hversions, hfinished⟩ := hr.invariant hg (covers_anyText text)
    (fun t ht hl => (hold t ht).kept hg hl) (Language.weighed_startRun hold hg hweight)
    (fun _ _ _ _ h hf => hf.weighed hg h) (fun _ _ _ hs hl h hn => hn.weighed hg hshown hs h hl)
    fun _ _ _ _ _ _ h he => he.weighed h
  exact ⟨fun v hv hlive => (hversions v hv hlive).weight, fun f hf => (hfinished f hf).symm⟩

/-- A grammar with a dynamic precedence. -/
def Grammar.weighty : Grammar :=
  { name := "weighty", extras := some [] : Grammar }
    |>.addRule "s" (.seq [.sym "x", .sym "x"])
    |>.addRule "x" (.precDynamic 2 (.seq [.string "a", .string "b"]))

theorem Language.precedences_accounted_weighty : ∃ (l : Language) (r : Run) (v : Version),
    Language.ofGrammar 0 .weighty none = .ok l ∧ l.ShowsPrecedence ∧
    r.Reached l (Bytes.ofString "abab") none ∧ v ∈ r.versions ∧ v.dynamicPrecedence = 4 ∧
    weightOf v.nodes = 4 := by
  have hrun : (Language.ofGrammar 0 .weighty none).toOption.any (fun l =>
      decide l.ShowsPrecedence && ((Run.turn l (Bytes.ofString "abab"))^[6] (l.startRun
        (Bytes.ofString "abab") none)).versions.any fun v =>
          !v.halted && v.dynamicPrecedence == 4) = true := by
    decide +kernel
  obtain ⟨l, hl, hrun⟩ := exists_ok hrun
  simp only [Bool.and_eq_true, List.any_eq_true, Bool.not_eq_true', beq_iff_eq,
    decide_eq_true_eq] at hrun
  obtain ⟨hshown, v, hv, hlive, hweight⟩ := hrun
  have hr : Run.Reached l (Bytes.ofString "abab") none _ := Run.Reached.start.turns 6
  obtain ⟨hversions, -⟩ := Language.precedences_accounted hl hshown (Bytes.ofString "abab")
    (by simp) (by simp) hr
  refine ⟨l, _, v, hl, hshown, hr, hv, hweight, ?_⟩
  rw [← hversions v hv hlive, hweight]

end Glr
