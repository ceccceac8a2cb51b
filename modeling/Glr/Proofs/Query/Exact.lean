import Glr.Proofs.Query.Complete

/-!
# Glr.Proofs.Query.Exact

What a query without repetitions and groups reports, and in which order.  The visible nodes are
visited in preorder, at each of them the rules are tried in turn, and

```
captures of a rule at a node  =  captures of all ways in which its pattern stands there
```

each of them once.  Two ways that capture the same nodes under the same numbers are one match; as
a node of a tree is told by its address, what is dropped as a duplicate is equal to what is kept.
-/

namespace Glr

open Subtree

/-! ## Addresses -/

theorem Node.address_of_mem_storedChildren {n c : Node} (h : c ∈ n.storedChildren) :
    ∃ i, c.address = i :: n.address := by
  obtain ⟨k, _, -, -, -, hpath⟩ := Node.exists_of_mem_storedChildren h
  exact ⟨k, by simp [Node.address, hpath]⟩

/-- The address of a node tells which node of the tree it is. -/
theorem Tree.HasNode.eq_of_isSame {t : Tree} {a b : Node} (ha : t.HasNode a) (hb : t.HasNode b)
    (h : a.isSame b = true) : a = b := by
  induction ha generalizing b with
  | root =>
    cases hb with
    | root => rfl
    | child _ hc =>
      obtain ⟨i, hi⟩ := Node.address_of_mem_storedChildren hc
      rw [Node.isSame, hi] at h
      contradiction
  | @child n a _ ha ih =>
    obtain ⟨i, hi⟩ := Node.address_of_mem_storedChildren ha
    cases hb with
    | root =>
      rw [Node.isSame, hi] at h
      contradiction
    | @child m b hm hb =>
      obtain ⟨j, hj⟩ := Node.address_of_mem_storedChildren hb
      have haddress := beq_iff_eq.mp h
      rw [hi, hj] at haddress
      obtain rfl : n = m := ih hm (beq_iff_eq.mpr (List.cons.inj haddress).2)
      exact Node.eq_of_mem_storedChildren ha hb h

theorem Tree.HasNode.children {t : Tree} {n : Node} (hn : t.HasNode n) :
    ∀ c ∈ n.children, t.HasNode c :=
  fun _ hc => hn.child (List.mem_filter.mp hc).1

/-! ## Preorder -/

/-- The visible nodes from one on down, each before those under it. -/
def Node.preorder (n : Node) : List Node :=
  n :: n.children.attach.flatMap fun c => c.val.preorder
termination_by n.subtree.count
decreasing_by exact Node.count_lt_of_mem_children c.property

theorem Node.preorder_eq (n : Node) : n.preorder = n :: n.children.flatMap Node.preorder := by
  rw [Node.preorder, List.flatMap_subtype (g := Node.preorder) fun _ _ => rfl, List.unattach_attach]

namespace Query

theorem visited_eq_preorder {n : Node} {fuel : Nat} (hfuel : n.subtree.count ≤ fuel) :
    visited none fuel n = n.preorder := by
  induction fuel generalizing n with
  | zero =>
    have := n.subtree.count_pos
    omega
  | succ fuel ih =>
    have hchildren : n.children.flatMap (visited none fuel) = n.children.flatMap Node.preorder := by
      refine List.flatMap_congr fun c hc => ih ?_
      have := Node.count_lt_of_mem_children hc
      omega
    rw [visited, if_pos (show meets none n = true from rfl), Node.preorder_eq, hchildren]

/-! ## Duplicates -/

theorem sameCaptures_self (captures : Captures) : sameCaptures captures captures = true := by
  induction captures with
  | nil => rfl
  | cons c rest ih => simp [sameCaptures, Node.isSame, ih]

/-- All captured nodes are nodes of a tree. -/
def Captures.In (t : Tree) (captures : Captures) : Prop := ∀ c ∈ captures, t.HasNode c.node

variable {t : Tree} {n : Node} {captures : Captures}

theorem Captures.In.eq {other : Captures} (h : captures.In t) (h' : other.In t)
    (hsame : sameCaptures captures other = true) : captures = other := by
  induction captures generalizing other with
  | nil =>
    cases other with
    | nil => rfl
    | cons => contradiction
  | cons a as ih =>
    cases other with
    | nil => contradiction
    | cons b bs =>
      obtain ⟨ha, has⟩ := List.forall_mem_cons.mp h
      obtain ⟨hb, hbs⟩ := List.forall_mem_cons.mp h'
      simp only [sameCaptures, Bool.and_eq_true, beq_iff_eq] at hsame
      have hnode := ha.eq_of_isSame hb hsame.1.2
      obtain ⟨index, node⟩ := a
      obtain ⟨index', node'⟩ := b
      simp only at hsame hnode
      rw [hsame.1.1, hnode, ih has hbs hsame.2]

theorem addUnique_of_any {out : List Captures}
    (h : out.any (fun c => sameCaptures c captures) = true) : addUnique out captures = out :=
  if_pos h

theorem addUnique_of_not_any {out : List Captures}
    (h : out.any (fun c => sameCaptures c captures) = false) :
    addUnique out captures = out ++ [captures] :=
  if_neg (by rw [h]; exact Bool.false_ne_true)

/-- No two of the lists that are kept are the same. -/
theorem nodup_unique (all : List Captures) : (unique all).Nodup := by
  have key (xs out : List Captures) (hout : out.Nodup) : (xs.foldl addUnique out).Nodup := by
    induction xs generalizing out with
    | nil => exact hout
    | cons x xs ih =>
      rw [List.foldl_cons]
      refine ih _ ?_
      cases hany : out.any fun c => sameCaptures c x with
      | true => rwa [addUnique_of_any hany]
      | false =>
        rw [addUnique_of_not_any hany, List.nodup_append]
        refine ⟨hout, by simp, fun a ha b hb hab => ?_⟩
        rw [List.mem_singleton.mp hb] at hab
        rw [List.any_eq_false] at hany
        exact hany a ha (hab ▸ sameCaptures_self a)
  exact key all [] List.nodup_nil

/-- For each list there is one among those that are kept that has the same captures. -/
theorem exists_mem_unique {all : List Captures} (h : captures ∈ all) :
    ∃ kept ∈ unique all, sameCaptures kept captures = true := by
  have keeps (xs out : List Captures) {c : Captures} (hc : c ∈ out) : c ∈ xs.foldl addUnique out := by
    induction xs generalizing out with
    | nil => exact hc
    | cons x xs ih =>
      refine ih _ ?_
      unfold addUnique
      split
      · exact hc
      · exact List.mem_append_left _ hc
  obtain ⟨before, after, rfl⟩ := List.append_of_mem h
  rw [unique, List.foldl_append, List.foldl_cons]
  cases hany : (before.foldl addUnique []).any fun c => sameCaptures c captures with
  | true =>
    obtain ⟨kept, hkept, hsame⟩ := List.any_eq_true.mp hany
    rw [addUnique_of_any hany]
    exact ⟨kept, keeps _ _ hkept, hsame⟩
  | false =>
    rw [addUnique_of_not_any hany]
    exact ⟨captures, keeps _ _ (by simp), sameCaptures_self _⟩

/-- Among captures of nodes of one tree nothing is lost. -/
theorem mem_unique {all : List Captures} (hall : ∀ c ∈ all, Captures.In t c) :
    captures ∈ unique all ↔ captures ∈ all := by
  refine ⟨mem_of_mem_unique, fun h => ?_⟩
  obtain ⟨kept, hkept, hsame⟩ := exists_mem_unique h
  rwa [← (hall kept (mem_of_mem_unique hkept)).eq (hall captures h) hsame]

/-! ## Captured nodes are nodes of the tree -/

section

variable {Begins : Step Pattern → List Node → Nat → Nat → Prop} {nodes : List Node}

theorem Captures.In.append {more : Captures} (h : captures.In t) (h' : more.In t) :
    Captures.In t (captures ++ more) :=
  List.forall_mem_append.mpr ⟨h, h'⟩

theorem Captures.in_own (hn : t.HasNode n) (own : List Nat) :
    Captures.In t (own.map (⟨·, n⟩)) :=
  forall_own hn own

/-- A pattern that stands at a node captures nodes from there on down. -/
theorem Embeds.captures_in {p : Pattern} (h : Embeds Begins p n captures) (hn : t.HasNode n) :
    captures.In t :=
  h.inherited (fun _ hm => hm.children) hn

theorem Spread.captures_in {steps : List (Step Pattern)} {tied : Bool} {i j : Nat}
    (h : Spread Begins steps nodes tied i j captures) (hnodes : ∀ c ∈ nodes, t.HasNode c) :
    captures.In t :=
  h.inherited (fun _ hm => hm.children) fun _ _ _ hc => hnodes _ (List.mem_of_getElem? hc)

end

/-! ## Every way to stand is found -/

/-- In the steps of a pattern each step is used once, and none of them is a group. -/
def Pattern.isSingle : Pattern → Bool
  | .node _ _ _ _ steps => steps.all fun s => s.quantifier == .one
  | .alternation _ _ => true
  | .group _ _ => false

/-- There is no quantifier and no group in a pattern. -/
def Pattern.Single (p : Pattern) : Prop := p.all Pattern.isSingle = true

theorem Pattern.isGroup_of_isSingle {p : Pattern} (h : p.all Pattern.isSingle = true) :
    p.isGroup = false := by
  cases p with
  | node => rfl
  | alternation => rfl
  | group =>
    rw [Pattern.all, Bool.and_eq_true] at h
    exact absurd h.1 Bool.false_ne_true

/-- The ways in which a step is found where it is used once. -/
theorem Uses.mem_matchOnce {s : Step Pattern} {nodes : List Node} {tied : Bool} {i j : Nat}
    {found : Captures} (hs : s.pattern.isGroup = false)
    (hfinds : ∀ n ∈ nodes, ∀ {found}, Embeds Anywhere s.pattern n found →
      found ∈ matchNode s.pattern n)
    (h : Uses Anywhere s nodes 1 tied i j found) : (j, found) ∈ matchOnce s nodes i tied := by
  cases h with
  | more placed uses =>
    cases uses
    obtain ⟨p, n, rfl, hle, hn, hgap, hfills, -, hstands⟩ := placed.exists_node hs
    rw [List.append_nil, matchOnce_of_isGroup hs]
    exact List.mem_flatMap.mpr ⟨(p, n), mem_reachable.mpr ⟨hle, hn, hgap⟩,
      Step.mem_found.mpr ⟨rfl, hfills, hfinds n (List.mem_of_getElem? hn) hstands⟩⟩

mutual

/-- A pattern without quantifiers and groups captures at a node what it captures in each way in
which it stands there. -/
theorem Embeds.mem_matchNode : ∀ {p : Pattern} {n : Node} {found : Captures}, p.Single →
    t.HasNode n → Embeds Anywhere p n found → found ∈ matchNode p n
  | .node own test absent anchoredEnd steps, n, _, hp, hn, .node kind unfilled spread last => by
    rw [Pattern.Single, Pattern.all, Bool.and_eq_true] at hp
    rw [matchNode, if_neg]
    · simp only
      split
      · rename_i hnone
        rw [Bool.and_eq_true, List.isEmpty_iff] at hnone
        obtain rfl := hnone.1
        cases spread
        simp
      · rw [mem_unique (t := t)]
        · have hmem := spread.mem_matchSteps [] hp.1 hp.2 hn.children
          refine List.mem_map.mpr ⟨_, List.mem_filter.mpr ⟨hmem, ?_⟩, rfl⟩
          rw [Bool.not_eq_true', Bool.and_eq_false_iff]
          by_cases hend : anchoredEnd = true
          · exact .inr (any_drop_of_unnamed (last hend))
          · exact .inl (Bool.eq_false_iff.mpr hend)
        · intro c hc
          obtain ⟨⟨stop, more⟩, hmore, rfl⟩ := List.mem_map.mp hc
          obtain ⟨_, rfl, hspread⟩ := spread_of_mem_matchSteps (List.mem_filter.mp hmore).1
          exact (Captures.in_own hn own).append (hspread.captures_in hn.children)
    · rw [kind, Bool.not_true, Bool.false_or, List.any_eq_true]
      rintro ⟨f, hf, hsome⟩
      rw [unfilled f hf] at hsome
      contradiction
  | .alternation own alternatives, n, _, hp, hn, .alternation mem stands => by
    rw [Pattern.Single, Pattern.all, Bool.and_eq_true] at hp
    rw [matchNode, mem_unique (t := t)]
    · exact List.mem_map.mpr ⟨_, mem_matchAny hp.2 hn mem stands, rfl⟩
    · intro c hc
      obtain ⟨inner, hinner, rfl⟩ := List.mem_map.mp hc
      obtain ⟨p, -, hstands⟩ := exists_of_mem_matchAny hinner
      exact (hstands.captures_in hn).append (Captures.in_own hn own)

theorem mem_matchAny : ∀ {ps : List Pattern} {p : Pattern} {n : Node} {found : Captures},
    Pattern.allOf Pattern.isSingle ps = true → t.HasNode n → p ∈ ps → Embeds Anywhere p n found →
      found ∈ matchAny ps n
  | q :: rest, p, n, _, hps, hn, hp, h => by
    rw [Pattern.allOf, Bool.and_eq_true] at hps
    rw [matchAny, List.mem_append]
    rcases List.mem_cons.mp hp with heq | hp
    · exact .inl (Embeds.mem_matchNode hps.1 hn (heq ▸ h))
    · exact .inr (mem_matchAny hps.2 hn hp h)

theorem Spread.mem_matchSteps : ∀ {steps : List (Step Pattern)} {nodes : List Node} {tied : Bool}
    {i j : Nat} {found : Captures}, Spread Anywhere steps nodes tied i j found →
      ∀ captures, (steps.all fun s => s.quantifier == .one) = true →
        Pattern.allSteps Pattern.isSingle steps = true → (∀ c ∈ nodes, t.HasNode c) →
          (j, captures ++ found) ∈ matchSteps steps nodes i captures tied
  | [], _, _, _, _, _, .nil, captures, _, _, _ => by simp [matchSteps]
  | ⟨field, p, quantifier, anchored⟩ :: rest, nodes, tied, i, j, _,
      .cons uses allowed spread, captures, hone, hsteps, hnodes => by
    rw [List.all_cons, Bool.and_eq_true, beq_iff_eq] at hone
    rw [Pattern.allSteps, Bool.and_eq_true] at hsteps
    obtain ⟨rfl, hone⟩ := hone
    obtain rfl := allowed
    rw [matchSteps, ← List.append_assoc]
    simp only
    have honce := uses.mem_matchOnce (Pattern.isGroup_of_isSingle hsteps.1) fun n hn _ hstands =>
      Embeds.mem_matchNode (p := p) hsteps.1 (hnodes n hn) hstands
    exact List.mem_flatMap.mpr ⟨_, honce, spread.mem_matchSteps _ hone hsteps.2 hnodes⟩

end

variable {r : Rule}

/-- What a pattern without quantifiers and groups captures at a node. -/
theorem mem_matchNode_iff {p : Pattern} {found : Captures} (hp : p.Single) (hn : t.HasNode n) :
    found ∈ matchNode p n ↔ Embeds Anywhere p n found :=
  ⟨fun h => (embeds_of_mem_matchNode h).mono fun _ _ _ _ _ => trivial,
    fun h => h.mem_matchNode hp hn⟩

theorem nodup_matchNode (p : Pattern) (n : Node) : (matchNode p n).Nodup := by
  cases p with
  | node own test absent anchoredEnd steps =>
    rw [matchNode]
    split
    · exact List.nodup_nil
    · simp only
      split
      · simp
      · exact nodup_unique _
  | alternation own alternatives =>
    rw [matchNode]
    exact nodup_unique _
  | group own steps => exact List.nodup_nil

/-- What a rule captures at a node in the ways that its predicates allow. -/
def Rule.listsAt (r : Rule) (source : Bytes) (n : Node) : List Captures :=
  (r.matchAt n).filter fun captures => r.predicates.all fun p => p.holds source captures

theorem Rule.mem_listsAt (hr : r.pattern.Single) (hn : t.HasNode n) {source : Bytes}
    {found : Captures} : found ∈ r.listsAt source n ↔
      Query.Embeds Anywhere r.pattern n found ∧ ∀ p ∈ r.predicates, p.Meets source found := by
  rw [Rule.listsAt, Rule.matchAt_of_isGroup (Pattern.isGroup_of_isSingle hr), List.mem_filter,
    mem_matchNode_iff hr hn, List.all_eq_true]
  simp only [Predicate.holds_iff]

theorem Rule.nodup_listsAt (hr : r.pattern.Single) (source : Bytes) (n : Node) :
    (r.listsAt source n).Nodup := by
  rw [Rule.listsAt, Rule.matchAt_of_isGroup (Pattern.isGroup_of_isSingle hr)]
  exact (nodup_matchNode r.pattern n).filter _

end Query

theorem Node.shows_of_mem_preorder {n m : Node} (h : m ∈ n.preorder) : n.Shows m := by
  rw [← Query.visited_eq_preorder (Nat.le_refl _)] at h
  exact (Query.shows_of_mem_visited h).1

open Query

/-- The matches of a query without quantifiers and groups, in order: at each visible node from
`start` on down, in preorder, and for each rule in turn, what the rule captures in the ways in
which its pattern stands there and its predicates hold, each list of captures once. -/
theorem Query.run_eq_flatMap {t : Tree} {start : Node} (hstart : t.HasNode start) {q : Query}
    (hq : ∀ r ∈ q.rules, r.pattern.Single) (source : Bytes) :
    ∃ lists : Rule → Node → List Captures,
      (q.run start source none = start.preorder.flatMap fun n =>
        q.rules.zipIdx.flatMap fun (r, i) => (lists r n).map (Match.mk i)) ∧
      ∀ r ∈ q.rules, ∀ n ∈ start.preorder, (lists r n).Nodup ∧ ∀ found, found ∈ lists r n ↔
        Embeds Anywhere r.pattern n found ∧ ∀ p ∈ r.predicates, p.Meets source found := by
  refine ⟨fun r => r.listsAt source, ?_, fun r hr n hn => ?_⟩
  · rw [Query.run, visited_eq_preorder (Nat.le_refl _)]
    rfl
  · have hnode := hstart.of_shows (Node.shows_of_mem_preorder hn)
    exact ⟨Rule.nodup_listsAt (hq r hr) source n, fun _ => Rule.mem_listsAt (hq r hr) hnode⟩

set_option maxRecDepth 100000 in
theorem Query.run_eq_flatMap_marks : ∃ l q t, Language.ofGrammar 0 .marks none = .ok l ∧
    Query.compile l "(p (_) @a [(x) (y)] @b (#eq? @a \"x\")) (p . (x) @c (z) .)" = .ok q ∧
    t = (l.parse {} (Bytes.ofString "xyxz") none).1 ∧ q.rules.length = 2 ∧
    (∀ r ∈ q.rules, r.pattern.Single) ∧ (q.run t.rootNode (Bytes.ofString "xyxz") none).length = 3 ∧
    ∃ lists : Rule → Node → List Captures,
      (q.run t.rootNode (Bytes.ofString "xyxz") none = t.rootNode.preorder.flatMap fun n =>
        q.rules.zipIdx.flatMap fun (r, i) => (lists r n).map (Match.mk i)) ∧
      ∀ r ∈ q.rules, ∀ n ∈ t.rootNode.preorder, (lists r n).Nodup ∧ ∀ found, found ∈ lists r n ↔
        Embeds Anywhere r.pattern n found ∧
          ∀ p ∈ r.predicates, p.Meets (Bytes.ofString "xyxz") found := by
  have hrun : (Language.ofGrammar 0 .marks none).toOption.any (fun l =>
      (Query.compile l "(p (_) @a [(x) (y)] @b (#eq? @a \"x\")) (p . (x) @c (z) .)").toOption.any
        fun q => q.rules.length == 2 && (q.rules.all fun r => r.pattern.all Pattern.isSingle) &&
          (q.run (l.parse {} (Bytes.ofString "xyxz") none).1.rootNode (Bytes.ofString "xyxz")
            none).length == 3) = true := by
    decide +kernel
  obtain ⟨l, hl, hrun⟩ := exists_ok hrun
  obtain ⟨q, hq, hrun⟩ := exists_ok hrun
  simp only [Bool.and_eq_true, beq_iff_eq, List.all_eq_true] at hrun
  obtain ⟨⟨hrules, hsingle⟩, hlength⟩ := hrun
  exact ⟨l, q, _, hl, hq, rfl, hrules, hsingle, hlength,
    Query.run_eq_flatMap .root hsingle (Bytes.ofString "xyxz")⟩

end Glr
