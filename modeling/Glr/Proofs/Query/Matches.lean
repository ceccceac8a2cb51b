import Glr.Proofs.Query.Embedding
import Glr.Proofs.Parser

/-!
# Glr.Proofs.Query.Matches

What the matches of a query are.  The nodes from one on down are visited in turn, and

```
match  =  rule  +  visited node where it stands  +  what it captures there
```

with captures for which all predicates of the rule hold.
-/

namespace Glr

/-- The visible nodes from `n` on down. -/
inductive Node.Shows (n : Node) : Node → Prop where
  | self : n.Shows n
  | child {m c : Node} (h : n.Shows m) (hc : c ∈ m.children) : n.Shows c

theorem Node.Shows.of_child {n c m : Node} (hc : c ∈ n.children) (h : c.Shows m) : n.Shows m := by
  induction h with
  | self => exact .child .self hc
  | child _ hm ih => exact .child ih hm

theorem Tree.HasNode.of_shows {t : Tree} {n m : Node} (hn : t.HasNode n) (h : n.Shows m) :
    t.HasNode m := by
  induction h with
  | self => exact hn
  | child _ hc ih => exact ih.child (List.mem_filter.mp hc).1

/-- Stored children of one node with one index are one. -/
theorem Node.eq_of_mem_storedChildren {n a b : Node} (ha : a ∈ n.storedChildren)
    (hb : b ∈ n.storedChildren) (h : a.isSame b = true) : a = b := by
  obtain ⟨i, hi⟩ := List.mem_iff_getElem?.mp ha
  obtain ⟨j, hj⟩ := List.mem_iff_getElem?.mp hb
  have hij : i = j := by
    have haddress := beq_iff_eq.mp h
    rw [Node.getElem?_storedChildren] at hi hj
    obtain ⟨_, _, rfl⟩ := Option.map_eq_some_iff.mp hi
    obtain ⟨_, _, rfl⟩ := Option.map_eq_some_iff.mp hj
    exact (List.cons.inj haddress).1
  rw [hij] at hi
  exact Option.some.inj (hi.symm.trans hj)

/-- The visible children of the parent, where a visible node is one of them; a node without a
parent has no other siblings. -/
def Node.siblings (n : Node) : List Node :=
  match n.parent? with
  | some p => p.children
  | none => [n]

/-- A node of a tree is told by its address among its siblings. -/
theorem Tree.HasNode.getElem?_siblings {t : Tree} {n : Node} {i : Nat} (hn : t.HasNode n)
    (h : n.siblings.findIdx? n.isSame = some i) : n.siblings[i]? = some n := by
  obtain ⟨hi, hsame, -⟩ := List.findIdx?_eq_some_iff_getElem.mp h
  rw [List.getElem?_eq_getElem hi]
  have hmem := List.getElem_mem hi
  generalize n.siblings[i] = m at hsame hmem
  cases hn with
  | root =>
    rw [List.mem_singleton.mp hmem]
  | @child p _ hp hc =>
    rw [Node.siblings, Node.parent?_of_mem_place hc] at hmem
    rw [Node.eq_of_mem_storedChildren hc (List.mem_filter.mp hmem).1 hsame]

namespace Query

variable {n : Node} {source : Bytes} {range : Option (Nat × Nat)}

/-! ## Predicates -/

/-- A text is as a condition wants it to be. -/
def Condition.Meets (c : Condition) (source : Bytes) (captures : Captures) (text : Bytes) : Prop :=
  match c with
  | .equals (.text s) => text = Bytes.ofString s
  | .equals (.capture other) =>
    ∀ c ∈ captures, c.index = other → textOf source c.node = text
  | .fits r => r.isMatch text = true
  | .anyOf values => ∃ v ∈ values, Bytes.ofString v = text

/-- The texts of all nodes with the capture of a predicate are as its condition wants them to be,
or none of them is if the predicate is negated. -/
def Predicate.Meets (p : Predicate) (source : Bytes) (captures : Captures) : Prop :=
  ∀ c ∈ captures, c.index = p.capture →
    (p.condition.Meets source captures (textOf source c.node) ↔ p.negated = false)

theorem forall_textsOf_iff {P : Bytes → Prop} {captures : Captures} {index : Nat} :
    (∀ text ∈ textsOf source captures index, P text) ↔
      ∀ c ∈ captures, c.index = index → P (textOf source c.node) := by
  unfold textsOf
  simp only [List.forall_mem_map, List.mem_filter, beq_iff_eq, and_imp]

theorem Condition.holds_iff {c : Condition} {captures : Captures} {text : Bytes} :
    c.holds source captures text = true ↔ c.Meets source captures text := by
  unfold Condition.holds Condition.Meets
  split
  · exact beq_iff_eq
  · simp only [List.all_eq_true, beq_iff_eq]
    exact forall_textsOf_iff
  · exact Iff.rfl
  · simp only [List.any_eq_true, beq_iff_eq]

theorem Predicate.holds_iff {p : Predicate} {captures : Captures} :
    p.holds source captures = true ↔ p.Meets source captures := by
  unfold Predicate.holds Predicate.Meets
  rw [List.all_eq_true, forall_textsOf_iff]
  refine forall₃_congr fun c _ _ => ?_
  rw [← Condition.holds_iff]
  cases p.negated <;> simp

/-! ## Rules -/

/-- The pattern of a rule stands at a node.  A group starts at the node, whatever its first step
is tied to, and goes on with its siblings. -/
inductive Rule.Embeds (r : Rule) (n : Node) : Captures → Prop where
  | node {found : Captures} (stands : Query.Embeds Anywhere r.pattern n found) : r.Embeds n found
  | group {own : List Nat} {first : Step Pattern} {rest : List (Step Pattern)}
      {i stop : Nat} {found more : Captures}
      (pattern : r.pattern = .group own (first :: rest))
      (place : n.siblings[i]? = some n) (fills : first.Fills n)
      (stands : Query.Embeds Anywhere first.pattern n found)
      (spread : Spread Anywhere rest n.siblings false (i + 1) stop more) :
      r.Embeds n (found ++ more)

theorem Rule.Embeds.captured {r : Rule} {found : Captures} (h : r.Embeds n found) :
    ∀ c ∈ found, Captured Anywhere r.pattern c := by
  cases h with
  | node stands => exact stands.captured
  | group pattern _ _ stands spread =>
    intro c hc
    rw [pattern]
    rcases List.mem_append.mp hc with hc | hc
    · exact (stands.captured c hc).imp (.group List.mem_cons_self)
    · obtain ⟨s, hs, hcaptured⟩ := spread.captured c hc
      exact hcaptured.imp (.group (List.mem_cons_of_mem _ hs))

/-- What a rule captures at a node of a tree it captures standing there. -/
theorem Rule.embeds_of_mem_matchAt {t : Tree} {r : Rule} {found : Captures} (hn : t.HasNode n)
    (h : found ∈ r.matchAt n) : r.Embeds n found := by
  have hanywhere : ∀ s nodes i j, FirstFound s nodes i j → Anywhere s nodes i j :=
    fun _ _ _ _ _ => trivial
  unfold Rule.matchAt at h
  split at h
  · contradiction
  · rename_i own first rest hpattern
    simp only at h
    split at h
    · contradiction
    · rename_i i hi
      split at h
      · contradiction
      · rename_i hfield
        obtain ⟨inner, hinner, hmem⟩ := List.mem_flatMap.mp (mem_of_mem_unique h)
        obtain ⟨⟨stop, all⟩, hsteps, rfl⟩ := List.mem_map.mp hmem
        obtain ⟨more, rfl, hspread⟩ := spread_of_mem_matchSteps hsteps
        have hfills : first.Fills n := by
          refine not_not.mp fun hfills => hfield ?_
          rw [bne_comm]
          exact Step.not_fills_iff.mpr hfills
        exact .group hpattern (hn.getElem?_siblings hi) hfills
          ((embeds_of_mem_matchNode hinner).mono hanywhere) (hspread.mono hanywhere)
  · exact .node ((embeds_of_mem_matchNode h).mono hanywhere)

/-! ## Visits -/

theorem shows_of_mem_visited {fuel : Nat} {m : Node} (h : m ∈ visited range fuel n) :
    n.Shows m ∧ meets range m = true := by
  induction fuel generalizing n with
  | zero => contradiction
  | succ fuel ih =>
    rw [visited] at h
    split at h
    · rename_i hmeets
      rcases List.mem_cons.mp h with rfl | h
      · exact ⟨.self, hmeets⟩
      · obtain ⟨c, hc, hm⟩ := List.mem_flatMap.mp h
        exact ⟨.of_child hc (ih hm).1, (ih hm).2⟩
    · contradiction

theorem mem_matchesAt {rules : List Rule} {m : Match} :
    m ∈ matchesAt rules source n ↔ ∃ r, rules[m.pattern]? = some r ∧ m.captures ∈ r.matchAt n ∧
      ∀ p ∈ r.predicates, p.Meets source m.captures := by
  simp only [matchesAt, List.mem_flatMap, List.mem_map, List.mem_filter, List.all_eq_true,
    Predicate.holds_iff, Prod.exists, List.mem_zipIdx_iff_getElem?]
  constructor
  · rintro ⟨r, i, hr, captures, ⟨hmem, hmeets⟩, rfl⟩
    exact ⟨r, hr, hmem, hmeets⟩
  · rintro ⟨r, hr, hmem, hmeets⟩
    exact ⟨r, m.pattern, hr, m.captures, ⟨hmem, hmeets⟩, rfl⟩

end Query

/-- Every match of a query is one of a rule at a node that was visited.  The pattern of the rule
stands there, and the captures of the match are nodes that its patterns stand at; all predicates of
the rule hold for them. -/
theorem Query.embeds_of_mem_run {t : Tree} {start : Node} (hstart : t.HasNode start) (q : Query)
    (source : Bytes) (range : Option (Nat × Nat)) {m : Match} (hm : m ∈ q.run start source range) :
    ∃ n r, start.Shows n ∧ meets range n = true ∧ q.rules[m.pattern]? = some r ∧
      r.Embeds n m.captures ∧ (∀ c ∈ m.captures, Captured Anywhere r.pattern c) ∧
      ∀ p ∈ r.predicates, p.Meets source m.captures := by
  obtain ⟨n, hn, hm⟩ := List.mem_flatMap.mp hm
  obtain ⟨hshows, hmeets⟩ := shows_of_mem_visited hn
  obtain ⟨r, hr, hmem, hpredicates⟩ := mem_matchesAt.mp hm
  have hstands := Rule.embeds_of_mem_matchAt (hstart.of_shows hshows) hmem
  exact ⟨n, r, hshows, hmeets, hr, hstands, hstands.captured, hpredicates⟩

/-- Marks of three kinds in a row. -/
def Grammar.marks : Grammar :=
  { name := "marks", extras := some [] : Grammar }
    |>.addRule "p" (.many (.choice [.sym "x", .sym "y", .sym "z"]))
    |>.addRule "x" (.string "x")
    |>.addRule "y" (.string "y")
    |>.addRule "z" (.string "z")

set_option maxRecDepth 100000 in
theorem Query.embeds_of_mem_run_marks : ∃ l q t m, Language.ofGrammar 0 .marks none = .ok l ∧
    Query.compile l "(p (x)+ @a . (y) @b (#eq? @b \"y\")) @c" = .ok q ∧
    t = (l.parse {} (Bytes.ofString "zxxy") none).1 ∧
    m ∈ q.run t.rootNode (Bytes.ofString "zxxy") none ∧ m.captures.length = 4 ∧
    ∃ n r, t.rootNode.Shows n ∧ r ∈ q.rules ∧ r.Embeds n m.captures ∧
      ∀ p ∈ r.predicates, p.Meets (Bytes.ofString "zxxy") m.captures := by
  have hrun : (Language.ofGrammar 0 .marks none).toOption.any (fun l =>
      (Query.compile l "(p (x)+ @a . (y) @b (#eq? @b \"y\")) @c").toOption.any fun q =>
        (q.run (l.parse {} (Bytes.ofString "zxxy") none).1.rootNode (Bytes.ofString "zxxy") none).any
          fun m => m.captures.length == 4) = true := by
    decide +kernel
  obtain ⟨l, hl, hrun⟩ := exists_ok hrun
  obtain ⟨q, hq, hrun⟩ := exists_ok hrun
  obtain ⟨m, hm, hlength⟩ := List.any_eq_true.mp hrun
  obtain ⟨n, r, hshows, -, hr, hstands, -, hmeets⟩ :=
    Query.embeds_of_mem_run .root q (Bytes.ofString "zxxy") none hm
  exact ⟨l, q, _, m, hl, hq, rfl, hm, beq_iff_eq.mp hlength, n, r, hshows,
    List.mem_of_getElem? hr, hstands, hmeets⟩

end Glr
