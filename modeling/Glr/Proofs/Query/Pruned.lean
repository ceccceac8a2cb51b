import Glr.Proofs.Query.Closed
import Glr.Proofs.Query.Complete

/-!
# Glr.Proofs.Query.Pruned

The parts of a pattern that no match depends on.  A group is about no node of its own, so three
things in a pattern come to nothing:

```
(p ((x) (y)) @g)      the captures of a group
(p f: ((x) (y)))      the field of a step whose pattern is a group
[((x) (y)) (z)]       a group as an alternative
```

They are refused at the top of a query only.  Without them a query reports the same matches.
-/

namespace Glr

namespace Query

/-! ## What is of no effect -/

/-- Whether a pattern itself has no part that comes to nothing. -/
def Pattern.isHeeded : Pattern → Bool
  | .node _ _ _ _ steps => steps.all fun s => !(s.pattern.isGroup && s.field.isSome)
  | .alternation _ alternatives => alternatives.all fun p => !p.isGroup
  | .group own steps => own.isEmpty && steps.all fun s => !(s.pattern.isGroup && s.field.isSome)

/-- No part of a pattern comes to nothing. -/
def Pattern.Heeded (p : Pattern) : Prop := p.all Pattern.isHeeded = true

mutual
/-- A pattern without the parts that come to nothing. -/
def Pattern.pruned : Pattern → Pattern
  | .node own test absent anchoredEnd steps => .node own test absent anchoredEnd (prunedSteps steps)
  | .alternation own alternatives => .alternation own (prunedOf alternatives)
  | .group _ steps => .group [] (prunedSteps steps)
/-- Those of some alternatives that are no groups. -/
def Pattern.prunedOf : List Pattern → List Pattern
  | [] => []
  | p :: rest => if p.isGroup then prunedOf rest else p.pruned :: prunedOf rest
/-- Steps without the fields that no node has to fill. -/
def Pattern.prunedSteps : List (Step Pattern) → List (Step Pattern)
  | [] => []
  | ⟨field, p, quantifier, anchored⟩ :: rest =>
    ⟨if p.isGroup then none else field, p.pruned, quantifier, anchored⟩ :: prunedSteps rest
end

namespace Pattern

@[simp] theorem isGroup_pruned (p : Pattern) : p.pruned.isGroup = p.isGroup := by
  cases p <;> rfl

theorem isEmpty_prunedSteps (steps : List (Step Pattern)) :
    (prunedSteps steps).isEmpty = steps.isEmpty := by
  cases steps <;> rfl

theorem all_prunedSteps (steps : List (Step Pattern)) :
    ((prunedSteps steps).all fun s => !(s.pattern.isGroup && s.field.isSome)) = true := by
  induction steps with
  | nil => rfl
  | cons s rest ih =>
    obtain ⟨field, p, quantifier, anchored⟩ := s
    rw [prunedSteps, List.all_cons, ih, Bool.and_true]
    cases hp : p.isGroup <;> simp [hp]

theorem all_prunedOf (ps : List Pattern) : ((prunedOf ps).all fun p => !p.isGroup) = true := by
  induction ps with
  | nil => rfl
  | cons p rest ih =>
    rw [prunedOf]
    split
    · exact ih
    · rename_i hp
      rw [List.all_cons, ih, isGroup_pruned, Bool.eq_false_iff.mpr hp]
      rfl

mutual
theorem heeded_pruned : ∀ p : Pattern, p.pruned.Heeded
  | .node own test absent anchoredEnd steps => by
    rw [Heeded, pruned, Pattern.all, Bool.and_eq_true]
    exact ⟨all_prunedSteps steps, allSteps_prunedSteps steps⟩
  | .alternation own alternatives => by
    rw [Heeded, pruned, Pattern.all, Bool.and_eq_true]
    exact ⟨all_prunedOf alternatives, allOf_prunedOf alternatives⟩
  | .group own steps => by
    rw [Heeded, pruned, Pattern.all, Bool.and_eq_true]
    exact ⟨all_prunedSteps steps, allSteps_prunedSteps steps⟩
theorem allOf_prunedOf : ∀ ps : List Pattern, allOf isHeeded (prunedOf ps) = true
  | [] => rfl
  | p :: rest => by
    rw [prunedOf]
    split
    · exact allOf_prunedOf rest
    · rw [allOf, Bool.and_eq_true]
      exact ⟨heeded_pruned p, allOf_prunedOf rest⟩
theorem allSteps_prunedSteps : ∀ steps : List (Step Pattern),
    allSteps isHeeded (prunedSteps steps) = true
  | [] => rfl
  | ⟨_, p, _, _⟩ :: rest => by
    rw [prunedSteps, allSteps, Bool.and_eq_true]
    exact ⟨heeded_pruned p, allSteps_prunedSteps rest⟩
end

mutual
theorem pruned_eq_self : ∀ {p : Pattern}, p.Heeded → p.pruned = p
  | .node own test absent anchoredEnd steps, h => by
    rw [Heeded, Pattern.all, Bool.and_eq_true] at h
    rw [pruned, prunedSteps_eq_self h.1 h.2]
  | .alternation own alternatives, h => by
    rw [Heeded, Pattern.all, Bool.and_eq_true] at h
    rw [pruned, prunedOf_eq_self h.1 h.2]
  | .group own steps, h => by
    rw [Heeded, Pattern.all, Bool.and_eq_true, isHeeded, Bool.and_eq_true, List.isEmpty_iff] at h
    rw [pruned, prunedSteps_eq_self h.1.2 h.2, h.1.1]
theorem prunedOf_eq_self : ∀ {ps : List Pattern}, (ps.all fun p => !p.isGroup) = true →
    allOf isHeeded ps = true → prunedOf ps = ps
  | [], _, _ => rfl
  | p :: rest, hgroups, h => by
    rw [List.all_cons, Bool.and_eq_true, Bool.not_eq_true'] at hgroups
    rw [allOf, Bool.and_eq_true] at h
    rw [prunedOf, hgroups.1, pruned_eq_self h.1, prunedOf_eq_self hgroups.2 h.2]
    rfl
theorem prunedSteps_eq_self : ∀ {steps : List (Step Pattern)},
    (steps.all fun s => !(s.pattern.isGroup && s.field.isSome)) = true →
      allSteps isHeeded steps = true → prunedSteps steps = steps
  | [], _, _ => rfl
  | ⟨field, p, quantifier, anchored⟩ :: rest, hfields, h => by
    rw [List.all_cons, Bool.and_eq_true] at hfields
    rw [allSteps, Bool.and_eq_true] at h
    have hfield : (if p.isGroup = true then none else field) = field := by
      cases hp : p.isGroup <;> simp_all
    rw [prunedSteps, hfield, pruned_eq_self h.1, prunedSteps_eq_self hfields.2 h.2]
end

theorem pruned_eq_self_iff {p : Pattern} : p.pruned = p ↔ p.Heeded :=
  ⟨fun h => h ▸ heeded_pruned p, pruned_eq_self⟩

end Pattern

/-! ## Matches are the same -/

theorem matchNode_of_isGroup {p : Pattern} (h : p.isGroup = true) (n : Node) :
    matchNode p n = [] := by
  cases p with
  | group => rfl
  | node => contradiction
  | alternation => contradiction

/-- What steps capture is told by what the first one captures and what the others do behind it. -/
theorem matchSteps_congr {s s' : Step Pattern} {rest rest' : List (Step Pattern)}
    (hquantifier : s'.quantifier = s.quantifier) (hanchored : s'.anchored = s.anchored)
    (hfirst : matchOnce s' = matchOnce s) (hrest : matchSteps rest' = matchSteps rest) :
    matchSteps (s' :: rest') = matchSteps (s :: rest) := by
  funext nodes place captures forced
  simp only [matchSteps, hquantifier, hanchored, hfirst, hrest]

/-- A step that looks for single nodes finds what its pattern does at those that fill its field. -/
theorem matchOnce_congr {s s' : Step Pattern} (hs : s.pattern.isGroup = false)
    (hs' : s'.pattern.isGroup = false) (hfield : s'.field = s.field)
    (hpattern : matchNode s'.pattern = matchNode s.pattern) : matchOnce s' = matchOnce s := by
  funext nodes place tied
  have hfound : s'.found = s.found := by
    funext ⟨i, n⟩
    rw [Step.found, Step.found, hfield, hpattern]
  rw [matchOnce_of_isGroup hs, matchOnce_of_isGroup hs', hfound]

mutual
/-- A pattern captures the same without the parts that come to nothing. -/
theorem matchNode_pruned : ∀ p : Pattern, matchNode p.pruned = matchNode p
  | .node own test absent anchoredEnd steps => by
    funext n
    simp only [Pattern.pruned, matchNode, matchSteps_prunedSteps steps,
      Pattern.isEmpty_prunedSteps]
  | .alternation own alternatives => by
    funext n
    simp only [Pattern.pruned, matchNode, matchAny_prunedOf alternatives]
  | .group own steps => rfl
theorem matchAny_prunedOf : ∀ ps : List Pattern, matchAny (Pattern.prunedOf ps) = matchAny ps
  | [] => rfl
  | p :: rest => by
    funext n
    rw [Pattern.prunedOf]
    split
    · rename_i hp
      rw [matchAny, matchAny_prunedOf rest, matchNode_of_isGroup hp, List.nil_append]
    · rw [matchAny, matchAny, matchNode_pruned p, matchAny_prunedOf rest]
theorem matchSteps_prunedSteps : ∀ steps : List (Step Pattern),
    matchSteps (Pattern.prunedSteps steps) = matchSteps steps
  | [] => rfl
  | ⟨field, .node own test absent anchoredEnd steps, quantifier, anchored⟩ :: rest =>
    matchSteps_congr rfl rfl
      (matchOnce_congr rfl rfl rfl (matchNode_pruned (.node own test absent anchoredEnd steps)))
      (matchSteps_prunedSteps rest)
  | ⟨field, .alternation own alternatives, quantifier, anchored⟩ :: rest =>
    matchSteps_congr rfl rfl
      (matchOnce_congr rfl rfl rfl (matchNode_pruned (.alternation own alternatives)))
      (matchSteps_prunedSteps rest)
  | ⟨field, .group own steps, quantifier, anchored⟩ :: rest => by
    refine matchSteps_congr rfl rfl ?_ (matchSteps_prunedSteps rest)
    funext nodes place tied
    rw [Pattern.pruned, matchOnce_group, matchOnce_group, matchSteps_prunedSteps steps]
end

/-- A rule without the parts that come to nothing. -/
def Rule.pruned (r : Rule) : Rule := { r with pattern := r.pattern.pruned }

theorem Rule.matchAt_pruned (r : Rule) : r.pruned.matchAt = r.matchAt := by
  funext n
  obtain ⟨p, predicates, start⟩ := r
  cases p with
  | node =>
    rw [matchAt_of_isGroup rfl, matchAt_of_isGroup rfl, Rule.pruned, matchNode_pruned]
  | alternation =>
    rw [matchAt_of_isGroup rfl, matchAt_of_isGroup rfl, Rule.pruned, matchNode_pruned]
  | group own steps =>
    cases steps with
    | nil => rfl
    | cons first rest =>
      obtain ⟨field, p, quantifier, anchored⟩ := first
      simp only [Rule.matchAt, Rule.pruned, Pattern.pruned, Pattern.prunedSteps, matchNode_pruned,
        matchSteps_prunedSteps]
      -- at a group that the steps begin with nothing is found, whatever the field
      cases hp : p.isGroup with
      | false => rfl
      | true => simp [matchNode_of_isGroup hp, unique]

theorem matchesAt_pruned (rules : List Rule) : matchesAt (rules.map Rule.pruned) = matchesAt rules := by
  funext source n
  simp only [matchesAt, List.zipIdx_map, List.flatMap_map, Prod.map, Rule.matchAt_pruned]
  rfl

end Query

/-- A query without the parts that come to nothing. -/
def Query.pruned (q : Query) : Query := { q with rules := q.rules.map Query.Rule.pruned }

theorem Query.run_pruned (q : Query) (n : Node) (source : Bytes) (range : Option (Nat × Nat)) :
    q.pruned.run n source range = q.run n source range := by
  rw [Query.run, Query.run, Query.pruned, matchesAt_pruned]

open Query in
theorem Query.pruned_eq_self_iff {q : Query} :
    q.pruned = q ↔ ∀ r ∈ q.rules, r.pattern.Heeded := by
  obtain ⟨l, rules, names⟩ := q
  simp only [Query.pruned, Query.mk.injEq, true_and, and_true]
  nth_rewrite 2 [← List.map_id rules]
  rw [List.map_inj_left]
  refine forall₂_congr fun r _ => ?_
  rw [← Pattern.pruned_eq_self_iff]
  obtain ⟨p, predicates, start⟩ := r
  simp [Rule.pruned]

open Query in
/-- What is accepted has no part at the top that comes to nothing: a group there has no captures
and starts with a single pattern for one node.  Below that nothing is refused; but without the parts
that come to nothing all matches are the same, at every node and in every range. -/
theorem Query.compile_pruned {l : Language} {source : String} {q : Query}
    (h : Query.compile l source = .ok q) :
    (∀ r ∈ q.rules, ∀ own steps, r.pattern = .group own steps → own = [] ∧
      ∃ first rest, steps = first :: rest ∧ first.quantifier = .one ∧
        first.pattern.isGroup = false) ∧
    (∀ r ∈ q.pruned.rules, r.pattern.Heeded) ∧
    (q.pruned = q ↔ ∀ r ∈ q.rules, r.pattern.Heeded) ∧
    ∀ n source range, q.pruned.run n source range = q.run n source range := by
  obtain ⟨s, hs, -⟩ := Query.compile_read h
  refine ⟨fun r hr own steps hgroup => ?_, ?_, Query.pruned_eq_self_iff, q.run_pruned⟩
  · have hmatchable := (hs.wellFormed r hr).matchable
    rw [hgroup] at hmatchable
    cases steps with
    | nil => contradiction
    | cons first rest =>
      simp only [isMatchable, Bool.and_eq_true, List.isEmpty_iff, decide_eq_true_eq,
        Bool.not_eq_true'] at hmatchable
      exact ⟨hmatchable.1.1, first, rest, rfl, hmatchable.1.2, hmatchable.2⟩
  · exact List.forall_mem_map.mpr fun r _ => Pattern.heeded_pruned r.pattern

open Query in
set_option maxRecDepth 100000 in
/-- A capture of a group, and a group as an alternative, are accepted. -/
theorem Query.compile_pruned_marks : ∃ l q, Language.ofGrammar 0 .marks none = .ok l ∧
    Query.compile l "(p ((x) (y)) @g [((x) (y)) (z)] @m)" = .ok q ∧
    q.captureNames = ["g", "m"] ∧ q.pruned ≠ q ∧ (∃ r ∈ q.rules, ¬r.pattern.Heeded) ∧
    ∀ n source range, q.pruned.run n source range = q.run n source range := by
  have hcompiled : (Language.ofGrammar 0 .marks none).toOption.any (fun l =>
      (Query.compile l "(p ((x) (y)) @g [((x) (y)) (z)] @m)").toOption.any fun q =>
        q.captureNames == ["g", "m"] && q.rules.any fun r =>
          !r.pattern.all Pattern.isHeeded) = true := by
    decide +kernel
  obtain ⟨l, hl, hcompiled⟩ := exists_ok hcompiled
  obtain ⟨q, hq, hcompiled⟩ := exists_ok hcompiled
  obtain ⟨hnames, hrule⟩ := Bool.and_eq_true_iff.mp hcompiled
  obtain ⟨r, hr, hunheeded⟩ := List.any_eq_true.mp hrule
  rw [Bool.not_eq_true'] at hunheeded
  have hr' : ¬r.pattern.Heeded := Bool.eq_false_iff.mp hunheeded
  obtain ⟨-, -, hself, hrun⟩ := Query.compile_pruned hq
  exact ⟨l, q, hl, hq, beq_iff_eq.mp hnames, fun h => hr' (hself.mp h r hr), ⟨r, hr, hr'⟩, hrun⟩

end Glr
