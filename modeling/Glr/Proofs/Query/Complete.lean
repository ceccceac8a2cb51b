import Mathlib.Data.Nat.Find
import Glr.Proofs.Query.Matches

/-!
# Glr.Proofs.Query.Complete

What a query finds.  Wherever a pattern without groups stands in such a way that each repeated
step is used at the first node that fits, it is found; the ways in which it could stand otherwise
are not looked at.

```
(p (x)+ . (y))      x  z  x  y      stands at the last two, (x)+ is looked for at the first
```

This only matters where an anchor stands behind a repetition.  Without that a pattern is found at
every node at which it stands.

Of a repetition only the longest run with which the rest can match is kept, and an optional
step is left out only if it cannot be used.  No match is lost by that: what matches from a place
on can also match from a later place, and end there no earlier, if anything matches from there.
-/

namespace Glr.Query

variable {Begins : Step Pattern → List Node → Nat → Nat → Prop} {nodes : List Node} {n : Node}
  {s : Step Pattern} {rest steps : List (Step Pattern)} {tied : Bool} {i j k q e count : Nat}
  {found : Captures}

/-! ## Parts of patterns -/

mutual
/-- A test holds for a pattern and all patterns in it. -/
def Pattern.all (f : Pattern → Bool) : Pattern → Bool
  | .node own test absent anchoredEnd steps =>
    f (.node own test absent anchoredEnd steps) && allSteps f steps
  | .alternation own alternatives => f (.alternation own alternatives) && allOf f alternatives
  | .group own steps => f (.group own steps) && allSteps f steps
/-- A test holds for some patterns and all patterns in them. -/
def Pattern.allOf (f : Pattern → Bool) : List Pattern → Bool
  | [] => true
  | p :: rest => p.all f && allOf f rest
/-- A test holds for the patterns of some steps and all patterns in them. -/
def Pattern.allSteps (f : Pattern → Bool) : List (Step Pattern) → Bool
  | [] => true
  | ⟨_, p, _, _⟩ :: rest => p.all f && allSteps f rest
end

/-- There is no group in a pattern. -/
def Pattern.Plain (p : Pattern) : Prop := p.all (fun p => !p.isGroup) = true

/-- Whether an anchor stands behind a step that may be repeated. -/
def anchorsRepetition (anchoredEnd : Bool) : List (Step Pattern) → Bool
  | [] => false
  | s :: rest =>
    s.quantifier.repeats && (anchoredEnd || rest.any Step.anchored)
      || anchorsRepetition anchoredEnd rest

/-- Whether no anchor stands behind a repetition among the steps of a node. -/
def Pattern.isFree : Pattern → Bool
  | .node _ _ _ anchoredEnd steps => !anchorsRepetition anchoredEnd steps
  | _ => true

/-- In the steps of no node an anchor stands behind a repetition. -/
def Pattern.Free (p : Pattern) : Prop := p.all Pattern.isFree = true

theorem Pattern.isGroup_of_all {p : Pattern} (h : p.all (fun p => !p.isGroup) = true) :
    p.isGroup = false := by
  cases p with
  | node => rfl
  | alternation => rfl
  | group =>
    rw [Pattern.all] at h
    simp [Pattern.isGroup] at h

theorem Pattern.allSteps_eq (f : Pattern → Bool) (steps : List (Step Pattern)) :
    Pattern.allSteps f steps = steps.all fun s => s.pattern.all f := by
  induction steps with
  | nil => rfl
  | cons s rest ih => rw [Pattern.allSteps, ih, List.all_cons]

/-! ## From a later place -/

/-- A step whose pattern is about one node is placed at a node. -/
theorem Placed.exists_node (hs : s.pattern.isGroup = false)
    (h : Placed Begins s nodes tied i j found) :
    ∃ p n, j = p + 1 ∧ i ≤ p ∧ nodes[p]? = some n ∧ (tied = true → Unnamed nodes i p) ∧ s.Fills n ∧
      (s.quantifier.repeats = true → Begins s nodes i p) ∧ Embeds Begins s.pattern n found := by
  cases h with
  | node le node gap fills begins stands =>
    exact ⟨_, _, rfl, le, node, gap, fills, begins, stands⟩
  | group pattern =>
    rw [pattern] at hs
    contradiction

theorem Placed.lt (hs : s.pattern.isGroup = false) (h : Placed Begins s nodes tied i j found) :
    i < j ∧ j ≤ nodes.length := by
  obtain ⟨p, n, rfl, hle, hn, -⟩ := h.exists_node hs
  exact ⟨Nat.lt_succ_of_le hle, (List.getElem?_eq_some_iff.mp hn).1⟩

theorem Uses.le (hs : s.pattern.isGroup = false) (h : Uses Begins s nodes count tied i j found) :
    i + count ≤ j ∧ (count ≠ 0 → j ≤ nodes.length) := by
  induction count generalizing tied i found with
  | zero =>
    cases h
    exact ⟨Nat.le_refl _, fun h => absurd rfl h⟩
  | succ count ih =>
    cases h with
    | more placed uses =>
      have hplaced := placed.lt hs
      obtain ⟨hle, hlength⟩ := ih uses
      refine ⟨by omega, fun _ => ?_⟩
      cases count with
      | zero =>
        cases uses
        exact hplaced.2
      | succ count => exact hlength (Nat.succ_ne_zero count)

/-- What is tied is placed where it could be without that. -/
theorem Uses.loosen (hs : s.pattern.isGroup = false)
    (h : Uses Begins s nodes count true i j found) :
    Uses Begins s nodes count tied i j found := by
  cases h with
  | none => exact .none
  | more placed uses =>
    obtain ⟨p, n, rfl, hle, hn, hgap, hfills, hbegins, hstands⟩ := placed.exists_node hs
    exact .more (.node hle hn (fun _ => hgap rfl) hfills hbegins hstands) uses

theorem FirstFound.later (h : FirstFound s nodes i j) (hiq : i ≤ q) : FirstFound s nodes q j :=
  fun k m hqk hkj hm hfills => h k m (Nat.le_trans hiq hqk) hkj hm hfills

/-- The uses of a step that go beyond a place are uses from there. -/
theorem Uses.later (hs : s.pattern.isGroup = false)
    (h : Uses FirstFound s nodes count tied i e found) (hiq : i ≤ q) :
    e ≤ q ∨ ∃ count' found', 1 ≤ count' ∧ count' ≤ count ∧
      Uses FirstFound s nodes count' tied q e found' := by
  induction count generalizing tied i found with
  | zero =>
    cases h
    exact .inl hiq
  | succ count ih =>
    cases h with
    | @more _ _ _ _ _ _ _ first more placed uses =>
      obtain ⟨p, n, rfl, hle, hn, hgap, hfills, hbegins, hstands⟩ := placed.exists_node hs
      rcases Nat.lt_or_ge p q with hpq | hqp
      · refine (ih uses hpq).imp_right ?_
        rintro ⟨count', found', hpos, hle', huses⟩
        exact ⟨count', found', hpos, Nat.le_succ_of_le hle', huses.loosen hs⟩
      · have hplaced : Placed FirstFound s nodes tied q (p + 1) first :=
          .node hqp hn (fun ht => (hgap ht).mono hiq (Nat.le_refl p)) hfills
            (fun hr => (hbegins hr).later hiq) hstands
        exact .inr ⟨count + 1, _, Nat.le_add_left 1 count, Nat.le_refl _, .more hplaced uses⟩

theorem Quantifier.Allows.fewer {quantifier : Quantifier} {count' : Nat}
    (h : quantifier.Allows count) (hpos : 1 ≤ count') (hle : count' ≤ count) :
    quantifier.Allows count' := by
  cases quantifier with
  | one => exact Nat.le_antisymm (Nat.le_trans hle (Nat.le_of_eq h)) hpos
  | zeroOrOne => exact Nat.le_trans hle h
  | zeroOrMore => trivial
  | oneOrMore => exact hpos

/-- If steps can stand from a place on and also from a later one, then from the later one they
can end no earlier than from the first. -/
theorem Spread.later (hsteps : ∀ s ∈ steps, s.pattern.isGroup = false) {e' : Nat}
    {found' : Captures} (h : Spread FirstFound steps nodes false i e found)
    (h' : Spread FirstFound steps nodes false q e' found') (hiq : i ≤ q) :
    ∃ stop all, Spread FirstFound steps nodes false q stop all ∧ e ≤ stop := by
  induction steps generalizing i q found found' with
  | nil =>
    cases h
    exact ⟨q, [], .nil, hiq⟩
  | cons s rest ih =>
    rw [List.forall_mem_cons] at hsteps
    cases h with
    | cons uses allowed spread =>
      cases h' with
      | cons uses' allowed' spread' =>
        rcases uses.later hsteps.1 hiq with hle | ⟨count', all, hpos, hle, huses⟩
        · have hle' := Nat.le_trans hle
            (Nat.le_trans (Nat.le_add_right _ _) (uses'.le hsteps.1).1)
          obtain ⟨stop, all, hspread, hstop⟩ := ih hsteps.2 spread spread' hle'
          exact ⟨stop, _, .cons uses' allowed' hspread, hstop⟩
        · exact ⟨e, _, .cons huses (allowed.fewer hpos hle) spread, Nat.le_refl e⟩

/-! ## Runs of a step -/

theorem le_of_mem_repeated {once : Nat → Bool → Option (Nat × Captures)} {fuel : Nat}
    {captures all : Captures} (h : (j, all) ∈ repeated once fuel tied i captures) : i ≤ j := by
  induction fuel generalizing tied i captures with
  | zero => exact Nat.le_of_eq (Prod.mk.inj (List.mem_singleton.mp h)).1.symm
  | succ fuel ih =>
    rcases List.mem_cons.mp h with h | h
    · exact Nat.le_of_eq (Prod.mk.inj h).1.symm
    · split at h
      · split at h
        · contradiction
        · rename_i hlt
          exact Nat.le_trans (Nat.le_of_lt (Nat.lt_of_not_le hlt)) (ih h)
      · contradiction

/-- Longer runs end later. -/
theorem repeated_le {once : Nat → Bool → Option (Nat × Captures)} {fuel c d : Nat}
    {captures all all' : Captures} (hcd : c ≤ d)
    (hc : (repeated once fuel tied i captures)[c]? = some (j, all))
    (hd : (repeated once fuel tied i captures)[d]? = some (k, all')) : j ≤ k := by
  induction fuel generalizing tied i captures c d with
  | zero =>
    cases c with
    | zero =>
      obtain ⟨rfl, -⟩ := Prod.mk.inj (Option.some.inj hc)
      exact le_of_mem_repeated (List.mem_of_getElem? hd)
    | succ c => contradiction
  | succ fuel ih =>
    cases c with
    | zero =>
      obtain ⟨rfl, -⟩ := Prod.mk.inj (Option.some.inj hc)
      exact le_of_mem_repeated (List.mem_of_getElem? hd)
    | succ c =>
      obtain ⟨d, rfl⟩ := Nat.exists_eq_add_of_le' (Nat.lt_of_lt_of_le (Nat.succ_pos c) hcd)
      rw [repeated, List.getElem?_cons_succ] at hc hd
      split at hc
      · split at hc
        · contradiction
        · rename_i hnext hlt
          simp only [hnext, if_neg hlt] at hd
          exact ih (Nat.le_of_succ_le_succ hcd) hc hd
      · contradiction

/-- A step that may be repeated is found first where it is placed. -/
theorem Placed.exists_head? (hs : s.pattern.isGroup = false) (hr : s.quantifier.repeats = true)
    (hfits : ∀ {n found}, Embeds FirstFound s.pattern n found → matchNode s.pattern n ≠ [])
    (h : Placed FirstFound s nodes tied i j found) :
    ∃ more, (matchOnce s nodes i tied).head? = some (j, more) := by
  obtain ⟨p, n, rfl, hle, hn, hgap, hfills, hbegins, hstands⟩ := h.exists_node hs
  rw [matchOnce_of_isGroup hs]
  have hfound {k : Nat} {m : Node} (hfills : s.Fills m) (hne : matchNode s.pattern m ≠ []) :
      s.found (k, m) ≠ [] := by
    obtain ⟨captures, hcaptures⟩ := List.exists_mem_of_ne_nil _ hne
    exact List.ne_nil_of_mem (Step.mem_found.mpr ⟨rfl, hfills, hcaptures⟩)
  have hne : (reachable tied i (nodes.drop i)).flatMap s.found ≠ [] := by
    intro hnil
    exact hfound hfills (hfits hstands)
      (List.flatMap_eq_nil_iff.mp hnil _ (mem_reachable.mpr ⟨hle, hn, hgap⟩))
  obtain ⟨⟨place, more⟩, hhead⟩ := Option.isSome_iff_exists.mp (List.isSome_head?.mpr hne)
  obtain ⟨k, m, hik, hm, -, hmem, hfirst⟩ := exists_of_head?_reachable hhead
  obtain ⟨rfl, hfills', hmem⟩ := Step.mem_found.mp hmem
  -- both nodes are the first that fits
  have hkp : k = p := by
    refine Nat.le_antisymm (Nat.le_of_not_lt fun hpk => ?_) (Nat.le_of_not_lt fun hkp => ?_)
    · exact hfound hfills (hfits hstands) (hfirst p n hle hpk hn)
    · exact List.ne_nil_of_mem hmem (hbegins hr k m hik hkp hm hfills')
  exact ⟨more, hkp ▸ hhead⟩

/-- The uses of a step that may be repeated are among its runs. -/
theorem Uses.exists_repeated (captures : Captures) (hs : s.pattern.isGroup = false)
    (hr : s.quantifier.repeats = true)
    (hfits : ∀ {n found}, Embeds FirstFound s.pattern n found → matchNode s.pattern n ≠ [])
    {fuel : Nat} (h : Uses FirstFound s nodes count tied i j found)
    (hfuel : count ≤ fuel) :
    ∃ all, (repeated (fun place anchored => (matchOnce s nodes place anchored).head?) fuel tied i
      captures)[count]? = some (j, all) := by
  induction count generalizing tied i found captures fuel with
  | zero =>
    cases h
    cases fuel <;> exact ⟨captures, rfl⟩
  | succ count ih =>
    obtain ⟨fuel, rfl⟩ := Nat.exists_eq_add_of_le' (Nat.lt_of_lt_of_le (Nat.succ_pos count) hfuel)
    cases h with
    | more placed uses =>
      obtain ⟨more, hhead⟩ := placed.exists_head? hs hr hfits
      rw [repeated, List.getElem?_cons_succ, hhead]
      simp only
      rw [if_neg (Nat.not_le.mpr (placed.lt hs).1)]
      exact ih _ uses (Nat.le_of_succ_le_succ hfuel)

/-- From behind, what is found is found no earlier than at a place where something is found. -/
theorem exists_firstNonempty_reverse {α β : Type} {f : α → List β} {xs : List α} {c : Nat} {a : α}
    (ha : xs[c]? = some a) (hne : f a ≠ []) :
    ∃ d b, c ≤ d ∧ xs[d]? = some b ∧ f b ≠ [] ∧ firstNonempty f xs.reverse = f b := by
  rcases firstNonempty_spec f xs.reverse with ⟨-, hall⟩ | ⟨before, b, after, hxs, hb, heq, hbefore⟩
  · exact absurd (hall a (List.mem_reverse.mpr (List.mem_of_getElem? ha))) hne
  · obtain rfl : xs = after.reverse ++ b :: before.reverse := by
      rw [← List.reverse_reverse xs, hxs]
      simp
    refine ⟨after.length, b, Nat.le_of_not_lt fun hlt => hne (hbefore a ?_), ?_, hb, heq⟩
    · rw [List.getElem?_append_right (by simp; omega), List.length_reverse] at ha
      obtain ⟨c', hc'⟩ := Nat.exists_eq_add_of_lt hlt
      rw [show c - after.length = c' + 1 by omega, List.getElem?_cons_succ] at ha
      exact List.mem_reverse.mp (List.mem_of_getElem? ha)
    · rw [List.getElem?_append_right (by simp), List.length_reverse, Nat.sub_self]
      rfl

/-! ## Every place is found -/

/-- A step finds the places at which it stands by itself. -/
theorem Placed.exists_mem (hs : s.pattern.isGroup = false)
    (hfits : ∀ {n found}, Embeds FirstFound s.pattern n found → matchNode s.pattern n ≠ [])
    (h : Placed FirstFound s nodes tied i j found) :
    ∃ more, (j, more) ∈ matchOnce s nodes i tied := by
  obtain ⟨p, n, rfl, hle, hn, hgap, hfills, -, hstands⟩ := h.exists_node hs
  obtain ⟨more, hmore⟩ := List.exists_mem_of_ne_nil _ (hfits hstands)
  rw [matchOnce_of_isGroup hs]
  exact ⟨more, List.mem_flatMap.mpr
    ⟨(p, n), mem_reachable.mpr ⟨hle, hn, hgap⟩, Step.mem_found.mpr ⟨rfl, hfills, hmore⟩⟩⟩

/-- Steps find a place to end that is no earlier than any at which they can end. -/
def Finds (steps : List (Step Pattern)) : Prop :=
  ∀ ⦃nodes tied i e found⦄, Spread FirstFound steps nodes tied i e found → ∀ captures,
    ∃ stop all, (stop, all) ∈ matchSteps steps nodes i captures tied ∧ e ≤ stop

/-- A step that is used once is placed. -/
theorem Uses.placed (h : Uses Begins s nodes 1 tied i j found) :
    ∃ found, Placed Begins s nodes tied i j found := by
  cases h with
  | more placed uses =>
    cases uses
    exact ⟨_, placed⟩

/-- What goes on from a later place where something is found ends no earlier. -/
theorem Finds.later (hrest : Finds rest) (hsteps : ∀ s ∈ rest, s.pattern.isGroup = false)
    {a q : Nat} {more : Captures} (hspread : Spread FirstFound rest nodes false a e more)
    (haq : a ≤ q) (hne : matchSteps rest nodes q found false ≠ []) :
    ∃ stop all, (stop, all) ∈ matchSteps rest nodes q found false ∧ e ≤ stop := by
  obtain ⟨⟨stop, all⟩, hmem⟩ := List.exists_mem_of_ne_nil _ hne
  obtain ⟨_, -, hspread'⟩ := spread_of_mem_matchSteps hmem
  obtain ⟨stop, _, hspread, hle⟩ := hspread.later hsteps hspread' haq
  obtain ⟨stop', all, hmem, hle'⟩ := hrest hspread found
  exact ⟨stop', all, hmem, Nat.le_trans hle hle'⟩

/-- A step that is used once is found, and the rest after it. -/
theorem Finds.used (hrest : Finds rest) (hs : s.pattern.isGroup = false)
    (hfits : ∀ {n found}, Embeds FirstFound s.pattern n found → matchNode s.pattern n ≠ [])
    {a : Nat} {first more : Captures} (huses : Uses FirstFound s nodes 1 tied i a first)
    (hspread : Spread FirstFound rest nodes false a e more) (captures : Captures) :
    ∃ stop all, (stop, all) ∈ (matchOnce s nodes i tied).flatMap
      (fun found => matchSteps rest nodes found.1 (captures ++ found.2) false) ∧ e ≤ stop := by
  obtain ⟨_, hplaced⟩ := huses.placed
  obtain ⟨first, hfirst⟩ := hplaced.exists_mem hs hfits
  obtain ⟨stop, all, hmem, hle⟩ := hrest hspread (captures ++ first)
  exact ⟨stop, all, List.mem_flatMap.mpr ⟨(a, first), hfirst, hmem⟩, hle⟩

/-- The longest run of a repeated step after which the rest is found is no shorter than one after
which the rest stands. -/
theorem Finds.repeated (hrest : Finds rest) (hsteps : ∀ s ∈ rest, s.pattern.isGroup = false)
    (hs : s.pattern.isGroup = false) (hr : s.quantifier.repeats = true)
    (hfits : ∀ {n found}, Embeds FirstFound s.pattern n found → matchNode s.pattern n ≠ [])
    {a count least : Nat} {first more : Captures} (hleast : least ≤ count)
    (huses : Uses FirstFound s nodes count tied i a first)
    (hspread : Spread FirstFound rest nodes false a e more) (captures : Captures) :
    ∃ stop all, (stop, all) ∈ firstNonempty
      (fun found => matchSteps rest nodes found.1 (captures ++ found.2) false)
      ((Query.repeated (fun place anchored => (matchOnce s nodes place anchored).head?)
        (nodes.length + 1) tied i []).drop least).reverse ∧ e ≤ stop := by
  have hcount : count ≤ nodes.length + 1 := by
    have := huses.le hs
    omega
  obtain ⟨first, hfirst⟩ := huses.exists_repeated [] hs hr hfits hcount
  obtain ⟨stop, all, hmem, -⟩ := hrest hspread (captures ++ first)
  have hrun : ((Query.repeated (fun place anchored => (matchOnce s nodes place anchored).head?)
      (nodes.length + 1) tied i []).drop least)[count - least]? = some (a, first) := by
    rw [List.getElem?_drop, Nat.add_sub_cancel' hleast, hfirst]
  obtain ⟨d, ⟨q, longest⟩, hle, hq, hne, heq⟩ := exists_firstNonempty_reverse
    (f := fun found => matchSteps rest nodes found.1 (captures ++ found.2) false) hrun
    (List.ne_nil_of_mem hmem)
  rw [List.getElem?_drop] at hq
  rw [heq]
  exact hrest.later hsteps hspread (repeated_le (by omega) hfirst hq) hne

theorem finds_cons (hs : s.pattern.isGroup = false)
    (hfits : ∀ {n found}, Embeds FirstFound s.pattern n found → matchNode s.pattern n ≠ [])
    (hsteps : ∀ s ∈ rest, s.pattern.isGroup = false) (hrest : Finds rest) :
    Finds (s :: rest) := by
  intro nodes tied i e found h captures
  cases h with
  | @cons _ _ _ _ count _ a _ first more uses allowed spread =>
    rw [matchSteps]
    cases hq : s.quantifier with
    | one =>
      rw [hq] at allowed
      obtain rfl : count = 1 := allowed
      exact hrest.used hs hfits uses spread captures
    | zeroOrOne =>
      rw [hq] at allowed
      simp only
      rcases Nat.le_one_iff_eq_zero_or_eq_one.mp allowed with rfl | rfl
      · cases uses
        split
        · exact hrest spread _
        · rename_i hsome
          rw [List.isEmpty_iff] at hsome
          obtain ⟨⟨_, _⟩, hmem⟩ := List.exists_mem_of_ne_nil _ hsome
          obtain ⟨⟨q, used⟩, hused, hgoOn⟩ := List.mem_flatMap.mp hmem
          have hlt := (placed_of_mem hs embeds_of_mem_matchNode hused
            (by simp [hq, Quantifier.repeats])).lt hs
          obtain ⟨stop, all, hstop, hle⟩ :=
            hrest.later hsteps spread (Nat.le_of_lt hlt.1) (List.ne_nil_of_mem hgoOn)
          exact ⟨stop, all, List.mem_flatMap.mpr ⟨(q, used), hused, hstop⟩, hle⟩
      · obtain ⟨stop, all, hmem, hle⟩ := hrest.used hs hfits uses spread captures
        rw [if_neg]
        · exact ⟨stop, all, hmem, hle⟩
        · rw [List.isEmpty_iff]
          exact List.ne_nil_of_mem hmem
    | zeroOrMore =>
      exact hrest.repeated hsteps hs (by rw [hq]; rfl) hfits (Nat.zero_le _) uses spread captures
    | oneOrMore =>
      rw [hq] at allowed
      exact hrest.repeated hsteps hs (by rw [hq]; rfl) hfits allowed uses spread captures

theorem unique_ne_nil {all : List Captures} (h : all ≠ []) : unique all ≠ [] := by
  have key (xs out : List Captures) (hout : out ≠ []) : xs.foldl addUnique out ≠ [] := by
    induction xs generalizing out with
    | nil => exact hout
    | cons x xs ih =>
      refine ih _ ?_
      unfold addUnique
      split
      · exact hout
      · simp
  cases all with
  | nil => contradiction
  | cons x xs => exact key xs _ (by simp [addUnique])

theorem any_drop_of_unnamed (h : Unnamed nodes i nodes.length) :
    (nodes.drop i).any Node.isNamed = false := by
  rw [List.any_eq_false]
  intro n hn
  obtain ⟨k, hk⟩ := List.mem_iff_getElem?.mp hn
  rw [List.getElem?_drop] at hk
  exact Bool.eq_false_iff.mp
    (h (i + k) n (Nat.le_add_right i k) (List.getElem?_eq_some_iff.mp hk).1 hk)

mutual
/-- A pattern without groups is found where it stands with its repetitions at the first nodes
that fit. -/
theorem matchNode_ne_nil : ∀ {p : Pattern} {n : Node} {found : Captures}, p.Plain →
    Embeds FirstFound p n found → matchNode p n ≠ []
  | .node own test absent anchoredEnd steps, n, _, hp, .node kind unfilled spread last => by
    rw [matchNode, if_neg]
    · simp only
      split
      · exact List.cons_ne_nil _ _
      · rw [Pattern.Plain, Pattern.all, Bool.and_eq_true] at hp
        obtain ⟨stop, all, hmem, hle⟩ := finds_of_plain hp.2 spread []
        refine unique_ne_nil (List.ne_nil_of_mem (List.mem_map_of_mem
          (List.mem_filter.mpr ⟨hmem, ?_⟩)))
        rw [Bool.not_eq_true', Bool.and_eq_false_iff]
        by_cases hend : anchoredEnd = true
        · exact .inr (any_drop_of_unnamed ((last hend).mono hle (Nat.le_refl _)))
        · exact .inl (Bool.eq_false_iff.mpr hend)
    · rw [kind, Bool.not_true, Bool.false_or, List.any_eq_true]
      rintro ⟨f, hf, hsome⟩
      rw [unfilled f hf] at hsome
      contradiction
  | .alternation own alternatives, n, _, hp, .alternation mem stands => by
    rw [Pattern.Plain, Pattern.all, Bool.and_eq_true] at hp
    rw [matchNode]
    refine unique_ne_nil (mt List.map_eq_nil_iff.mp ?_)
    exact matchAny_ne_nil hp.2 mem stands
theorem matchAny_ne_nil : ∀ {ps : List Pattern} {p : Pattern} {n : Node} {found : Captures},
    Pattern.allOf (fun p => !p.isGroup) ps = true → p ∈ ps → Embeds FirstFound p n found →
      matchAny ps n ≠ []
  | q :: rest, p, n, _, hps, hp, h => by
    rw [Pattern.allOf, Bool.and_eq_true] at hps
    rw [matchAny, Ne, List.append_eq_nil_iff, not_and_or]
    rcases List.mem_cons.mp hp with heq | hp
    · exact .inl (matchNode_ne_nil hps.1 (heq ▸ h))
    · exact .inr (matchAny_ne_nil hps.2 hp h)
theorem finds_of_plain : ∀ {steps : List (Step Pattern)},
    Pattern.allSteps (fun p => !p.isGroup) steps = true → Finds steps
  | [], _ => by
    intro nodes tied i e found h captures
    cases h
    exact ⟨i, captures, by rw [matchSteps]; exact List.mem_singleton_self _, Nat.le_refl i⟩
  | ⟨field, p, quantifier, anchored⟩ :: rest, h => by
    rw [Pattern.allSteps, Bool.and_eq_true] at h
    refine finds_cons (Pattern.isGroup_of_all h.1) (fun hstands => matchNode_ne_nil (p := p) h.1 hstands)
      (fun s hs => ?_) (finds_of_plain h.2)
    rw [Pattern.allSteps_eq, List.all_eq_true] at h
    exact Pattern.isGroup_of_all (h.2 s hs)
end

/-- For patterns without groups it is just this that makes a match. -/
theorem matchNode_ne_nil_iff {p : Pattern} (hp : p.Plain) :
    matchNode p n ≠ [] ↔ ∃ found, Embeds FirstFound p n found := by
  constructor
  · intro h
    obtain ⟨found, hfound⟩ := List.exists_mem_of_ne_nil _ h
    exact ⟨found, embeds_of_mem_matchNode hfound⟩
  · rintro ⟨found, h⟩
    exact matchNode_ne_nil hp h

/-! ## Anchors before repetitions -/

/-- What stands on nodes without anchors can begin at an earlier place. -/
theorem Spread.earlier (hsteps : ∀ s ∈ steps, s.pattern.isGroup = false)
    (hloose : ∀ s ∈ steps, s.anchored = false)
    (h : Spread Anywhere steps nodes false i e found) (hqi : q ≤ i) :
    ∃ stop, Spread Anywhere steps nodes false q stop found := by
  induction steps generalizing i q found with
  | nil =>
    cases h
    exact ⟨q, .nil⟩
  | cons s rest ih =>
    rw [List.forall_mem_cons] at hsteps hloose
    cases h with
    | cons uses allowed spread =>
      rw [hloose.1, Bool.false_or] at uses
      cases uses with
      | none =>
        obtain ⟨stop, hspread⟩ := ih hsteps.2 hloose.2 spread hqi
        exact ⟨stop, .cons .none allowed hspread⟩
      | more placed uses =>
        obtain ⟨p, n, rfl, hle, hn, -, hfills, -, hstands⟩ := placed.exists_node hsteps.1
        refine ⟨e, .cons (.more ?_ uses) allowed spread⟩
        exact .node (Nat.le_trans hqi hle) hn (by simp [hloose.1]) hfills (fun _ => trivial) hstands

/-- Where a node fits there is a first one that does. -/
theorem exists_firstFound (hle : i ≤ k) (hn : nodes[k]? = some n) (hfills : s.Fills n)
    (hne : matchNode s.pattern n ≠ []) :
    ∃ p m, i ≤ p ∧ p ≤ k ∧ nodes[p]? = some m ∧ s.Fills m ∧ matchNode s.pattern m ≠ [] ∧
      FirstFound s nodes i p := by
  classical
  have hex : ∃ p, i ≤ p ∧ ∃ m, nodes[p]? = some m ∧ s.Fills m ∧ matchNode s.pattern m ≠ [] :=
    ⟨k, hle, n, hn, hfills, hne⟩
  obtain ⟨hip, m, hm, hmfills, hmne⟩ := Nat.find_spec hex
  refine ⟨Nat.find hex, m, hip, Nat.find_min' hex ⟨hle, n, hn, hfills, hne⟩, hm, hmfills, hmne, ?_⟩
  intro p m' hip hlt hm' hmfills'
  by_contra hmne'
  exact Nat.find_min hex hlt ⟨hip, m', hm', hmfills', hmne'⟩

theorem Uses.exists_firstFound (hs : s.pattern.isGroup = false)
    (hfits : ∀ {n found}, Embeds Anywhere s.pattern n found →
      ∃ found', Embeds FirstFound s.pattern n found')
    (hr : s.quantifier.repeats = false) (h : Uses Anywhere s nodes count tied i j found) :
    ∃ found', Uses FirstFound s nodes count tied i j found' := by
  induction count generalizing tied i found with
  | zero =>
    cases h
    exact ⟨[], .none⟩
  | succ count ih =>
    cases h with
    | more placed uses =>
      obtain ⟨p, n, rfl, hle, hn, hgap, hfills, -, hstands⟩ := placed.exists_node hs
      obtain ⟨first, hstands⟩ := hfits hstands
      obtain ⟨more, huses⟩ := ih uses
      exact ⟨first ++ more, .more (.node hle hn hgap hfills (by simp [hr]) hstands) huses⟩

/-- Where a step stands somewhere, it can be used once at the first node that fits. -/
theorem Placed.exists_firstFound (hplain : s.pattern.Plain)
    (hfits : ∀ {n found}, Embeds Anywhere s.pattern n found →
      ∃ found', Embeds FirstFound s.pattern n found')
    (h : Placed Anywhere s nodes tied i j found) :
    ∃ p once, p ≤ j ∧ Uses FirstFound s nodes 1 tied i p once := by
  obtain ⟨k, n, rfl, hle, hn, hgap, hfills, -, hstands⟩ :=
    h.exists_node (Pattern.isGroup_of_all hplain)
  obtain ⟨found', hstands⟩ := hfits hstands
  obtain ⟨p, m, hip, hpk, hm, hmfills, hmne, hfirst⟩ := Query.exists_firstFound hle hn hfills
    (matchNode_ne_nil hplain hstands)
  obtain ⟨once, honce⟩ := List.exists_mem_of_ne_nil _ hmne
  have hplaced : Placed FirstFound s nodes tied i (p + 1) once :=
    .node hip hm (fun ht => (hgap ht).mono (Nat.le_refl i) hpk) hmfills (fun _ => hfirst)
      (embeds_of_mem_matchNode honce)
  exact ⟨p + 1, once ++ [], Nat.succ_le_succ hpk, .more hplaced .none⟩

/-- Without an anchor behind a repetition, steps that stand on nodes stand there with each repeated
step at the first node that fits. -/
theorem Spread.exists_firstFound {anchoredEnd : Bool} (hplain : ∀ s ∈ steps, s.pattern.Plain)
    (hfits : ∀ s ∈ steps, ∀ {n found}, Embeds Anywhere s.pattern n found →
      ∃ found', Embeds FirstFound s.pattern n found')
    (hfree : anchorsRepetition anchoredEnd steps = false)
    (h : Spread Anywhere steps nodes tied i e found) :
    ∃ stop all, Spread FirstFound steps nodes tied i stop all ∧ (anchoredEnd = true → stop = e) := by
  have hsteps : ∀ s ∈ steps, s.pattern.isGroup = false :=
    fun s hs => Pattern.isGroup_of_all (hplain s hs)
  induction steps generalizing tied i e found with
  | nil =>
    cases h
    exact ⟨_, [], .nil, fun _ => rfl⟩
  | cons s rest ih =>
    rw [List.forall_mem_cons] at hsteps hplain hfits
    rw [anchorsRepetition, Bool.or_eq_false_iff] at hfree
    cases h with
    | @cons _ _ _ _ count _ a _ first more uses allowed spread =>
      have hgoOn {first : Captures}
          (huses : Uses FirstFound s nodes count (s.anchored || tied) i a first) :
          ∃ stop all, Spread FirstFound (s :: rest) nodes tied i stop all ∧
            (anchoredEnd = true → stop = e) := by
        obtain ⟨stop, all, hspread, hstop⟩ := ih hplain.2 hfits.2 hfree.2 spread hsteps.2
        exact ⟨stop, first ++ all, .cons huses allowed hspread, hstop⟩
      by_cases hr : s.quantifier.repeats = true
      · cases uses with
        | none => exact hgoOn .none
        | more placed uses =>
          -- one use at the first node that fits will do, and the rest is not tied to it
          rw [hr, Bool.true_and, Bool.or_eq_false_iff] at hfree
          have hloose : ∀ s ∈ rest, s.anchored = false := by simpa using hfree.1.2
          obtain ⟨p, _, hp, huses⟩ := placed.exists_firstFound hplain.1 hfits.1
          have hpa : p ≤ a := by
            have := (uses.le hsteps.1).1
            omega
          obtain ⟨_, hspread⟩ := spread.earlier hsteps.2 hloose hpa
          obtain ⟨stop, all, hspread, -⟩ := ih hplain.2 hfits.2 hfree.2 hspread hsteps.2
          refine ⟨stop, _, .cons huses (allowed.fewer (Nat.le_refl 1) (by omega)) hspread, ?_⟩
          simp [hfree.1.1]
      · rw [Bool.not_eq_true] at hr
        obtain ⟨first, huses⟩ := uses.exists_firstFound hsteps.1 hfits.1 hr
        exact hgoOn huses

mutual
/-- Without an anchor behind a repetition a pattern that stands at a node stands there with each
repeated step at the first node that fits. -/
theorem Embeds.exists_firstFound : ∀ {p : Pattern} {n : Node} {found : Captures}, p.Plain →
    p.Free → Embeds Anywhere p n found → ∃ found', Embeds FirstFound p n found'
  | .node own test absent anchoredEnd steps, n, _, hp, hf, .node kind unfilled spread last => by
    rw [Pattern.Plain, Pattern.all, Bool.and_eq_true] at hp
    rw [Pattern.Free, Pattern.all, Bool.and_eq_true, Pattern.isFree, Bool.not_eq_true'] at hf
    have hplain : ∀ s ∈ steps, s.pattern.Plain := by
      have := hp.2
      rwa [Pattern.allSteps_eq, List.all_eq_true] at this
    obtain ⟨stop, all, hspread, hstop⟩ := spread.exists_firstFound hplain
      (fun s hs _ _ => forall_exists_firstFound hp.2 hf.2 s hs) hf.1
    exact ⟨_, .node kind unfilled hspread fun hend => by rw [hstop hend]; exact last hend⟩
  | .alternation own alternatives, n, _, hp, hf, .alternation mem stands => by
    rw [Pattern.Plain, Pattern.all, Bool.and_eq_true] at hp
    rw [Pattern.Free, Pattern.all, Bool.and_eq_true] at hf
    obtain ⟨found', hstands⟩ := exists_firstFound_of_mem hp.2 hf.2 mem stands
    exact ⟨_, .alternation mem hstands⟩
theorem exists_firstFound_of_mem : ∀ {ps : List Pattern} {p : Pattern} {n : Node}
    {found : Captures}, Pattern.allOf (fun p => !p.isGroup) ps = true →
      Pattern.allOf Pattern.isFree ps = true → p ∈ ps → Embeds Anywhere p n found →
        ∃ found', Embeds FirstFound p n found'
  | q :: rest, p, n, _, hps, hf, hp, h => by
    rw [Pattern.allOf, Bool.and_eq_true] at hps hf
    rcases List.mem_cons.mp hp with heq | hp
    · have h : Embeds Anywhere q n _ := heq ▸ h
      rw [heq]
      exact h.exists_firstFound hps.1 hf.1
    · exact exists_firstFound_of_mem hps.2 hf.2 hp h
theorem forall_exists_firstFound : ∀ {steps : List (Step Pattern)},
    Pattern.allSteps (fun p => !p.isGroup) steps = true → Pattern.allSteps Pattern.isFree steps = true →
      ∀ s ∈ steps, ∀ {n found}, Embeds Anywhere s.pattern n found →
        ∃ found', Embeds FirstFound s.pattern n found'
  | [], _, _ => by simp
  | ⟨field, p, quantifier, anchored⟩ :: rest, hp, hf => by
    rw [Pattern.allSteps, Bool.and_eq_true] at hp hf
    intro s hs n found h
    rcases List.mem_cons.mp hs with heq | hs
    · have h : Embeds Anywhere p n found := by
        rw [heq] at h
        exact h
      rw [heq]
      exact h.exists_firstFound hp.1 hf.1
    · exact forall_exists_firstFound hp.2 hf.2 s hs h
end

/-- Without an anchor behind a repetition a pattern is found where it stands. -/
theorem matchNode_ne_nil_iff_of_free {p : Pattern} (hp : p.Plain) (hf : p.Free) :
    matchNode p n ≠ [] ↔ ∃ found, Embeds Anywhere p n found := by
  rw [matchNode_ne_nil_iff hp]
  constructor
  · rintro ⟨found, h⟩
    exact ⟨found, h.mono fun _ _ _ _ _ => trivial⟩
  · rintro ⟨found, h⟩
    exact h.exists_firstFound hp hf

/-- A rule that is not about siblings is matched by its pattern alone. -/
theorem Rule.matchAt_of_isGroup {r : Rule} (h : r.pattern.isGroup = false) (n : Node) :
    r.matchAt n = matchNode r.pattern n := by
  unfold Rule.matchAt
  split
  · simp_all [Pattern.isGroup]
  · simp_all [Pattern.isGroup]
  · rfl

end Glr.Query

namespace Glr

open Subtree

/-! ## Every node is visited -/

theorem Node.count_lt_of_mem_children {n c : Node} (h : c ∈ n.children) :
    c.subtree.count < n.subtree.count :=
  Node.count_lt_of_mem_storedChildren (List.mem_filter.mp h).1

theorem Node.Shows.cases_child {n m : Node} (h : n.Shows m) :
    m = n ∨ ∃ c ∈ n.children, c.Shows m := by
  induction h with
  | self => exact .inl rfl
  | @child m c _ hc ih =>
    rcases ih with rfl | ⟨d, hd, hm⟩
    · exact .inr ⟨c, hc, .self⟩
    · exact .inr ⟨d, hd, .child hm hc⟩

theorem Query.mem_visited {n m : Node} {fuel : Nat} (h : n.Shows m)
    (hfuel : n.subtree.count ≤ fuel) : m ∈ visited none fuel n := by
  induction fuel generalizing n with
  | zero =>
    have := n.subtree.count_pos
    omega
  | succ fuel ih =>
    rw [visited, if_pos (show meets none n = true from rfl)]
    rcases h.cases_child with rfl | ⟨c, hc, hm⟩
    · exact List.mem_cons_self
    · refine List.mem_cons_of_mem _ (List.mem_flatMap.mpr ⟨c, hc, ih hm ?_⟩)
      exact Nat.le_of_lt_succ (Nat.lt_of_lt_of_le (Node.count_lt_of_mem_children hc) hfuel)

/-- A query run from `start` on reports a match of one of its rules at a node. -/
def Query.Reports (q : Query) (start : Node) (source : Bytes) (i : Nat) (n : Node) : Prop :=
  ∃ m ∈ q.run start source none, m.pattern = i ∧ m ∈ matchesAt q.rules source n

/-- A rule without predicates and groups is reported at every visible node at which its pattern
stands with each repeated step at the first node that fits.  If no anchor stands behind a
repetition, it is reported wherever its pattern stands. -/
theorem Query.reports_iff {q : Query} {start n : Node} {i : Nat} {r : Rule} (hn : start.Shows n)
    (hr : q.rules[i]? = some r) (hpredicates : r.predicates = []) (hplain : r.pattern.Plain)
    (source : Bytes) :
    (q.Reports start source i n ↔ ∃ found, Embeds FirstFound r.pattern n found) ∧
      (r.pattern.Free → (q.Reports start source i n ↔ ∃ found, Embeds Anywhere r.pattern n found)) := by
  have hmatchAt := Rule.matchAt_of_isGroup (Pattern.isGroup_of_all hplain) n
  have hreports : q.Reports start source i n ↔ matchNode r.pattern n ≠ [] := by
    rw [← hmatchAt]
    constructor
    · rintro ⟨m, -, rfl, hm⟩
      obtain ⟨r', hr', hmem, -⟩ := mem_matchesAt.mp hm
      obtain rfl := Option.some.inj (hr'.symm.trans hr)
      exact List.ne_nil_of_mem hmem
    · intro hne
      obtain ⟨found, hfound⟩ := List.exists_mem_of_ne_nil _ hne
      have hm : ⟨i, found⟩ ∈ matchesAt q.rules source n :=
        mem_matchesAt.mpr ⟨r, hr, hfound, by simp [hpredicates]⟩
      exact ⟨⟨i, found⟩, List.mem_flatMap.mpr ⟨n, mem_visited hn (Nat.le_refl _), hm⟩, rfl, hm⟩
  exact ⟨hreports.trans (matchNode_ne_nil_iff hplain),
    fun hf => hreports.trans (matchNode_ne_nil_iff_of_free hplain hf)⟩

set_option maxRecDepth 100000 in
theorem Query.reports_iff_marks : ∃ l q r t, Language.ofGrammar 0 .marks none = .ok l ∧
    Query.compile l "(p . (x)+ (y)? (z)) @a" = .ok q ∧ q.rules[0]? = some r ∧
    t = (l.parse {} (Bytes.ofString "xxyzx") none).1 ∧
    q.Reports t.rootNode (Bytes.ofString "xxyzx") 0 t.rootNode ∧
    ∃ found, Embeds Anywhere r.pattern t.rootNode found := by
  have hrun : (Language.ofGrammar 0 .marks none).toOption.any (fun l =>
      (Query.compile l "(p . (x)+ (y)? (z)) @a").toOption.any fun q =>
        q.rules[0]?.any fun r => r.predicates.isEmpty && r.pattern.all (fun p => !p.isGroup)
          && r.pattern.all Pattern.isFree
          && !(matchNode r.pattern
            (l.parse {} (Bytes.ofString "xxyzx") none).1.rootNode).isEmpty) = true := by
    decide +kernel
  obtain ⟨l, hl, hrun⟩ := exists_ok hrun
  obtain ⟨q, hq, hrun⟩ := exists_ok hrun
  obtain ⟨r, hr, hrun⟩ := (Option.any_eq_true _ _).mp hrun
  simp only [Bool.and_eq_true, List.isEmpty_iff, Bool.not_eq_true', List.isEmpty_eq_false_iff]
    at hrun
  obtain ⟨⟨⟨hpredicates, hplain⟩, hfree⟩, hfound⟩ := hrun
  obtain ⟨hfirst, hany⟩ :=
    Query.reports_iff .self hr hpredicates hplain (Bytes.ofString "xxyzx")
  have hreports := hfirst.mpr ((matchNode_ne_nil_iff hplain).mp hfound)
  exact ⟨l, q, r, _, hl, hq, hr, rfl, hreports, (hany hfree).mp hreports⟩

-- the pattern stands at the last two marks, but what is repeated is only looked for at the first
set_option maxRecDepth 100000 in
example : (Language.ofGrammar 0 .marks none).toOption.any (fun l =>
    let root := (l.parse {} (Bytes.ofString "xzxy") none).1.rootNode
    (Query.compile l "(p (x)+ . (y))").toOption.any (fun q => (q.run root #[] none).isEmpty) &&
      (Query.compile l "(p (x) . (y))").toOption.any fun q => !(q.run root #[] none).isEmpty) = true := by
  decide +kernel

end Glr
