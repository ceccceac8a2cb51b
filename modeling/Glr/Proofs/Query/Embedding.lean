import Glr.Query.Match
import Glr.Proofs.Tree.Everywhere

/-!
# Glr.Proofs.Query.Embedding

What it is for the pattern of a query to stand in a tree, and that every match of a query
does.  The steps of a node stand on its children from left to right; children between them are
passed over.

```
(p  (x)+   .  (y))
     │╲        │
 z   x  x      y   z
```

Where a step is tied to what stands before it, by an anchor or because it is repeated, no node with a name is
passed over.
-/

namespace Glr.Query

variable {nodes : List Node} {n : Node} {s : Step Pattern} {i j k place count : Nat}

/-! ## Patterns in a tree -/

/-- How often a step may be used. -/
def Quantifier.Allows : Quantifier → Nat → Prop
  | .one, count => count = 1
  | .zeroOrOne, count => count ≤ 1
  | .zeroOrMore, _ => True
  | .oneOrMore, count => 1 ≤ count

/-- Whether a step may be used again and again. -/
def Quantifier.repeats : Quantifier → Bool
  | .one | .zeroOrOne => false
  | .zeroOrMore | .oneOrMore => true

/-- No node from place `i` up to place `j` has a name. -/
def Unnamed (nodes : List Node) (i j : Nat) : Prop :=
  ∀ k n, i ≤ k → k < j → nodes[k]? = some n → n.isNamed = false

/-- A node fills the field that a step asks for. -/
def Step.Fills (s : Step Pattern) (n : Node) : Prop := s.field = none ∨ n.field? = s.field

section

variable (Begins : Step Pattern → List Node → Nat → Nat → Prop)

mutual
/-- A pattern stands at a node and captures some nodes.  `Begins` says where a step that may be
repeated can be used, next from a place. -/
inductive Embeds : Pattern → Node → Captures → Prop where
  | node {own : List Nat} {test : KindTest} {absent : List FieldId} {anchoredEnd : Bool}
      {steps : List (Step Pattern)} {n : Node} {stop : Nat} {found : Captures}
      (kind : test.accepts n = true)
      (unfilled : ∀ f ∈ absent, n.childOfField? f = none)
      (spread : Spread steps n.children false 0 stop found)
      (last : anchoredEnd = true → Unnamed n.children stop n.children.length) :
      Embeds (.node own test absent anchoredEnd steps) n (own.map (⟨·, n⟩) ++ found)
  | alternation {own : List Nat} {alternatives : List Pattern} {p : Pattern} {n : Node}
      {found : Captures} (mem : p ∈ alternatives) (stands : Embeds p n found) :
      Embeds (.alternation own alternatives) n (found ++ own.map (⟨·, n⟩))
/-- Steps stand on nodes from a place on, the last of them before another place.  The first one
may be tied to the place. -/
inductive Spread : List (Step Pattern) → List Node → Bool → Nat → Nat → Captures → Prop where
  | nil {nodes : List Node} {tied : Bool} {i : Nat} : Spread [] nodes tied i i []
  | cons {s : Step Pattern} {rest : List (Step Pattern)} {nodes : List Node} {tied : Bool}
      {count i j k : Nat} {found more : Captures}
      (uses : Uses s nodes count (s.anchored || tied) i j found)
      (allowed : s.quantifier.Allows count)
      (spread : Spread rest nodes false j k more) :
      Spread (s :: rest) nodes tied i k (found ++ more)
/-- A step is used a number of times, each time but the first tied to the time before. -/
inductive Uses : Step Pattern → List Node → Nat → Bool → Nat → Nat → Captures → Prop where
  | none {s : Step Pattern} {nodes : List Node} {tied : Bool} {i : Nat} :
      Uses s nodes 0 tied i i []
  | more {s : Step Pattern} {nodes : List Node} {count : Nat} {tied : Bool} {i j k : Nat}
      {found more : Captures} (placed : Placed s nodes tied i j found)
      (uses : Uses s nodes count true j k more) : Uses s nodes (count + 1) tied i k (found ++ more)
/-- A step is used once: its pattern stands at a node, or the steps of its group stand on nodes
one after another. -/
inductive Placed : Step Pattern → List Node → Bool → Nat → Nat → Captures → Prop where
  | node {s : Step Pattern} {nodes : List Node} {tied : Bool} {i j : Nat} {n : Node}
      {found : Captures} (le : i ≤ j) (node : nodes[j]? = some n)
      (gap : tied = true → Unnamed nodes i j) (fills : s.Fills n)
      (begins : s.quantifier.repeats = true → Begins s nodes i j)
      (stands : Embeds s.pattern n found) : Placed s nodes tied i (j + 1) found
  | group {s : Step Pattern} {own : List Nat} {steps : List (Step Pattern)} {nodes : List Node}
      {tied : Bool} {i j : Nat} {found : Captures} (pattern : s.pattern = .group own steps)
      (spread : Spread steps nodes tied i j found) : Placed s nodes tied i j found
end

end

/-- A step may be used at any place. -/
def Anywhere (_ : Step Pattern) (_ : List Node) (_ _ : Nat) : Prop := True

/-- A step is used at the first node that fits. -/
def FirstFound (s : Step Pattern) (nodes : List Node) (i j : Nat) : Prop :=
  ∀ k n, i ≤ k → k < j → nodes[k]? = some n → s.Fills n → matchNode s.pattern n = []

/-! ## What is found -/

theorem mem_of_mem_unique {all : List Captures} {captures : Captures} (h : captures ∈ unique all) :
    captures ∈ all := by
  have key (xs out : List Captures) :
      captures ∈ xs.foldl addUnique out → captures ∈ out ∨ captures ∈ xs := by
    induction xs generalizing out with
    | nil => exact .inl
    | cons x xs ih =>
      intro h
      rcases ih _ h with h | h
      · unfold addUnique at h
        split at h
        · exact .inl h
        · rcases List.mem_append.mp h with h | h
          · exact .inl h
          · exact .inr (List.mem_singleton.mp h ▸ List.mem_cons_self)
      · exact .inr (List.mem_cons_of_mem _ h)
  exact (key all [] h).resolve_left (by simp)

theorem firstNonempty_cons {α β : Type} (f : α → List β) (x : α) (xs : List α) :
    firstNonempty f (x :: xs) = if f x = [] then firstNonempty f xs else f x := by
  unfold firstNonempty
  rw [List.findSome?_cons]
  cases hx : f x with
  | nil => simp
  | cons b bs => simp

/-- Of the lists that a function finds the first one that is not empty counts. -/
theorem firstNonempty_spec {α β : Type} (f : α → List β) (xs : List α) :
    (firstNonempty f xs = [] ∧ ∀ x ∈ xs, f x = []) ∨
      ∃ before a after, xs = before ++ a :: after ∧ f a ≠ [] ∧ firstNonempty f xs = f a ∧
        ∀ x ∈ before, f x = [] := by
  induction xs with
  | nil => exact .inl ⟨rfl, by simp⟩
  | cons x xs ih =>
    rw [firstNonempty_cons]
    by_cases hx : f x = []
    · rw [if_pos hx]
      rcases ih with ⟨hnil, hall⟩ | ⟨before, a, after, rfl, hne, heq, hbefore⟩
      · exact .inl ⟨hnil, List.forall_mem_cons.mpr ⟨hx, hall⟩⟩
      · exact .inr ⟨x :: before, a, after, rfl, hne, heq, List.forall_mem_cons.mpr ⟨hx, hbefore⟩⟩
    · exact .inr ⟨[], x, xs, rfl, hx, if_neg hx, by simp⟩

theorem Unnamed.self (nodes : List Node) (i : Nat) : Unnamed nodes i i :=
  fun _ _ hle hlt _ => absurd hlt (Nat.not_lt.mpr hle)

theorem Unnamed.mono {i' j' : Nat} (h : Unnamed nodes i j) (hi : i ≤ i') (hj : j' ≤ j) :
    Unnamed nodes i' j' :=
  fun k n hik hkj hn => h k n (Nat.le_trans hi hik) (Nat.lt_of_lt_of_le hkj hj) hn

theorem Unnamed.cons (h : Unnamed nodes (i + 1) j) (hn : nodes[i]? = some n)
    (hnamed : n.isNamed = false) : Unnamed nodes i j := by
  intro k m hik hkj hm
  rcases Nat.eq_or_lt_of_le hik with rfl | hik
  · rwa [Option.some.inj (hm.symm.trans hn)]
  · exact h k m hik hkj hm

theorem unnamed_of_any_drop (h : (nodes.drop i).any Node.isNamed = false) (j : Nat) :
    Unnamed nodes i j := by
  intro k n hik _ hn
  rw [List.any_eq_false] at h
  refine Bool.eq_false_iff.mpr (h n (List.mem_iff_getElem?.mpr ⟨k - i, ?_⟩))
  rw [List.getElem?_drop, Nat.add_sub_cancel' hik]
  exact hn

/-- A step reaches the nodes that it can come to without passing over what it must not. -/
theorem mem_reachable {tied : Bool} :
    (j, n) ∈ reachable tied i (nodes.drop i) ↔
      i ≤ j ∧ nodes[j]? = some n ∧ (tied = true → Unnamed nodes i j) := by
  generalize hl : nodes.drop i = l
  induction l generalizing i with
  | nil =>
    refine ⟨by simp [reachable], fun ⟨hle, hn, _⟩ => ?_⟩
    rw [List.drop_eq_nil_iff] at hl
    rw [List.getElem?_eq_none (Nat.le_trans hl hle)] at hn
    contradiction
  | cons m l ih =>
    have hm : nodes[i]? = some m := by rw [← List.head?_drop, hl]; rfl
    have hrest : nodes.drop (i + 1) = l := by rw [← List.tail_drop, hl]; rfl
    rw [reachable, List.mem_cons, Prod.mk.injEq]
    constructor
    · rintro (⟨rfl, rfl⟩ | h)
      · exact ⟨Nat.le_refl _, hm, fun _ => .self _ _⟩
      · split at h
        · contradiction
        · rename_i hstop
          obtain ⟨hle, hn, hgap⟩ := (ih hrest).mp h
          refine ⟨Nat.le_of_succ_le hle, hn, fun ht => (hgap ht).cons hm ?_⟩
          simpa [ht] using hstop
    · rintro ⟨hle, hn, hgap⟩
      rcases Nat.eq_or_lt_of_le hle with rfl | hlt
      · exact .inl ⟨rfl, Option.some.inj (hn.symm.trans hm)⟩
      · right
        rw [if_neg]
        · exact (ih hrest).mpr ⟨hlt, hn, fun ht => (hgap ht).mono (Nat.le_succ i) (Nat.le_refl j)⟩
        · rw [Bool.and_eq_true]
          rintro ⟨ht, hnamed⟩
          rw [hgap ht i m (Nat.le_refl i) hlt hm] at hnamed
          contradiction

/-- What is found first among the nodes that a step reaches is found at a node before which
nothing is found. -/
theorem exists_of_head?_reachable {β : Type} {tied : Bool} {f : Nat × Node → List β} {b : β}
    (h : ((reachable tied i (nodes.drop i)).flatMap f).head? = some b) :
    ∃ j n, i ≤ j ∧ nodes[j]? = some n ∧ (tied = true → Unnamed nodes i j) ∧ b ∈ f (j, n) ∧
      ∀ k m, i ≤ k → k < j → nodes[k]? = some m → f (k, m) = [] := by
  generalize hl : nodes.drop i = l at h
  induction l generalizing i with
  | nil => contradiction
  | cons m l ih =>
    have hm : nodes[i]? = some m := by rw [← List.head?_drop, hl]; rfl
    have hrest : nodes.drop (i + 1) = l := by rw [← List.tail_drop, hl]; rfl
    rw [reachable, List.flatMap_cons, List.head?_append] at h
    cases hf : f (i, m) with
    | cons c cs =>
      rw [hf] at h
      obtain rfl := Option.some.inj h
      exact ⟨i, m, Nat.le_refl i, hm, fun _ => .self _ _, by simp [hf],
        fun k _ hik hki => absurd hki (Nat.not_lt.mpr hik)⟩
    | nil =>
      rw [hf, List.head?_nil, Option.none_or] at h
      split at h
      · contradiction
      · rename_i hstop
        obtain ⟨j, n, hle, hn, hgap, hb, hfirst⟩ := ih hrest h
        refine ⟨j, n, Nat.le_of_succ_le hle, hn, fun ht => (hgap ht).cons hm ?_, hb, ?_⟩
        · simpa [ht] using hstop
        · intro k m' hik hkj hm'
          rcases Nat.eq_or_lt_of_le hik with rfl | hik
          · rwa [Option.some.inj (hm'.symm.trans hm)]
          · exact hfirst k m' hik hkj hm'

/-! ## Every match stands in the tree -/

theorem matchOnce_group (field : Option FieldId) (own : List Nat) (steps : List (Step Pattern))
    (quantifier : Quantifier) (anchored : Bool) (nodes : List Node) (i : Nat) (tied : Bool) :
    matchOnce ⟨field, .group own steps, quantifier, anchored⟩ nodes i tied
      = matchSteps steps nodes i [] tied := rfl

/-- What a step whose pattern is about one node captures at a node. -/
def Step.found (s : Step Pattern) : Nat × Node → List (Nat × Captures)
  | (i, n) =>
    if s.field.isSome && n.field? != s.field then []
    else (matchNode s.pattern n).map fun captures => (i + 1, captures)

theorem matchOnce_of_isGroup (h : s.pattern.isGroup = false) (nodes : List Node) (i : Nat)
    (tied : Bool) :
    matchOnce s nodes i tied = (reachable tied i (nodes.drop i)).flatMap s.found := by
  obtain ⟨field, p, quantifier, anchored⟩ := s
  cases p with
  | node => rfl
  | alternation => rfl
  | group => contradiction

theorem Step.not_fills_iff :
    (s.field.isSome && n.field? != s.field) = true ↔ ¬s.Fills n := by
  unfold Step.Fills
  cases s.field <;> simp

theorem Step.mem_found {found : Captures} :
    (j, found) ∈ s.found (i, n) ↔ j = i + 1 ∧ s.Fills n ∧ found ∈ matchNode s.pattern n := by
  unfold Step.found
  simp only
  by_cases hfills : s.Fills n
  · rw [if_neg fun h => Step.not_fills_iff.mp h hfills, List.mem_map]
    constructor
    · rintro ⟨captures, hmem, heq⟩
      obtain ⟨rfl, rfl⟩ := Prod.mk.inj heq
      exact ⟨rfl, hfills, hmem⟩
    · rintro ⟨rfl, -, hmem⟩
      exact ⟨found, hmem, rfl⟩
  · rw [if_pos (Step.not_fills_iff.mpr hfills)]
    simp [hfills]

/-- The runs of a step are its uses, one more each time. -/
theorem uses_of_repeated {once : Nat → Bool → Option (Nat × Captures)}
    (honce : ∀ i tied j found, once i tied = some (j, found) →
      Placed FirstFound s nodes tied i j found)
    {fuel : Nat} {tied : Bool} {captures all : Captures}
    (h : (repeated once fuel tied i captures)[count]? = some (j, all)) :
    ∃ found, all = captures ++ found ∧ Uses FirstFound s nodes count tied i j found := by
  induction fuel generalizing count tied i captures with
  | zero =>
    rw [repeated] at h
    cases count with
    | zero =>
      obtain ⟨rfl, rfl⟩ := Prod.mk.inj (Option.some.inj h)
      exact ⟨[], (List.append_nil _).symm, .none⟩
    | succ count => contradiction
  | succ fuel ih =>
    rw [repeated] at h
    cases count with
    | zero =>
      obtain ⟨rfl, rfl⟩ := Prod.mk.inj (Option.some.inj h)
      exact ⟨[], (List.append_nil _).symm, .none⟩
    | succ count =>
      rw [List.getElem?_cons_succ] at h
      split at h
      · rename_i next more hnext
        split at h
        · contradiction
        · obtain ⟨found, rfl, huses⟩ := ih h
          exact ⟨more ++ found, List.append_assoc .., .more (honce _ _ _ _ hnext) huses⟩
      · contradiction

/-- A step is placed where it is found; one that may be repeated where it is found first. -/
theorem placed_of_mem {tied : Bool} {found : Captures} (hg : s.pattern.isGroup = false)
    (hstands : ∀ {n found}, found ∈ matchNode s.pattern n → Embeds FirstFound s.pattern n found)
    (h : (j, found) ∈ matchOnce s nodes i tied)
    (hhead : s.quantifier.repeats = true → (matchOnce s nodes i tied).head? = some (j, found)) :
    Placed FirstFound s nodes tied i j found := by
  rw [matchOnce_of_isGroup hg] at h hhead
  by_cases hr : s.quantifier.repeats = true
  · obtain ⟨k, n, hle, hn, hgap, hfound, hfirst⟩ := exists_of_head?_reachable (hhead hr)
    obtain ⟨rfl, hfills, hfound⟩ := Step.mem_found.mp hfound
    refine .node hle hn hgap hfills (fun _ k' m hik hkj hm hfills => ?_) (hstands hfound)
    refine List.eq_nil_iff_forall_not_mem.mpr fun captures hcaptures => ?_
    have hmem : (k' + 1, captures) ∈ s.found (k', m) := Step.mem_found.mpr ⟨rfl, hfills, hcaptures⟩
    rw [hfirst k' m hik hkj hm] at hmem
    contradiction
  · obtain ⟨⟨k, n⟩, hreach, hfound⟩ := List.mem_flatMap.mp h
    obtain ⟨rfl, hfills, hfound⟩ := Step.mem_found.mp hfound
    obtain ⟨hle, hn, hgap⟩ := mem_reachable.mp hreach
    exact .node hle hn hgap hfills (fun hr' => absurd hr' hr) (hstands hfound)

mutual
/-- What a pattern captures at a node it captures standing there. -/
theorem embeds_of_mem_matchNode : ∀ {p : Pattern} {n : Node} {found : Captures},
    found ∈ matchNode p n → Embeds FirstFound p n found
  | .node own test absent anchoredEnd steps, n, found, h => by
    rw [matchNode] at h
    split at h
    · contradiction
    · rename_i hnot
      rw [Bool.or_eq_true, not_or, Bool.not_eq_true, Bool.not_eq_false', Bool.not_eq_true,
        List.any_eq_false] at hnot
      obtain ⟨hkind, habsent⟩ := hnot
      have hunfilled : ∀ f ∈ absent, n.childOfField? f = none := by
        intro f hf
        simpa using habsent f hf
      simp only at h
      split at h
      · rename_i hall
        rw [Bool.and_eq_true, List.isEmpty_iff, Bool.not_eq_true'] at hall
        obtain ⟨rfl, rfl⟩ := hall
        rw [List.mem_singleton.mp h, ← List.append_nil (List.map _ own)]
        exact .node hkind hunfilled .nil (by simp)
      · obtain ⟨⟨stop, more⟩, hmem, rfl⟩ := List.mem_map.mp (mem_of_mem_unique h)
        obtain ⟨hmem, hlast⟩ := List.mem_filter.mp hmem
        obtain ⟨found, rfl, hspread⟩ := spread_of_mem_matchSteps hmem
        refine .node hkind hunfilled hspread fun hend => ?_
        rw [hend] at hlast
        exact unnamed_of_any_drop (by simpa using hlast) _
  | .alternation own alternatives, n, found, h => by
    rw [matchNode] at h
    obtain ⟨inner, hinner, rfl⟩ := List.mem_map.mp (mem_of_mem_unique h)
    obtain ⟨p, hp, hstands⟩ := exists_of_mem_matchAny hinner
    exact .alternation hp hstands
  | .group _ _, n, found, h => by
    rw [matchNode] at h
    contradiction
theorem exists_of_mem_matchAny : ∀ {ps : List Pattern} {n : Node} {found : Captures},
    found ∈ matchAny ps n → ∃ p ∈ ps, Embeds FirstFound p n found
  | [], _, _, h => by
    rw [matchAny] at h
    contradiction
  | p :: rest, n, found, h => by
    rw [matchAny] at h
    rcases List.mem_append.mp h with h | h
    · exact ⟨p, List.mem_cons_self, embeds_of_mem_matchNode h⟩
    · obtain ⟨p', hp', hstands⟩ := exists_of_mem_matchAny h
      exact ⟨p', List.mem_cons_of_mem _ hp', hstands⟩
theorem spread_of_mem_matchSteps :
    ∀ {steps : List (Step Pattern)} {nodes : List Node} {i j : Nat} {captures all : Captures}
      {tied : Bool}, (j, all) ∈ matchSteps steps nodes i captures tied →
      ∃ found, all = captures ++ found ∧ Spread FirstFound steps nodes tied i j found
  | [], nodes, i, j, captures, all, tied, h => by
    rw [matchSteps] at h
    obtain ⟨rfl, rfl⟩ := Prod.mk.inj (List.mem_singleton.mp h)
    exact ⟨[], (List.append_nil _).symm, .nil⟩
  | s :: rest, nodes, i, j, captures, all, tied, h => by
    have hgoOn {count k : Nat} {found : Captures}
        (huses : Uses FirstFound s nodes count (s.anchored || tied) i k found)
        (hallowed : s.quantifier.Allows count)
        (h : (j, all) ∈ matchSteps rest nodes k (captures ++ found) false) :
        ∃ found, all = captures ++ found ∧ Spread FirstFound (s :: rest) nodes tied i j found := by
      obtain ⟨more, rfl, hspread⟩ := spread_of_mem_matchSteps h
      exact ⟨found ++ more, List.append_assoc .., .cons huses hallowed hspread⟩
    have honce {k : Nat} {found : Captures} (hr : s.quantifier.repeats = false)
        (hplaced : (k, found) ∈ matchOnce s nodes i (s.anchored || tied)) :
        Uses FirstFound s nodes 1 (s.anchored || tied) i k found := by
      have hplaced := placed_of_mem_matchOnce hplaced (by simp [hr])
      rw [← List.append_nil found]
      exact .more hplaced .none
    have hruns {least : Nat} (hleast : ∀ count, least ≤ count → s.quantifier.Allows count)
        (h : (j, all) ∈ firstNonempty
          (fun found => matchSteps rest nodes found.1 (captures ++ found.2) false)
          ((repeated (fun place anchored => (matchOnce s nodes place anchored).head?)
            (nodes.length + 1) (s.anchored || tied) i []).drop least).reverse) :
        ∃ found, all = captures ++ found ∧ Spread FirstFound (s :: rest) nodes tied i j found := by
      obtain ⟨⟨k, found⟩, hrun, hmem⟩ : ∃ found, found ∈ ((repeated
          (fun place anchored => (matchOnce s nodes place anchored).head?) (nodes.length + 1)
          (s.anchored || tied) i []).drop least).reverse ∧
          (j, all) ∈ matchSteps rest nodes found.1 (captures ++ found.2) false := by
        rcases firstNonempty_spec _ _ with ⟨hnil, -⟩ | ⟨before, found, after, heq, -, hfound, -⟩
        · rw [hnil] at h
          contradiction
        · exact ⟨found, by rw [heq]; simp, hfound ▸ h⟩
      obtain ⟨count, hcount⟩ := List.mem_iff_getElem?.mp (List.mem_reverse.mp hrun)
      rw [List.getElem?_drop] at hcount
      obtain ⟨_, rfl, huses⟩ := uses_of_repeated (fun k tied j found hhead =>
        placed_of_mem_matchOnce (List.mem_of_mem_head? hhead) fun _ => hhead) hcount
      exact hgoOn huses (hleast _ (Nat.le_add_right _ _)) hmem
    rw [matchSteps] at h
    cases hq : s.quantifier with
    | one =>
      simp only [hq] at h
      obtain ⟨⟨k, found⟩, hplaced, hmem⟩ := List.mem_flatMap.mp h
      exact hgoOn (honce (by rw [hq]; rfl) hplaced) (by rw [hq]; rfl) hmem
    | zeroOrOne =>
      simp only [hq] at h
      split at h
      · exact hgoOn .none (by rw [hq]; exact Nat.zero_le 1) h
      · obtain ⟨⟨k, found⟩, hplaced, hmem⟩ := List.mem_flatMap.mp h
        exact hgoOn (honce (by rw [hq]; rfl) hplaced) (by rw [hq]; exact Nat.le_refl 1) hmem
    | zeroOrMore =>
      simp only [hq] at h
      exact hruns (fun _ _ => by rw [hq]; trivial) h
    | oneOrMore =>
      simp only [hq] at h
      exact hruns (fun _ hle => by rw [hq]; exact hle) h
theorem placed_of_mem_matchOnce :
    ∀ {s : Step Pattern} {nodes : List Node} {i j : Nat} {found : Captures} {tied : Bool},
      (j, found) ∈ matchOnce s nodes i tied →
      (s.quantifier.repeats = true → (matchOnce s nodes i tied).head? = some (j, found)) →
      Placed FirstFound s nodes tied i j found
  | ⟨field, .group own steps, quantifier, anchored⟩, nodes, i, j, found, tied, h, _ => by
    rw [matchOnce_group] at h
    obtain ⟨more, rfl, hspread⟩ := spread_of_mem_matchSteps h
    exact .group rfl hspread
  | ⟨field, .node own test absent anchoredEnd steps, quantifier, anchored⟩, nodes, i, j, found,
      tied, h, hhead =>
    placed_of_mem rfl embeds_of_mem_matchNode h hhead
  | ⟨field, .alternation own alternatives, quantifier, anchored⟩, nodes, i, j, found, tied, h,
      hhead =>
    placed_of_mem rfl embeds_of_mem_matchNode h hhead
end

/-! ## Where repetitions begin -/

variable {Begins Begins' : Step Pattern → List Node → Nat → Nat → Prop}

mutual
/-- A pattern that stands at a node under a narrower rule for repetitions stands there under a
wider one. -/
theorem Embeds.mono (hB : ∀ s nodes i j, Begins s nodes i j → Begins' s nodes i j) :
    ∀ {p : Pattern} {n : Node} {found : Captures},
      Embeds Begins p n found → Embeds Begins' p n found
  | _, _, _, .node kind unfilled spread last => .node kind unfilled (spread.mono hB) last
  | _, _, _, .alternation mem stands => .alternation mem (stands.mono hB)
theorem Spread.mono (hB : ∀ s nodes i j, Begins s nodes i j → Begins' s nodes i j) :
    ∀ {steps : List (Step Pattern)} {nodes : List Node} {tied : Bool} {i j : Nat}
      {found : Captures}, Spread Begins steps nodes tied i j found →
        Spread Begins' steps nodes tied i j found
  | _, _, _, _, _, _, .nil => .nil
  | _, _, _, _, _, _, .cons uses allowed spread =>
    .cons (uses.mono hB) allowed (spread.mono hB)
theorem Uses.mono (hB : ∀ s nodes i j, Begins s nodes i j → Begins' s nodes i j) :
    ∀ {s : Step Pattern} {nodes : List Node} {count : Nat} {tied : Bool} {i j : Nat}
      {found : Captures}, Uses Begins s nodes count tied i j found →
        Uses Begins' s nodes count tied i j found
  | _, _, _, _, _, _, _, .none => .none
  | _, _, _, _, _, _, _, .more placed uses => .more (placed.mono hB) (uses.mono hB)
theorem Placed.mono (hB : ∀ s nodes i j, Begins s nodes i j → Begins' s nodes i j) :
    ∀ {s : Step Pattern} {nodes : List Node} {tied : Bool} {i j : Nat} {found : Captures},
      Placed Begins s nodes tied i j found → Placed Begins' s nodes tied i j found
  | _, _, _, _, _, _, .node le node gap fills begins stands =>
    .node le node gap fills (fun hr => hB _ _ _ _ (begins hr)) (stands.mono hB)
  | _, _, _, _, _, _, .group pattern spread => .group pattern (spread.mono hB)
end

/-! ## What is captured -/

/-- The patterns in a pattern, itself among them. -/
inductive Pattern.Has : Pattern → Pattern → Prop where
  | self {p : Pattern} : p.Has p
  | node {own : List Nat} {test : KindTest} {absent : List FieldId} {anchoredEnd : Bool}
      {steps : List (Step Pattern)} {s : Step Pattern} {p : Pattern} (mem : s ∈ steps)
      (has : s.pattern.Has p) : Pattern.Has (.node own test absent anchoredEnd steps) p
  | alternation {own : List Nat} {alternatives : List Pattern} {q p : Pattern}
      (mem : q ∈ alternatives) (has : q.Has p) : Pattern.Has (.alternation own alternatives) p
  | group {own : List Nat} {steps : List (Step Pattern)} {s : Step Pattern} {p : Pattern}
      (mem : s ∈ steps) (has : s.pattern.Has p) : Pattern.Has (.group own steps) p

/-- A node was captured by a pattern in `p` that stands there. -/
def Captured (Begins : Step Pattern → List Node → Nat → Nat → Prop) (p : Pattern) (c : Capture) :
    Prop :=
  ∃ q found, p.Has q ∧ c.index ∈ q.captures ∧ Embeds Begins q c.node found

theorem captured_own {p : Pattern} {found : Captures} (h : Embeds Begins p n found) :
    ∀ c ∈ p.captures.map fun i => (⟨i, n⟩ : Capture), Captured Begins p c := by
  intro c hc
  obtain ⟨i, hi, rfl⟩ := List.mem_map.mp hc
  exact ⟨p, found, .self, hi, h⟩

theorem Captured.imp {p q : Pattern} {c : Capture} (h : Captured Begins q c)
    (hp : ∀ {r}, q.Has r → p.Has r) : Captured Begins p c := by
  obtain ⟨r, found, hr, hc, hstands⟩ := h
  exact ⟨r, found, hp hr, hc, hstands⟩

mutual
/-- Every node that is captured is captured by a pattern that stands there. -/
theorem Embeds.captured : ∀ {p : Pattern} {n : Node} {found : Captures},
    Embeds Begins p n found → ∀ c ∈ found, Captured Begins p c
  | _, _, _, .node kind unfilled spread last => by
    intro c hc
    rcases List.mem_append.mp hc with hc | hc
    · exact captured_own (.node kind unfilled spread last) c hc
    · obtain ⟨s, hs, hcaptured⟩ := spread.captured c hc
      exact hcaptured.imp (.node hs)
  | _, _, _, .alternation mem stands => by
    intro c hc
    rcases List.mem_append.mp hc with hc | hc
    · exact (stands.captured c hc).imp (.alternation mem)
    · exact captured_own (.alternation mem stands) c hc
theorem Spread.captured : ∀ {steps : List (Step Pattern)} {nodes : List Node} {tied : Bool}
    {i j : Nat} {found : Captures}, Spread Begins steps nodes tied i j found →
      ∀ c ∈ found, ∃ s ∈ steps, Captured Begins s.pattern c
  | _, _, _, _, _, _, .nil => by simp
  | _, _, _, _, _, _, .cons uses _ spread => by
    intro c hc
    rcases List.mem_append.mp hc with hc | hc
    · exact ⟨_, List.mem_cons_self, uses.captured c hc⟩
    · obtain ⟨s', hs', hcaptured⟩ := spread.captured c hc
      exact ⟨s', List.mem_cons_of_mem _ hs', hcaptured⟩
theorem Uses.captured : ∀ {s : Step Pattern} {nodes : List Node} {count : Nat} {tied : Bool}
    {i j : Nat} {found : Captures}, Uses Begins s nodes count tied i j found →
      ∀ c ∈ found, Captured Begins s.pattern c
  | _, _, _, _, _, _, _, .none => by simp
  | _, _, _, _, _, _, _, .more placed uses => by
    intro c hc
    exact (List.mem_append.mp hc).elim (placed.captured c) (uses.captured c)
theorem Placed.captured : ∀ {s : Step Pattern} {nodes : List Node} {tied : Bool} {i j : Nat}
    {found : Captures}, Placed Begins s nodes tied i j found →
      ∀ c ∈ found, Captured Begins s.pattern c
  | _, _, _, _, _, _, .node _ _ _ _ _ stands => stands.captured
  | _, _, _, _, _, _, .group pattern spread => by
    intro c hc
    obtain ⟨s', hs', hcaptured⟩ := spread.captured c hc
    rw [pattern]
    exact hcaptured.imp (.group hs')
end

/-! ## Where captured nodes lie -/

mutual
/-- Steps stand on nodes from left to right. -/
theorem Spread.onward : ∀ {steps : List (Step Pattern)} {nodes : List Node} {tied : Bool}
    {i j : Nat} {found : Captures}, Spread Begins steps nodes tied i j found → i ≤ j
  | _, _, _, _, _, _, .nil => Nat.le_refl _
  | _, _, _, _, _, _, .cons uses _ spread => Nat.le_trans uses.onward spread.onward
theorem Uses.onward : ∀ {s : Step Pattern} {nodes : List Node} {count : Nat} {tied : Bool}
    {i j : Nat} {found : Captures}, Uses Begins s nodes count tied i j found → i ≤ j
  | _, _, _, _, _, _, _, .none => Nat.le_refl _
  | _, _, _, _, _, _, _, .more placed uses => Nat.le_trans placed.onward uses.onward
theorem Placed.onward : ∀ {s : Step Pattern} {nodes : List Node} {tied : Bool} {i j : Nat}
    {found : Captures}, Placed Begins s nodes tied i j found → i ≤ j
  | _, _, _, _, _, _, .node le _ _ _ _ _ => Nat.le_succ_of_le le
  | _, _, _, _, _, _, .group _ spread => spread.onward
end

section

variable {P : Node → Prop}

theorem forall_own (hn : P n) (own : List Nat) :
    ∀ c ∈ own.map fun i => (⟨i, n⟩ : Capture), P c.node := by
  intro c hc
  obtain ⟨i, -, rfl⟩ := List.mem_map.mp hc
  exact hn

mutual
/-- What children have from their parent all captured nodes have that lie below a node with it. -/
theorem Embeds.inherited (hP : ∀ n, P n → ∀ c ∈ n.children, P c) :
    ∀ {p : Pattern} {n : Node} {found : Captures},
      Embeds Begins p n found → P n → ∀ c ∈ found, P c.node
  | _, n, _, .node _ _ spread _, hn =>
    List.forall_mem_append.mpr ⟨forall_own hn _, spread.inherited hP fun _ _ _ hc =>
      hP n hn _ (List.mem_of_getElem? hc)⟩
  | _, _, _, .alternation _ stands, hn =>
    List.forall_mem_append.mpr ⟨stands.inherited hP hn, forall_own hn _⟩
theorem Spread.inherited (hP : ∀ n, P n → ∀ c ∈ n.children, P c) :
    ∀ {steps : List (Step Pattern)} {nodes : List Node} {tied : Bool} {i j : Nat}
      {found : Captures}, Spread Begins steps nodes tied i j found →
        (∀ k c, i ≤ k → nodes[k]? = some c → P c) → ∀ c ∈ found, P c.node
  | _, _, _, _, _, _, .nil, _ => by simp
  | _, _, _, _, _, _, .cons uses _ spread, hnodes =>
    List.forall_mem_append.mpr ⟨uses.inherited hP hnodes, spread.inherited hP fun k c hk =>
      hnodes k c (Nat.le_trans uses.onward hk)⟩
theorem Uses.inherited (hP : ∀ n, P n → ∀ c ∈ n.children, P c) :
    ∀ {s : Step Pattern} {nodes : List Node} {count : Nat} {tied : Bool} {i j : Nat}
      {found : Captures}, Uses Begins s nodes count tied i j found →
        (∀ k c, i ≤ k → nodes[k]? = some c → P c) → ∀ c ∈ found, P c.node
  | _, _, _, _, _, _, _, .none, _ => by simp
  | _, _, _, _, _, _, _, .more placed uses, hnodes =>
    List.forall_mem_append.mpr ⟨placed.inherited hP hnodes, uses.inherited hP fun k c hk =>
      hnodes k c (Nat.le_trans placed.onward hk)⟩
theorem Placed.inherited (hP : ∀ n, P n → ∀ c ∈ n.children, P c) :
    ∀ {s : Step Pattern} {nodes : List Node} {tied : Bool} {i j : Nat} {found : Captures},
      Placed Begins s nodes tied i j found →
        (∀ k c, i ≤ k → nodes[k]? = some c → P c) → ∀ c ∈ found, P c.node
  | _, _, _, _, _, _, .node le node _ _ _ stands, hnodes => stands.inherited hP (hnodes _ _ le node)
  | _, _, _, _, _, _, .group _ spread, hnodes => spread.inherited hP hnodes
end

end

end Glr.Query
