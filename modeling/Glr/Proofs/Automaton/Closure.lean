import Glr.Automaton.ItemSets
import Glr.Proofs.Automaton.Basis

/-!
# Glr.Proofs.Automaton.Closure

The closure of a kernel is what its items imply: `Implied` says which items
those are, without a word on lookaheads, and the rounds of `Closure.run` go on
until every item has what it asks for.

```
potential = room for lookaheads + (tokens + 1) · productions that are not listed
```

goes down with every place that grows, so the rounds come to an end before the
fuel does.
-/

namespace Glr.Automaton

/-- The items that some items ask for, directly or not. -/
inductive Implied (b : Basis) (items : List Item) : Item → Prop where
  | kernel {i : Item} (h : i ∈ items) : Implied b items i
  | demand {i : Item} {s : Symbol} {p : Nat} (h : Implied b items i) (hn : b.next? i = some s)
      (ht : b.isTerminal s = false) (hp : p ∈ b.byLhs[s]?.getD []) : Implied b items ⟨p, 0⟩

namespace Closure

variable {b : Basis} {items : Array LookItem} {s : State}

/-- The lookaheads are tokens. -/
def Tokens (b : Basis) (items : Array LookItem) : Prop :=
  ∀ i ∈ items, b.Tokens i.lookahead

/-- Every place keeps its item, and its lookaheads only grow. -/
def Grows (old new : Array LookItem) : Prop :=
  ∀ (place : Nat) i, old[place]? = some i →
    ∃ j, new[place]? = some j ∧ j.item = i.item ∧ i.lookahead.subset j.lookahead = true

theorem subset_refl (a : TokenSet) : a.subset a = true := TokenSet.subset_iff.mpr fun _ h => h

theorem subset_trans {a b c : TokenSet} (h : a.subset b = true) (h' : b.subset c = true) :
    a.subset c = true :=
  TokenSet.subset_iff.mpr fun t ht => TokenSet.subset_iff.mp h' t (TokenSet.subset_iff.mp h t ht)

theorem subset_union_left (a b : TokenSet) : a.subset (a.union b) = true :=
  TokenSet.subset_iff.mpr fun t ht => by rw [TokenSet.contains_union, ht, Bool.true_or]

theorem subset_union_right (a b : TokenSet) : b.subset (a.union b) = true :=
  TokenSet.subset_iff.mpr fun t ht => by rw [TokenSet.contains_union, ht, Bool.or_true]

theorem Grows.refl (items : Array LookItem) : Grows items items :=
  fun _ i h => ⟨i, h, rfl, subset_refl _⟩

theorem Grows.trans {a b c : Array LookItem} (h : Grows a b) (h' : Grows b c) : Grows a c := by
  intro place i hi
  obtain ⟨j, hj, hji, hjs⟩ := h place i hi
  obtain ⟨k, hk, hki, hks⟩ := h' place j hj
  exact ⟨k, hk, hki.trans hji, subset_trans hjs hks⟩

/-- Some item is there, with at least these lookaheads. -/
def Has (items : Array LookItem) (p : Nat) (follow : TokenSet) : Prop :=
  ∃ j ∈ items, j.item = ⟨p, 0⟩ ∧ follow.subset j.lookahead = true

theorem Grows.has {old new : Array LookItem} (h : Grows old new) {p : Nat} {follow : TokenSet}
    (hh : Has old p follow) : Has new p follow := by
  obtain ⟨j, hj, hji, hjs⟩ := hh
  obtain ⟨place, hplace⟩ := Array.getElem?_of_mem hj
  obtain ⟨k, hk, hki, hks⟩ := h place j hplace
  exact ⟨k, Array.mem_of_getElem? hk, hki.trans hji, subset_trans hjs hks⟩

/-! ## One demand -/

/-- The room that is left in some items. -/
def room (b : Basis) (items : Array LookItem) : Nat :=
  (items.toList.map fun i => TokenSet.room b.terminalCount i.lookahead).sum

/-- How many productions do not start an item. -/
def unlisted (b : Basis) (items : Array LookItem) : Nat :=
  (List.range b.rhs.size).countP fun p => !items.any fun i => i.item == ⟨p, 0⟩

/-- What can still be added to some items. -/
def potential (b : Basis) (items : Array LookItem) : Nat :=
  room b items + (b.terminalCount + 1) * unlisted b items

/-- What one demand does. -/
inductive Demanded (follow : TokenSet) (p : Nat) (s : State) : State → Prop where
  | has (h : Has s.items p follow) : Demanded follow p s s
  | widen (place : Nat) (old : LookItem) (h : s.items[place]? = some old)
      (hi : old.item = ⟨p, 0⟩) (hf : follow.subset old.lookahead = false) :
      Demanded follow p s
        { items := s.items.modify place fun i => { i with lookahead := i.lookahead.union follow }
          grown := s.grown.push place }
  | add (h : ∀ i ∈ s.items, i.item ≠ ⟨p, 0⟩) :
      Demanded follow p s
        { items := s.items.push ⟨⟨p, 0⟩, follow⟩, grown := s.grown.push s.items.size }

theorem demanded (follow : TokenSet) (p : Nat) (s : State) :
    Demanded follow p s (demand follow s p) := by
  unfold demand
  cases hf : s.items.findIdx? fun i => i.item == ⟨p, 0⟩ with
  | none =>
    refine .add fun i hi he => ?_
    have := Array.findIdx?_eq_none_iff.mp hf i hi
    simp [he] at this
  | some place =>
    obtain ⟨hlt, hi, -⟩ := Array.findIdx?_eq_some_iff_getElem.mp hf
    have hi : s.items[place].item = ⟨p, 0⟩ := by simpa using hi
    simp only [Array.getElem?_eq_getElem hlt]
    cases hs : follow.subset s.items[place].lookahead with
    | true =>
      exact .has ⟨s.items[place], Array.getElem_mem hlt, hi, hs⟩
    | false => exact .widen place s.items[place] (Array.getElem?_eq_getElem hlt) hi hs

variable {s' : State} {follow : TokenSet} {p : Nat}

theorem Demanded.grows (h : Demanded follow p s s') : Grows s.items s'.items := by
  cases h with
  | has => exact .refl _
  | widen place old hp hi hf =>
    intro place' i hi'
    show ∃ j, (s.items.modify place _)[place']? = some j ∧ _
    rw [Array.getElem?_modify]
    split
    · rw [hi']
      exact ⟨_, rfl, rfl, subset_union_left _ _⟩
    · exact ⟨i, hi', rfl, subset_refl _⟩
  | add =>
    intro place i hi
    have hlt := (Array.getElem?_eq_some_iff.mp hi).1
    refine ⟨i, ?_, rfl, subset_refl _⟩
    show (s.items.push _)[place]? = some i
    rw [Array.getElem?_push, if_neg (by omega)]
    exact hi

theorem Demanded.provides (h : Demanded follow p s s') : Has s'.items p follow := by
  cases h with
  | has h => exact h
  | widen place old hp hi hf =>
    refine ⟨{ old with lookahead := old.lookahead.union follow }, ?_, hi, subset_union_right _ _⟩
    refine Array.mem_of_getElem? (i := place) ?_
    show (s.items.modify place _)[place]? = _
    rw [Array.getElem?_modify, if_pos rfl, hp]
    rfl
  | add => exact ⟨⟨⟨p, 0⟩, follow⟩, by simp, rfl, subset_refl _⟩

/-- An item that a demand changes or adds is one that grew. -/
theorem Demanded.unchanged (h : Demanded follow p s s') {place : Nat} {i : LookItem}
    (hi : s'.items[place]? = some i) : place ∈ s'.grown ∨ s.items[place]? = some i := by
  cases h with
  | has => exact .inr hi
  | widen place' old hp hi' hf =>
    replace hi : (s.items.modify place' _)[place]? = some i := hi
    rw [Array.getElem?_modify] at hi
    split at hi
    · rename_i he
      subst he
      exact .inl (by simp)
    · exact .inr hi
  | add =>
    replace hi : (s.items.push _)[place]? = some i := hi
    rw [Array.getElem?_push] at hi
    split at hi
    · rename_i he
      exact .inl (by simp [he])
    · exact .inr hi

theorem Demanded.grown_subset (h : Demanded follow p s s') {place : Nat} (hp : place ∈ s.grown) :
    place ∈ s'.grown := by
  cases h with
  | has => exact hp
  | widen => exact Array.mem_push.mpr (.inl hp)
  | add => exact Array.mem_push.mpr (.inl hp)

theorem Demanded.items_cases (h : Demanded follow p s s') {i : LookItem} (hi : i ∈ s'.items) :
    (∃ j ∈ s.items, i.item = j.item ∧
      (i.lookahead = j.lookahead ∨ i.lookahead = j.lookahead.union follow)) ∨
    i = ⟨⟨p, 0⟩, follow⟩ := by
  obtain ⟨place, hplace⟩ := Array.getElem?_of_mem hi
  cases h with
  | has => exact .inl ⟨i, hi, rfl, .inl rfl⟩
  | widen place' old hp hi' hf =>
    replace hplace : (s.items.modify place' _)[place]? = some i := hplace
    rw [Array.getElem?_modify] at hplace
    split at hplace
    · rename_i he
      subst he
      rw [hp] at hplace
      obtain rfl := Option.some.inj hplace
      exact .inl ⟨old, Array.mem_of_getElem? hp, rfl, .inr rfl⟩
    · exact .inl ⟨i, Array.mem_of_getElem? hplace, rfl, .inl rfl⟩
  | add =>
    rcases Array.mem_push.mp hi with hi | hi
    · exact .inl ⟨i, hi, rfl, .inl rfl⟩
    · exact .inr hi

theorem Demanded.tokens (h : Demanded follow p s s') (hf : b.Tokens follow)
    (hs : Tokens b s.items) : Tokens b s'.items := by
  intro i hi
  rcases h.items_cases hi with ⟨j, hj, -, he | he⟩ | rfl
  · rw [he]
    exact hs j hj
  · rw [he]
    exact (hs j hj).union hf
  · exact hf

theorem sum_map_modify {α : Type} (f : α → Nat) (g : α → α) (l : List α) {place : Nat} {x : α}
    (h : l[place]? = some x) :
    ((l.modify place g).map f).sum + f x = (l.map f).sum + f (g x) := by
  induction l generalizing place with
  | nil => simp at h
  | cons y rest ih =>
    cases place with
    | zero =>
      obtain rfl := Option.some.inj h
      simp only [List.modify_zero_cons, List.map_cons, List.sum_cons]
      omega
    | succ place =>
      have := ih h
      simp only [List.modify_succ_cons, List.map_cons, List.sum_cons]
      omega

theorem unlisted_modify (place : Nat) (follow : TokenSet) :
    unlisted b (items.modify place fun i => { i with lookahead := i.lookahead.union follow })
      = unlisted b items := by
  have key (i : Item) :
      ((items.modify place fun j => { j with lookahead := j.lookahead.union follow }).any
        fun j => j.item == i) = items.any fun j => j.item == i := by
    rw [Bool.eq_iff_iff, Array.any_eq_true, Array.any_eq_true]
    simp only [Array.size_modify, Array.getElem_modify]
    constructor
    · rintro ⟨n, hn, h⟩
      refine ⟨n, hn, ?_⟩
      split at h <;> exact h
    · rintro ⟨n, hn, h⟩
      refine ⟨n, hn, ?_⟩
      split <;> exact h
  unfold unlisted
  simp only [key]

theorem unlisted_push_lt (follow : TokenSet) (h : ∀ i ∈ items, i.item ≠ ⟨p, 0⟩)
    (hp : p < b.rhs.size) :
    unlisted b (items.push ⟨⟨p, 0⟩, follow⟩) < unlisted b items := by
  refine TokenSet.countP_lt_countP (fun q _ hq => ?_) (List.mem_range.mpr hp) ?_ ?_
  · rw [Array.any_push, Bool.not_or, Bool.and_eq_true] at hq
    exact hq.1
  · rw [Array.any_push]
    simp
  · rw [Bool.not_eq_true', Array.any_eq_false]
    intro n hn
    simpa using h _ (Array.getElem_mem hn)

/-- Whatever grows uses up some of the potential. -/
theorem Demanded.potential_le (h : Demanded follow p s s') (hf : b.Tokens follow)
    (hp : p < b.rhs.size) :
    potential b s'.items + s'.grown.size ≤ potential b s.items + s.grown.size := by
  cases h with
  | has => exact Nat.le_refl _
  | widen place old hplace hi hs =>
    have hsum := sum_map_modify (fun i => TokenSet.room b.terminalCount i.lookahead)
      (fun i => { i with lookahead := i.lookahead.union follow }) s.items.toList
      (show s.items.toList[place]? = some old by simpa using hplace)
    have hlt := TokenSet.room_union_lt hf.below hs
    simp only [potential, room, unlisted_modify, Array.size_push, Array.toList_modify]
    simp only at hsum
    omega
  | add h =>
    have hlt := unlisted_push_lt follow h hp
    have hroom : TokenSet.room b.terminalCount follow ≤ b.terminalCount := TokenSet.room_le _ _
    have hmul := Nat.mul_le_mul_left (b.terminalCount + 1) hlt
    simp only [potential, room, Array.size_push, Array.toList_push, List.map_append,
      List.map_cons, List.map_nil, List.sum_append, List.sum_cons, List.sum_nil]
    rw [Nat.mul_succ] at hmul
    omega

theorem Demanded.nodup (h : Demanded follow p s s')
    (hs : (s.items.toList.map LookItem.item).Nodup) :
    (s'.items.toList.map LookItem.item).Nodup := by
  cases h with
  | has => exact hs
  | widen place old hplace hi hf =>
    have : (s.items.modify place fun i => { i with lookahead := i.lookahead.union follow }).toList.map
        LookItem.item = s.items.toList.map LookItem.item := by
      apply List.ext_getElem?
      intro n
      rw [Array.toList_modify, List.getElem?_map, List.getElem?_map, List.getElem?_modify]
      split <;> cases s.items.toList[n]? <;> rfl
    rw [this]
    exact hs
  | add h =>
    show ((s.items.push _).toList.map LookItem.item).Nodup
    rw [Array.toList_push, List.map_append, List.nodup_append]
    refine ⟨hs, by simp, ?_⟩
    intro x hx y hy
    obtain ⟨i, hi, rfl⟩ := List.mem_map.mp hx
    obtain rfl : y = ⟨p, 0⟩ := by simpa using hy
    exact h i (by simpa using hi)

/-! ## Rounds -/

/-- What any number of demands do. -/
structure Progress (b : Basis) (s s' : State) : Prop where
  grows : Grows s.items s'.items
  unchanged : ∀ (place : Nat) i, s'.items[place]? = some i →
    place ∈ s'.grown ∨ s.items[place]? = some i
  grown : ∀ place ∈ s.grown, place ∈ s'.grown
  tokens : Tokens b s.items → Tokens b s'.items
  nodup : (s.items.toList.map LookItem.item).Nodup → (s'.items.toList.map LookItem.item).Nodup
  implied : ∀ core, (∀ i ∈ s.items, Implied b core i.item) →
    ∀ i ∈ s'.items, Implied b core i.item
  potential_le : Tokens b s.items →
    potential b s'.items + s'.grown.size ≤ potential b s.items + s.grown.size

theorem Progress.refl (b : Basis) (s : State) : Progress b s s where
  grows := .refl _
  unchanged := fun _ _ h => .inr h
  grown := fun _ h => h
  tokens := id
  nodup := id
  implied := fun _ h => h
  potential_le := fun _ => Nat.le_refl _

theorem Progress.trans {s'' : State} (h : Progress b s s') (h' : Progress b s' s'') :
    Progress b s s'' where
  grows := h.grows.trans h'.grows
  unchanged := by
    intro place i hi
    rcases h'.unchanged place i hi with hg | hi
    · exact .inl hg
    · exact (h.unchanged place i hi).imp_left (h'.grown place)
  grown := fun place hp => h'.grown place (h.grown place hp)
  tokens := fun hs => h'.tokens (h.tokens hs)
  nodup := fun hs => h'.nodup (h.nodup hs)
  implied := fun core hs => h'.implied core (h.implied core hs)
  potential_le := fun hs => Nat.le_trans (h'.potential_le (h.tokens hs)) (h.potential_le hs)

/-- What an item of the closure asks for. -/
structure Asks (b : Basis) (i : LookItem) (p : Nat) (follow : TokenSet) : Prop where
  symbol : ∃ s, b.next? i.item = some s ∧ b.isTerminal s = false ∧ p ∈ b.byLhs[s]?.getD []
  follow : ∃ rest, follow = b.firstSets.firstOfAll i.lookahead rest

theorem asks_of_expands {i : LookItem} {ps : List Nat} {follow : TokenSet}
    (h : b.expands i = some (ps, follow)) (hp : p ∈ ps) : Asks b i p follow := by
  unfold Basis.expands at h
  split at h
  · contradiction
  · rename_i s rest ha
    split at h
    · contradiction
    · rename_i ht
      simp only [Option.some.injEq, Prod.mk.injEq] at h
      obtain ⟨rfl, rfl⟩ := h
      exact ⟨⟨s, by simp [Basis.next?, ha], by simpa using ht, hp⟩, rest, rfl⟩

theorem Demanded.progress (hb : b.Sound) {i : LookItem} (ha : Asks b i p follow)
    (hi : ∃ j ∈ s.items, j.item = i.item) (hl : b.Tokens i.lookahead)
    (h : Demanded follow p s s') : Progress b s s' := by
  obtain ⟨⟨x, hx, ht, hp⟩, rest, rfl⟩ := ha
  have hf := hb.first.firstOfAll hl rest
  refine ⟨h.grows, fun _ _ => h.unchanged, fun _ => h.grown_subset, h.tokens hf, h.nodup, ?_,
    fun _ => h.potential_le hf (hb.byLhs x p hp).2⟩
  intro core hc j hj
  rcases h.items_cases hj with ⟨j', hj', he, -⟩ | rfl
  · rw [he]
    exact hc j' hj'
  · obtain ⟨j', hj', he⟩ := hi
    exact .demand (he ▸ hc j' hj') hx ht hp

/-- The item has what it asks for. -/
def Satisfied (b : Basis) (items : Array LookItem) (i : LookItem) : Prop :=
  ∀ ps follow, b.expands i = some (ps, follow) → ∀ p ∈ ps, Has items p follow

theorem Satisfied.mono {new : Array LookItem} {i : LookItem} (h : Satisfied b items i)
    (hg : Grows items new) : Satisfied b new i :=
  fun ps follow he p hp => hg.has (h ps follow he p hp)

theorem foldl_demand (hb : b.Sound) {i : LookItem} {ps : List Nat}
    (ha : ∀ p ∈ ps, Asks b i p follow) (hi : ∃ j ∈ s.items, j.item = i.item)
    (hl : b.Tokens i.lookahead) :
    Progress b s (ps.foldl (demand follow) s)
      ∧ ∀ p ∈ ps, Has (ps.foldl (demand follow) s).items p follow := by
  induction ps generalizing s with
  | nil => exact ⟨.refl b s, by simp⟩
  | cons p rest ih =>
    have hd := demanded follow p s
    have h₁ := hd.progress hb (ha p (by simp)) hi hl
    obtain ⟨j, hj, hji⟩ := hi
    obtain ⟨place, hplace⟩ := Array.getElem?_of_mem hj
    obtain ⟨k, hk, hki, -⟩ := h₁.grows place j hplace
    obtain ⟨h₂, hhas⟩ := ih (s := demand follow s p) (fun q hq => ha q (by simp [hq]))
      ⟨k, Array.mem_of_getElem? hk, hki.trans hji⟩
    refine ⟨h₁.trans h₂, ?_⟩
    intro q hq
    rcases List.mem_cons.mp hq with rfl | hq
    · exact h₂.grows.has hd.provides
    · exact hhas q hq

theorem visit_spec (hb : b.Sound) (hs : Tokens b s.items) (place : Nat) :
    Progress b s (visit b s place)
      ∧ ∀ i, s.items[place]? = some i → Satisfied b (visit b s place).items i := by
  unfold visit
  cases hi : s.items[place]? with
  | none => exact ⟨.refl b s, by simp⟩
  | some i =>
    cases he : b.expands i with
    | none =>
      simp only [Option.bind_some, he]
      refine ⟨.refl b s, fun j hj ps follow he' => ?_⟩
      obtain rfl := Option.some.inj hj
      rw [he] at he'
      contradiction
    | some d =>
      obtain ⟨ps, follow⟩ := d
      simp only [Option.bind_some, he]
      have hm := Array.mem_of_getElem? hi
      obtain ⟨h, hhas⟩ := foldl_demand hb (s := s) (fun p hp => asks_of_expands he hp)
        ⟨i, hm, rfl⟩ (hs i hm)
      refine ⟨h, fun j hj ps' follow' he' p hp => ?_⟩
      obtain rfl := Option.some.inj hj
      rw [he] at he'
      obtain ⟨rfl, rfl⟩ := Prod.mk.inj (Option.some.inj he')
      exact hhas p hp

/-- A round satisfies the items it visits, unless they grow on the way. -/
theorem foldl_visit (hb : b.Sound) (hs : Tokens b s.items) (pending : List Nat) :
    Progress b s (pending.foldl (visit b) s)
      ∧ ∀ place ∈ pending, ∀ i, (pending.foldl (visit b) s).items[place]? = some i →
        place ∈ (pending.foldl (visit b) s).grown
          ∨ Satisfied b (pending.foldl (visit b) s).items i := by
  induction pending generalizing s with
  | nil => exact ⟨.refl b s, by simp⟩
  | cons place rest ih =>
    obtain ⟨h₁, hsat⟩ := visit_spec hb hs place
    obtain ⟨h₂, hrest⟩ := ih (h₁.tokens hs)
    refine ⟨h₁.trans h₂, ?_⟩
    intro place' hp i hi
    rcases List.mem_cons.mp hp with rfl | hp
    · rcases (h₁.trans h₂).unchanged place' i hi with hg | hi'
      · exact .inl hg
      · exact .inr ((hsat i hi').mono h₂.grows)
    · exact hrest place' hp i hi

/-- What the rounds lead to. -/
structure Result (b : Basis) (items result : Array LookItem) : Prop where
  grows : Grows items result
  tokens : Tokens b result
  nodup : (items.toList.map LookItem.item).Nodup → (result.toList.map LookItem.item).Nodup
  implied : ∀ core, (∀ i ∈ items, Implied b core i.item) → ∀ i ∈ result, Implied b core i.item
  satisfied : ∀ i ∈ result, Satisfied b result i

theorem run_nil (b : Basis) (fuel : Nat) (items : Array LookItem) : run b fuel [] items = items := by
  cases fuel <;> rfl

/-- A round in which something grows uses up some of the potential. -/
theorem Progress.potential_lt (h : Progress b ⟨items, #[]⟩ s) (hs : Tokens b items)
    (hgrown : s.grown.toList ≠ []) : potential b s.items < potential b items := by
  have hpot := h.potential_le hs
  have hsize := List.length_pos_iff.mpr hgrown
  rw [Array.length_toList] at hsize
  simp only [Array.size_empty, Nat.add_zero] at hpot
  omega

theorem run_spec (hb : b.Sound) (fuel : Nat) {pending : List Nat} (hs : Tokens b items)
    (hpot : potential b items < fuel)
    (hsat : ∀ place i, items[place]? = some i → place ∈ pending ∨ Satisfied b items i) :
    Result b items (run b fuel pending items) := by
  induction fuel generalizing pending items with
  | zero => omega
  | succ fuel ih =>
    unfold run
    split
    · rename_i hp
      rw [List.isEmpty_iff] at hp
      subst hp
      refine ⟨.refl items, hs, id, fun _ h => h, fun i hi => ?_⟩
      obtain ⟨place, hplace⟩ := Array.getElem?_of_mem hi
      exact (hsat place i hplace).resolve_left (by simp)
    · obtain ⟨h, hvisited⟩ := foldl_visit hb (s := ⟨items, #[]⟩) hs pending
      generalize pending.foldl (visit b) ⟨items, #[]⟩ = s at h hvisited
      simp only
      have hsat' : ∀ place i, s.items[place]? = some i →
          place ∈ s.grown.toList ∨ Satisfied b s.items i := by
        intro place i hi
        rcases h.unchanged place i hi with hg | hi'
        · exact .inl (Array.mem_toList_iff.mpr hg)
        · rcases hsat place i hi' with hp | hi'
          · exact (hvisited place hp i hi).imp_left Array.mem_toList_iff.mpr
          · exact .inr (hi'.mono h.grows)
      have h' : Result b s.items (run b fuel s.grown.toList s.items) := by
        cases hg : s.grown.toList with
        | nil =>
          -- nothing grew, so the rounds end here whatever the fuel is
          rw [run_nil]
          refine ⟨.refl _, h.tokens hs, id, fun _ h => h, fun i hi => ?_⟩
          obtain ⟨place, hplace⟩ := Array.getElem?_of_mem hi
          exact (hsat' place i hplace).resolve_left (by simp [hg])
        | cons place rest =>
          rw [← hg]
          have hlt := h.potential_lt hs (by simp [hg])
          exact ih (h.tokens hs) (by omega) hsat'
      exact ⟨h.grows.trans h'.grows, h'.tokens, fun hn => h'.nodup (h.nodup hn),
        fun core hc => h'.implied core (h.implied core hc), h'.satisfied⟩

/-- With enough fuel the rounds end, and more of it makes no difference. -/
theorem run_add (hb : b.Sound) (fuel more : Nat) {pending : List Nat} (hs : Tokens b items)
    (hpot : potential b items < fuel) :
    run b (fuel + more) pending items = run b fuel pending items := by
  induction fuel generalizing pending items with
  | zero => omega
  | succ fuel ih =>
    rw [Nat.add_right_comm]
    unfold run
    split
    · rfl
    · obtain ⟨h, -⟩ := foldl_visit hb (s := ⟨items, #[]⟩) hs pending
      generalize pending.foldl (visit b) ⟨items, #[]⟩ = s at h
      simp only
      cases hg : s.grown.toList with
      | nil => rw [run_nil, run_nil]
      | cons place rest =>
        rw [← hg]
        have hlt := h.potential_lt hs (by simp [hg])
        exact ih (h.tokens hs) (by omega)

end Closure

/-! ## Closures -/

namespace Basis

variable {b : Basis} {k : Kernel} {i : LookItem}

theorem potential_toArray_le (b : Basis) (k : Kernel) :
    Closure.potential b k.toArray ≤ (k.length + b.rhs.size) * (b.terminalCount + 1) := by
  have hroom : Closure.room b k.toArray ≤ k.length * b.terminalCount := by
    unfold Closure.room
    induction k with
    | nil => simp
    | cons i rest ih =>
      have := TokenSet.room_le b.terminalCount i.lookahead
      simp only [List.map_cons, List.sum_cons, List.length_cons, Nat.succ_mul] at ih ⊢
      omega
  have hunlisted : Closure.unlisted b k.toArray ≤ b.rhs.size := by
    have := List.countP_le_length (p := fun p => !k.toArray.any fun i => i.item == ⟨p, 0⟩)
      (l := List.range b.rhs.size)
    rwa [List.length_range] at this
  have hmul := Nat.mul_le_mul_left (b.terminalCount + 1) hunlisted
  have hsplit : (k.length + b.rhs.size) * (b.terminalCount + 1)
      = k.length * b.terminalCount + k.length + (b.terminalCount + 1) * b.rhs.size := by
    rw [Nat.add_mul, Nat.mul_succ, Nat.mul_comm b.rhs.size]
  unfold Closure.potential
  omega

theorem closure_result (hb : b.Sound) (hk : ∀ i ∈ k, b.Tokens i.lookahead) :
    Closure.Result b k.toArray (b.closure k).toArray := by
  unfold closure
  rw [Array.toArray_toList]
  refine Closure.run_spec hb _ (fun i hi => hk i (by simpa using hi)) ?_ fun place i hi => ?_
  · exact Nat.lt_succ_of_le (potential_toArray_le b k)
  · have := (Array.getElem?_eq_some_iff.mp hi).1
    exact .inl (List.mem_range.mpr (by simpa using this))

/-- The items of a closure are those that the kernel implies. -/
theorem mem_closure_iff (hb : b.Sound) (hk : ∀ i ∈ k, b.Tokens i.lookahead)
    {x : Item} : (∃ i ∈ b.closure k, i.item = x) ↔ Implied b (core k) x := by
  have h := closure_result hb hk
  constructor
  · rintro ⟨i, hi, rfl⟩
    refine h.implied (core k) (fun j hj => .kernel ?_) i (by simpa using hi)
    exact List.mem_map_of_mem (by simpa using hj)
  · intro hx
    induction hx with
    | kernel hx =>
      obtain ⟨j, hj, rfl⟩ := List.mem_map.mp hx
      obtain ⟨place, hplace⟩ := List.getElem?_of_mem hj
      obtain ⟨j', hj', he, -⟩ := h.grows place j (by simpa using hplace)
      exact ⟨j', by simpa using Array.mem_of_getElem? hj', he⟩
    | @demand x s p _ hn ht hp ih =>
      obtain ⟨i, hi, rfl⟩ := ih
      cases ha : b.after i.item with
      | nil => simp [next?, ha] at hn
      | cons s' rest =>
        obtain rfl : s' = s := by simpa [next?, ha] using hn
        have he : b.expands i
            = some (b.byLhs[s']?.getD [], b.firstSets.firstOfAll i.lookahead rest) := by
          simp [expands, ha, ht]
        obtain ⟨j, hj, hji, -⟩ := h.satisfied i (by simpa using hi) _ _ he p hp
        exact ⟨j, by simpa using hj, hji⟩

theorem tokens_closure (hb : b.Sound) (hk : ∀ i ∈ k, b.Tokens i.lookahead)
    (hi : i ∈ b.closure k) : b.Tokens i.lookahead :=
  (closure_result hb hk).tokens i (by simpa using hi)

theorem nodup_closure (hb : b.Sound) (hk : ∀ i ∈ k, b.Tokens i.lookahead)
    (hn : (core k).Nodup) : ((b.closure k).map LookItem.item).Nodup := by
  simpa using (closure_result hb hk).nodup (by simpa [core] using hn)

/-- Adds the tokens that an item makes valid. -/
def addValid (b : Basis) (valid : TokenSet) (i : LookItem) : TokenSet :=
  match b.next? i.item with
  | some s => if b.isTerminal s then valid.insert s else valid
  | none => valid.union i.lookahead

theorem validTerminals_eq (b : Basis) (k : Kernel) :
    b.validTerminals k = (b.closure k).foldl b.addValid TokenSet.empty := rfl

/-- The tokens that are valid in a state are tokens. -/
theorem tokens_validTerminals (hb : b.Sound) (hk : ∀ i ∈ k, b.Tokens i.lookahead) :
    b.Tokens (b.validTerminals k) := by
  have key (l : List LookItem) (hl : ∀ i ∈ l, b.Tokens i.lookahead) (a : TokenSet)
      (ha : b.Tokens a) : b.Tokens (l.foldl b.addValid a) := by
    induction l generalizing a with
    | nil => exact ha
    | cons i rest ih =>
      refine ih (fun j hj => hl j (by simp [hj])) _ ?_
      unfold addValid
      split
      · split
        · rename_i ht
          exact ha.insert ht
        · exact ha
      · exact ha.union (hl i (by simp))
  exact key (b.closure k) (fun i hi => tokens_closure hb hk hi) _ tokens_empty

end Basis

end Glr.Automaton
