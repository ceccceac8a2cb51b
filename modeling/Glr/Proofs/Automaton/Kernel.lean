import Glr.Proofs.Automaton.Closure

/-!
# Glr.Proofs.Automaton.Kernel

Kernels and their successors.  A kernel lists its items in order and each of
them once, so its items alone decide which list they are; the items of a
successor depend on the items of the kernel only, its lookaheads on both.
-/

namespace Glr

theorem mem_eraseReps {α : Type} [BEq α] [LawfulBEq α] {x : α} {xs : List α} :
    x ∈ xs.eraseReps ↔ x ∈ xs := by
  have loop (as : List α) (a : α) (acc : List α) :
      x ∈ List.eraseRepsBy.loop (· == ·) a as acc ↔ x ∈ acc ∨ x = a ∨ x ∈ as := by
    induction as generalizing a acc with
    | nil => simp [List.eraseRepsBy.loop, or_comm]
    | cons b as ih =>
      unfold List.eraseRepsBy.loop
      split
      · rename_i h
        obtain rfl : a = b := by simpa using h
        rw [ih, List.mem_cons, ← or_assoc (a := x = a) (b := x = a), or_self]
      · rw [ih, List.mem_cons, List.mem_cons]
        rw [or_assoc, or_left_comm]
  cases xs with
  | nil => simp [List.eraseReps, List.eraseRepsBy]
  | cons a as =>
    show x ∈ List.eraseRepsBy.loop (· == ·) a as [] ↔ _
    rw [loop, List.mem_cons]
    simp

namespace Automaton

/-! ## Items -/

/-- The position of an item is one of its production. -/
def Basis.HasItem (b : Basis) (x : Item) : Prop :=
  ∃ r, b.rhs[x.production]? = some r ∧ x.dot ≤ r.length

theorem Item.le_iff {x y : Item} :
    x.le y = true ↔ x.production < y.production ∨ x.production = y.production ∧ x.dot ≤ y.dot := by
  simp [Item.le]

theorem Item.le_antisymm {x y : Item} (h : x.le y = true) (h' : y.le x = true) : x = y := by
  rw [Item.le_iff] at h h'
  obtain ⟨p, d⟩ := x
  obtain ⟨q, e⟩ := y
  simp only [Item.mk.injEq] at h h' ⊢
  omega

/-- What holds of the kernel of every state. -/
structure Kernel.Sound (b : Basis) (k : Kernel) : Prop where
  tokens : ∀ i ∈ k, b.Tokens i.lookahead
  sorted : (core k).Pairwise fun x y => x.le y = true
  nodup : (core k).Nodup
  items : ∀ x ∈ core k, b.HasItem x

/-- Sorted lists with the same items are equal. -/
theorem core_ext {xs ys : List Item} (hx : xs.Pairwise fun x y => x.le y = true)
    (hy : ys.Pairwise fun x y => x.le y = true) (hxn : xs.Nodup) (hyn : ys.Nodup)
    (h : ∀ x, x ∈ xs ↔ x ∈ ys) : xs = ys :=
  List.Perm.eq_of_pairwise (fun _ _ _ _ => Item.le_antisymm) hx hy
    ((List.perm_ext_iff_of_nodup hxn hyn).mpr h)

namespace Basis

variable {b : Basis} {k k' : Kernel} {s : Symbol} {x : Item}

theorem hasItem_of_next? (h : b.next? x = some s) :
    b.HasItem ⟨x.production, x.dot + 1⟩ := by
  unfold next? after at h
  cases hr : b.rhs[x.production]? with
  | none => simp [hr] at h
  | some r =>
    refine ⟨r, hr, ?_⟩
    simp only [hr, Option.getD_some, List.head?_drop] at h
    exact (List.getElem?_eq_some_iff.mp h).1

theorem Implied.hasItem (hb : b.Sound) (hk : k.Sound b) (h : Implied b (core k) x) :
    b.HasItem x := by
  cases h with
  | kernel h => exact hk.items x h
  | demand _ _ _ hp =>
    obtain ⟨_, hlt⟩ := hb.byLhs _ _ hp
    exact ⟨_, Array.getElem?_eq_getElem hlt, Nat.zero_le _⟩

/-! ## Successors -/

theorem mem_nextSymbols {closure : List LookItem} :
    s ∈ b.nextSymbols closure ↔ ∃ i ∈ closure, b.next? i.item = some s := by
  simp [nextSymbols, mem_eraseReps]

/-- The symbols of transitions depend on the items only. -/
theorem mem_nextSymbols_closure (hb : b.Sound) (hk : k.Sound b) :
    s ∈ b.nextSymbols (b.closure k) ↔ ∃ x, Implied b (core k) x ∧ b.next? x = some s := by
  rw [mem_nextSymbols]
  constructor
  · rintro ⟨i, hi, hn⟩
    exact ⟨i.item, (mem_closure_iff hb hk.tokens).mp ⟨i, hi, rfl⟩, hn⟩
  · rintro ⟨x, hx, hn⟩
    obtain ⟨i, hi, rfl⟩ := (mem_closure_iff hb hk.tokens).mpr hx
    exact ⟨i, hi, hn⟩

theorem mem_core_advanceOver {closure : List LookItem} :
    x ∈ core (b.advanceOver closure s) ↔
      ∃ i ∈ closure, b.next? i.item = some s ∧ x = ⟨i.item.production, i.item.dot + 1⟩ := by
  simp only [core, advanceOver, List.mem_map, SortedList.mem_sort, List.mem_filterMap]
  constructor
  · rintro ⟨j, ⟨i, hi, hj⟩, rfl⟩
    split at hj
    · rename_i hn
      obtain rfl := Option.some.inj hj
      exact ⟨i, hi, by simpa using hn, rfl⟩
    · contradiction
  · rintro ⟨i, hi, hn, rfl⟩
    exact ⟨⟨⟨i.item.production, i.item.dot + 1⟩, i.lookahead⟩, ⟨i, hi, by simp [hn]⟩, rfl⟩

theorem mem_core_advanceOver_closure (hb : b.Sound) (hk : k.Sound b) :
    x ∈ core (b.advanceOver (b.closure k) s) ↔
      ∃ y, Implied b (core k) y ∧ b.next? y = some s ∧ x = ⟨y.production, y.dot + 1⟩ := by
  rw [mem_core_advanceOver]
  constructor
  · rintro ⟨i, hi, hn, rfl⟩
    exact ⟨i.item, (mem_closure_iff hb hk.tokens).mp ⟨i, hi, rfl⟩, hn, rfl⟩
  · rintro ⟨y, hy, hn, rfl⟩
    obtain ⟨i, hi, rfl⟩ := (mem_closure_iff hb hk.tokens).mpr hy
    exact ⟨i, hi, hn, rfl⟩

/-- A successor is a sound kernel. -/
theorem sound_advanceOver (hb : b.Sound) (hk : k.Sound b) (s : Symbol) :
    Kernel.Sound b (b.advanceOver (b.closure k) s) where
  tokens := by
    intro i hi
    simp only [advanceOver, SortedList.mem_sort, List.mem_filterMap] at hi
    obtain ⟨j, hj, hi⟩ := hi
    split at hi
    · obtain rfl := Option.some.inj hi
      exact tokens_closure (i := j) hb hk.tokens hj
    · contradiction
  sorted := by
    unfold core advanceOver
    rw [List.pairwise_map]
    refine SortedList.pairwise_sort (fun i j m hij hjm => ?_) fun i j => ?_
    · rw [Item.le_iff] at hij hjm ⊢
      omega
    · rw [Item.le_iff, Item.le_iff]
      omega
  nodup := by
    unfold core advanceOver
    refine (SortedList.sort_perm.map LookItem.item).nodup_iff.mpr ?_
    have hn := nodup_closure hb hk.tokens hk.nodup
    rw [List.Nodup, List.pairwise_map] at hn ⊢
    rw [List.pairwise_filterMap]
    refine hn.imp fun {i j} hij => ?_
    intro i' hi' j' hj'
    split at hi'
    · split at hj'
      · obtain rfl := Option.some.inj hi'
        obtain rfl := Option.some.inj hj'
        intro he
        simp only [Item.mk.injEq, Nat.add_right_cancel_iff] at he
        exact hij (by
          obtain ⟨⟨p, d⟩, l⟩ := i
          obtain ⟨⟨q, e⟩, m⟩ := j
          simp only [Item.mk.injEq] at he ⊢
          exact he)
      · contradiction
    · contradiction
  items := by
    intro x hx
    obtain ⟨i, _, hn, rfl⟩ := mem_core_advanceOver.mp hx
    exact hasItem_of_next? hn

/-- The items of a successor depend on the items of the kernel only. -/
theorem core_advanceOver_congr (hb : b.Sound) (hk : k.Sound b) (hk' : k'.Sound b)
    (h : core k = core k') (s : Symbol) :
    core (b.advanceOver (b.closure k) s) = core (b.advanceOver (b.closure k') s) := by
  have hs := sound_advanceOver hb hk s
  have hs' := sound_advanceOver hb hk' s
  refine core_ext hs.sorted hs'.sorted hs.nodup hs'.nodup fun x => ?_
  rw [mem_core_advanceOver_closure hb hk, mem_core_advanceOver_closure hb hk', h]

end Basis

/-! ## Merging -/

/-- A kernel has the items of another one, with all their lookaheads. -/
structure Kernel.Covers (big small : Kernel) : Prop where
  core : core big = core small
  lookaheads : coversLookaheads big small = true

variable {b : Basis} {k k' k'' : Kernel}

theorem coversLookaheads_iff :
    coversLookaheads k k' = true ↔
      ∀ (n : Nat) i i', k[n]? = some i → k'[n]? = some i' →
        i'.lookahead.subset i.lookahead = true := by
  unfold coversLookaheads
  rw [List.all_eq_true]
  constructor
  · intro hall n i i' hi hi'
    refine hall (i, i') (List.mem_of_getElem? (i := n) ?_)
    rw [List.getElem?_zip_eq_some]
    exact ⟨hi, hi'⟩
  · rintro hall ⟨i, i'⟩ hm
    obtain ⟨n, hn⟩ := List.getElem?_of_mem hm
    rw [List.getElem?_zip_eq_some] at hn
    exact hall n i i' hn.1 hn.2

theorem length_eq_of_core_eq (h : core k = core k') : k.length = k'.length := by
  have := congrArg List.length h
  simpa [core] using this

theorem Kernel.Covers.refl (k : Kernel) : Kernel.Covers k k where
  core := rfl
  lookaheads := coversLookaheads_iff.mpr fun n i i' hi hi' => by
    rw [hi] at hi'
    obtain rfl := Option.some.inj hi'
    exact Closure.subset_refl _

theorem Kernel.Covers.trans (h : Kernel.Covers k k') (h' : Kernel.Covers k' k'') :
    Kernel.Covers k k'' where
  core := h.core.trans h'.core
  lookaheads := coversLookaheads_iff.mpr fun n i i'' hi hi'' => by
    have hlt : n < k'.length := by
      rw [← length_eq_of_core_eq h.core]
      exact (List.getElem?_eq_some_iff.mp hi).1
    have hi' := List.getElem?_eq_getElem hlt
    exact Closure.subset_trans (coversLookaheads_iff.mp h'.lookaheads n _ _ hi' hi'')
      (coversLookaheads_iff.mp h.lookaheads n _ _ hi hi')

theorem getElem?_mergeLookaheads {n : Nat} :
    (mergeLookaheads k k')[n]? =
      (k[n]?.bind fun i => k'[n]?.map fun j =>
        { i with lookahead := i.lookahead.union j.lookahead }) := by
  unfold mergeLookaheads
  rw [List.getElem?_zipWith]
  cases k[n]? <;> cases k'[n]? <;> rfl

theorem core_mergeLookaheads (h : core k = core k') : core (mergeLookaheads k k') = core k := by
  apply List.ext_getElem?
  intro n
  unfold core
  rw [List.getElem?_map, List.getElem?_map, getElem?_mergeLookaheads]
  cases hi : k[n]? with
  | none => rfl
  | some i =>
    have hlt : n < k'.length := by
      rw [← length_eq_of_core_eq h]
      exact (List.getElem?_eq_some_iff.mp hi).1
    rw [List.getElem?_eq_getElem hlt]
    rfl

/-- A merged kernel covers both. -/
theorem covers_mergeLookaheads (h : core k = core k') :
    Kernel.Covers (mergeLookaheads k k') k ∧ Kernel.Covers (mergeLookaheads k k') k' := by
  have hm := core_mergeLookaheads h
  refine ⟨⟨hm, coversLookaheads_iff.mpr ?_⟩,
    ⟨hm.trans h, coversLookaheads_iff.mpr ?_⟩⟩
  · intro n m i hn hi
    rw [getElem?_mergeLookaheads, hi, Option.bind_some, Option.map_eq_some_iff] at hn
    obtain ⟨j, _, rfl⟩ := hn
    exact Closure.subset_union_left _ _
  · intro n m j hn hj
    rw [getElem?_mergeLookaheads, hj, Option.bind_eq_some_iff] at hn
    obtain ⟨i, _, he⟩ := hn
    obtain rfl := Option.some.inj he
    exact Closure.subset_union_right _ _

theorem tokens_mergeLookaheads (hk : ∀ i ∈ k, b.Tokens i.lookahead)
    (hk' : ∀ i ∈ k', b.Tokens i.lookahead) : ∀ i ∈ mergeLookaheads k k', b.Tokens i.lookahead := by
  intro m hm
  obtain ⟨n, hn⟩ := List.getElem?_of_mem hm
  rw [getElem?_mergeLookaheads, Option.bind_eq_some_iff] at hn
  obtain ⟨i, hi, hn⟩ := hn
  obtain ⟨j, hj, rfl⟩ := Option.map_eq_some_iff.mp hn
  exact (hk i (List.mem_of_getElem? hi)).union (hk' j (List.mem_of_getElem? hj))

theorem Kernel.Sound.merge (hk : k.Sound b) (hk' : k'.Sound b) (h : core k = core k') :
    Kernel.Sound b (mergeLookaheads k k') := by
  refine ⟨tokens_mergeLookaheads hk.tokens hk'.tokens, ?_, ?_, ?_⟩
  · rw [core_mergeLookaheads h]
    exact hk.sorted
  · rw [core_mergeLookaheads h]
    exact hk.nodup
  · rw [core_mergeLookaheads h]
    exact hk.items

/-! ## Room -/

/-- The room that the lookaheads of a kernel leave. -/
def Kernel.room (b : Basis) (k : Kernel) : Nat :=
  (k.map fun i => TokenSet.room b.terminalCount i.lookahead).sum

theorem Kernel.room_le : k.room b ≤ k.length * b.terminalCount := by
  unfold Kernel.room
  induction k with
  | nil => simp
  | cons i rest ih =>
    have := TokenSet.room_le b.terminalCount i.lookahead
    simp only [List.map_cons, List.sum_cons, List.length_cons, Nat.succ_mul]
    omega

theorem Kernel.room_cons (i : LookItem) (k : Kernel) :
    Kernel.room b (i :: k) = TokenSet.room b.terminalCount i.lookahead + k.room b := rfl

theorem mergeLookaheads_cons (i j : LookItem) (k k' : Kernel) :
    mergeLookaheads (i :: k) (j :: k')
      = { i with lookahead := i.lookahead.union j.lookahead } :: mergeLookaheads k k' := rfl

theorem Kernel.room_merge_le : (mergeLookaheads k k').room b ≤ k.room b := by
  induction k generalizing k' with
  | nil => exact Nat.le_refl _
  | cons i k ih =>
    cases k' with
    | nil => exact Nat.zero_le _
    | cons j k' =>
      rw [mergeLookaheads_cons, room_cons, room_cons]
      exact Nat.add_le_add TokenSet.room_union_le ih

/-- A merge that adds lookaheads uses up room. -/
theorem Kernel.room_merge_lt (hk' : ∀ j ∈ k', b.Tokens j.lookahead)
    (hc : coversLookaheads k k' = false) : (mergeLookaheads k k').room b < k.room b := by
  induction k generalizing k' with
  | nil => simp [coversLookaheads] at hc
  | cons i k ih =>
    cases k' with
    | nil => simp [coversLookaheads] at hc
    | cons j k' =>
      replace hc : (j.lookahead.subset i.lookahead && coversLookaheads k k') = false := hc
      rw [Bool.and_eq_false_iff] at hc
      rw [mergeLookaheads_cons, room_cons, room_cons]
      rcases hc with hc | hc
      · exact Nat.add_lt_add_of_lt_of_le (TokenSet.room_union_lt (hk' j (by simp)).below hc)
          room_merge_le
      · exact Nat.add_lt_add_of_le_of_lt TokenSet.room_union_le
          (ih (fun x hx => hk' x (by simp [hx])) hc)

end Automaton

end Glr
