import Glr.Proofs.Automaton.Finite

/-!
# Glr.Proofs.Automaton.Expansions

The order in which states are expanded.  A state comes up again whenever its kernel grows,
and then its successors are judged anew, against sets that may have grown too.  What keeps
this finite is, for each state `i`,

```
share i = room in the kernel of i + places of i in the queue
```

An expansion of `i` takes one place, a new place is paid for by room in the kernel, and a
state that is made takes no more than `items · tokens + 1`.
-/

namespace Glr

namespace Automaton

namespace ItemSets

variable {b : Basis} {s s' : ItemSets} {i j target : StateId} {k : Kernel} {x : Symbol}
  {valid : TokenSet} {order : List StateId}

/-- The states that come up by expanding one waiting state after the other, and the order
in which that was done. -/
inductive Expansions (b : Basis) : List StateId → ItemSets → Prop where
  | initial : Expansions b [] (initial b)
  | expand {order : List StateId} {s s' : ItemSets} {i : StateId} (h : Expansions b order s)
      (hn : s.next? = some (i, s')) : Expansions b (order ++ [i]) (s'.expand b i)

/-! ## Runs -/

/-- A run goes through such an order. -/
theorem Expansions.run (h : Expansions b order s) (fuel : Nat) :
    ∃ order', Expansions b (order ++ order') (ItemSets.run b fuel s) := by
  induction fuel generalizing order s with
  | zero => exact ⟨[], (List.append_nil order).symm ▸ h⟩
  | succ fuel ih =>
    unfold ItemSets.run
    cases hn : s.next? with
    | none => exact ⟨[], (List.append_nil order).symm ▸ h⟩
    | some p =>
      obtain ⟨order', h'⟩ := ih (h.expand hn)
      exact ⟨p.1 :: order', by simpa using h'⟩

theorem exists_expansions_ofBasis (b : Basis) : ∃ order, Expansions b order (ofBasis b) := by
  obtain ⟨order, h⟩ := Expansions.initial.run (b := b) (bound b)
  exact ⟨order, h⟩

/-- There is one order: a run from the start state passes every states that come up. -/
theorem Expansions.run_initial (h : Expansions b order s) (fuel : Nat) :
    ItemSets.run b (order.length + fuel) (ItemSets.initial b) = ItemSets.run b fuel s := by
  induction h generalizing fuel with
  | initial => rw [List.length_nil, Nat.zero_add]
  | @expand order s s' i _ hn ih =>
    rw [List.length_append, List.length_singleton, Nat.add_assoc, Nat.add_comm 1, ih]
    conv => lhs; unfold ItemSets.run
    rw [hn]

/-! ## The share of a state -/

/-- How many places a state has in the queue. -/
def places (s : ItemSets) (i : StateId) : Nat := s.front.count i + s.back.count i

/-- How often a state can still come up. -/
def share (b : Basis) (s : ItemSets) (i : StateId) : Nat :=
  (match s.kernels[i]? with
    | some k => k.room b
    | none => b.itemCount * b.terminalCount + 1) + s.places i

theorem places_enqueue_le (s : ItemSets) (j : StateId) :
    (s.enqueue j).places i ≤ s.places i + if j = i then 1 else 0 := by
  unfold enqueue
  split
  · exact Nat.le_add_right _ _
  · simp only [places, List.count_cons, beq_iff_eq]
    omega

theorem places_next? (h : s.next? = some (j, s')) :
    s'.places i + (if j = i then 1 else 0) = s.places i := by
  unfold next? at h
  split at h
  · rename_i hf
    obtain ⟨rfl, rfl⟩ := Prod.mk.inj (Option.some.inj h)
    simp only [places, hf, List.count_cons, beq_iff_eq]
    omega
  · rename_i hf
    split at h
    · rename_i hb
      obtain ⟨rfl, rfl⟩ := Prod.mk.inj (Option.some.inj h)
      have hcount := congrArg (List.count i) hb
      rw [List.count_reverse, List.count_cons] at hcount
      simp only [places, hf, List.count_nil, hcount, beq_iff_eq]
      omega
    · contradiction

/-- The room that a merge uses up pays for the place in the queue. -/
theorem share_merge_le {old : Kernel} (ht : s.kernels[target]? = some old) (hk : k.Sound b) :
    share b (s.merge target k valid) i ≤ share b s i := by
  unfold merge
  simp only [ht]
  cases hcov : coversLookaheads old k with
  | true => exact Nat.le_refl _
  | false =>
    have hlt := Kernel.room_merge_lt hk.tokens hcov
    have hsize := (Array.getElem?_eq_some_iff.mp ht).1
    have hq := places_enqueue_le (i := i) { s with
      kernels := s.kernels.setIfInBounds target (mergeLookaheads old k)
      valid := s.valid.modify target (TokenSet.union · valid) } target
    simp only [Bool.not_false, if_true, share, kernels_enqueue, Array.getElem?_setIfInBounds]
    by_cases he : target = i
    · subst he
      simp only [if_true, hsize, ht] at hq ⊢
      simp only [places] at hq ⊢
      omega
    · simp only [he, if_false] at hq ⊢
      exact Nat.add_le_add_left hq _

theorem share_create_le (s : ItemSets) (valid : TokenSet) (hk : k.Sound b) :
    share b (s.create k valid) i ≤ share b s i := by
  have hroom := hk.room_le
  simp only [share, places, create, Array.getElem?_push, List.count_cons, beq_iff_eq]
  by_cases he : i = s.kernels.size
  · subst he
    rw [Array.getElem?_eq_none (Nat.le_refl _)]
    simp only [if_true]
    omega
  · simp only [he, Ne.symm he, if_false]
    exact Nat.le_refl _

theorem share_arrive_le (h : Inv b s) (hk : k.Sound b) :
    share b (arrive b j s (x, k)) i ≤ share b s i := by
  unfold arrive
  simp only
  split
  · rename_i t hfind
    obtain ⟨old, hold, -⟩ := (h.byCore _ _).mp (List.mem_of_find?_eq_some hfind)
    exact share_merge_le hold hk
  · split
    · exact share_create_le s (b.validTerminals k) hk
    · exact share_create_le { s with splits := s.splits + 1 } (b.validTerminals k) hk

theorem foldl_arrive_share_le (hb : b.Sound) (hk : k.Sound b) {kj : Kernel} (xs : List Symbol)
    (hxs : ∀ x ∈ xs, x ∈ b.nextSymbols (b.closure k)) (h : Inv b s)
    (hj : s.kernels[j]? = some kj) (hc : core kj = core k) :
    share b ((xs.map fun x => (x, b.advanceOver (b.closure k) x)).foldl (arrive b j) s) i
      ≤ share b s i := by
  induction xs generalizing s kj with
  | nil => exact Nat.le_refl _
  | cons x xs ih =>
    have hs := arrive_spec hb h hj hk hc (hxs x (by simp))
    obtain ⟨kj', hkj', hcj⟩ := hs.extends'.kernels j kj hj
    exact Nat.le_trans (ih (fun y hy => hxs y (by simp [hy])) hs.inv hkj' (hcj.core.trans hc))
      (share_arrive_le h (Basis.sound_advanceOver hb hk x))

/-- An expansion takes one from the share of its state, and nothing adds to a share. -/
theorem share_expand_le (hb : b.Sound) (h : Stable b s) (hn : s.next? = some (j, s')) :
    share b (s'.expand b j) i + (if j = i then 1 else 0) ≤ share b s i := by
  have h₁ := taken_inv h hn
  have hkernels := (next?_spec hn).1
  have htaken : share b { s' with queued := s'.queued.setIfInBounds j false } i
      + (if j = i then 1 else 0) = share b s i := by
    have hplaces := places_next? (i := i) hn
    simp only [share, hkernels, places] at hplaces ⊢
    omega
  refine Nat.le_trans (Nat.add_le_add_right ?_ _) (Nat.le_of_eq htaken)
  unfold expand
  simp only
  cases hk : s'.kernels[j]? with
  | none => exact Nat.le_refl _
  | some k =>
    exact foldl_arrive_share_le hb (h₁.kernels j k hk) (b.nextSymbols (b.closure k))
      (fun _ hx => hx) h₁ hk rfl

/-! ## Any number of expansions -/

section

variable (hb : b.Sound) (hr : 0 < b.rhs.size)

include hb hr

theorem Expansions.stable (h : Expansions b order s) : Stable b s := by
  induction h with
  | initial => exact initial_stable hb hr
  | expand _ hn ih => exact expand_stable hb ih hn

theorem Expansions.apart (h : Expansions b order s) : Apart b s := by
  induction h with
  | initial => exact initial_apart hb hr
  | expand h hn ih => exact (expand_finite hb (h.stable hb hr) ih hn).1

/-- All expansions together are paid for by the potential of the start state. -/
theorem Expansions.length_le (h : Expansions b order s) :
    order.length + potential b (maxStates b) s ≤ bound b := by
  induction h with
  | initial => simpa using potential_initial_le hb hr
  | expand h hn ih =>
    have hlt := (expand_finite hb (h.stable hb hr) (h.apart hb hr) hn).2
    rw [List.length_append, List.length_singleton]
    omega

theorem Expansions.count_le (h : Expansions b order s) (i : StateId) :
    order.count i + share b s i ≤ b.itemCount * b.terminalCount + 1 := by
  induction h with
  | initial =>
    have hroom := (sound_startKernel hb hr).room_le
    cases i with
    | zero => simpa [share, places, ItemSets.initial] using hroom
    | succ i => simp [share, places, ItemSets.initial]
  | @expand order s s' j h hn ih =>
    have hle := share_expand_le (i := i) hb (h.stable hb hr) hn
    rw [List.count_append, List.count_singleton]
    simp only [beq_iff_eq] at hle ⊢
    omega

end

/-! ## Items -/

section

variable {P : LookItem → Prop}

theorem forall_mergeLookaheads (hunion : ∀ x y l l', P ⟨x, l⟩ → P ⟨y, l'⟩ → P ⟨x, l.union l'⟩)
    {k' : Kernel} (hk : ∀ i ∈ k, P i) (hk' : ∀ i ∈ k', P i) : ∀ i ∈ mergeLookaheads k k', P i := by
  intro i hi
  obtain ⟨n, hn⟩ := List.getElem?_of_mem hi
  rw [getElem?_mergeLookaheads, Option.bind_eq_some_iff] at hn
  obtain ⟨j, hj, hn⟩ := hn
  obtain ⟨j', hj', rfl⟩ := Option.map_eq_some_iff.mp hn
  exact hunion _ _ _ _ (hk j (List.mem_of_getElem? hj)) (hk' j' (List.mem_of_getElem? hj'))

theorem forall_arrive (hunion : ∀ x y l l', P ⟨x, l⟩ → P ⟨y, l'⟩ → P ⟨x, l.union l'⟩)
    (hs : ∀ (j : Nat) k, s.kernels[j]? = some k → ∀ i ∈ k, P i) (hk : ∀ i ∈ k, P i) :
    ∀ (j : Nat) k', (arrive b i s (x, k)).kernels[j]? = some k' → ∀ i ∈ k', P i := by
  have hcreate (s : ItemSets) (hs : ∀ (j : Nat) k, s.kernels[j]? = some k → ∀ i ∈ k, P i)
      (j : Nat) (k' : Kernel) (hk' : (s.kernels.push k)[j]? = some k') : ∀ i ∈ k', P i := by
    rw [Array.getElem?_push] at hk'
    split at hk'
    · exact Option.some.inj hk' ▸ hk
    · exact hs j k' hk'
  intro j k' hk'
  unfold arrive at hk'
  simp only at hk'
  split at hk'
  · rename_i target hfind
    change (s.merge target k (b.validTerminals k)).kernels[j]? = some k' at hk'
    unfold merge at hk'
    cases hold : s.kernels[target]? with
    | none =>
      simp only [hold] at hk'
      exact hs j k' hk'
    | some old =>
      simp only [hold] at hk'
      split at hk'
      · rw [kernels_enqueue, Array.getElem?_setIfInBounds] at hk'
        split at hk'
        · split at hk'
          · exact Option.some.inj hk' ▸ forall_mergeLookaheads hunion (hs target old hold) hk
          · contradiction
        · exact hs j k' hk'
      · exact hs j k' hk'
  · split at hk'
    · exact hcreate s hs j k' hk'
    · exact hcreate { s with splits := s.splits + 1 } hs j k' hk'

/-- What holds of the items of the start state, is kept by successors and when lookaheads are
joined holds of the items of all states. -/
theorem Expansions.forall_items (hb : b.Sound) (hr : 0 < b.rhs.size)
    (hstart : ∀ i ∈ startKernel, P i)
    (hunion : ∀ x y l l', P ⟨x, l⟩ → P ⟨y, l'⟩ → P ⟨x, l.union l'⟩)
    (hadvance : ∀ (k : Kernel) (x : Symbol), k.Sound b → (∀ i ∈ k, P i) →
      ∀ i ∈ b.advanceOver (b.closure k) x, P i)
    (h : Expansions b order s) : ∀ (j : Nat) k, s.kernels[j]? = some k → ∀ i ∈ k, P i := by
  induction h with
  | initial =>
    intro j k hk
    cases j with
    | zero => exact Option.some.inj hk ▸ hstart
    | succ j => simp [ItemSets.initial] at hk
  | @expand order s s' j h hn ih =>
    have h₁ := taken_inv (h.stable hb hr) hn
    have hkernels := (next?_spec hn).1
    have harrivals (xs : List (Symbol × Kernel)) (hxs : ∀ e ∈ xs, ∀ i ∈ e.2, P i)
        (s : ItemSets) (hs : ∀ (j : Nat) k, s.kernels[j]? = some k → ∀ i ∈ k, P i) :
        ∀ (l : Nat) k, (xs.foldl (arrive b j) s).kernels[l]? = some k → ∀ i ∈ k, P i := by
      induction xs generalizing s with
      | nil => exact hs
      | cons e xs ih =>
        obtain ⟨he, hxs⟩ := List.forall_mem_cons.mp hxs
        exact ih hxs _ (forall_arrive hunion hs he)
    have hs' : ∀ (l : Nat) k, s'.kernels[l]? = some k → ∀ i ∈ k, P i := by
      rw [hkernels]
      exact ih
    unfold ItemSets.expand
    simp only
    cases hk : s'.kernels[j]? with
    | none => exact hs'
    | some k =>
      refine harrivals _ (fun e he => ?_) _ hs'
      obtain ⟨x, -, rfl⟩ := List.mem_map.mp he
      exact hadvance k x (h₁.kernels j k hk) (hs' j k hk)

end

/-- The construction of the states ends.  However far it has come, there are at most as many
states as pairs of a set of items and a set of tokens, and each was expanded at most once for
itself and once for each item and token.  It comes to states of which none waits, and those
are the states of the automaton. -/
theorem expansions_end {grammar : Grammar} {g : FlatGrammar}
    (hg : FlatGrammar.ofGrammar grammar = .ok g) :
    let b := Basis.ofGrammar g
    (∀ order s, Expansions b order s →
      s.kernels.size ≤ 2 ^ (b.itemCount + b.terminalCount) ∧
      (∀ i, order.count i ≤ b.itemCount * b.terminalCount + 1) ∧
      order.length ≤ 2 ^ (b.itemCount + b.terminalCount) * (b.itemCount * b.terminalCount + 2) ∧
      (s.next? = none → s = ofBasis b)) ∧
    (∃ order, Expansions b order (ofBasis b)) ∧ (ofBasis b).next? = none := by
  intro b
  have hb : b.Sound := Basis.ofGrammar_sound (FlatGrammar.ofGrammar_wellFormed hg)
  have hr : 0 < b.rhs.size := by rw [Basis.size_rhs]; exact Nat.succ_pos _
  refine ⟨fun order s h => ⟨?_, fun i => ?_, ?_, fun hn => ?_⟩,
    exists_expansions_ofBasis b, next?_ofBasis hb hr⟩
  · exact (h.apart hb hr).size_le (h.stable hb hr).toInv
  · exact Nat.le_trans (Nat.le_add_right _ _) (h.count_le hb hr i)
  · exact Nat.le_trans (Nat.le_add_right _ _) (h.length_le hb hr)
  · have hlength := Nat.le_trans (Nat.le_add_right _ _) (h.length_le hb hr)
    have hrun := h.run_initial (bound b - order.length)
    rw [Nat.add_sub_cancel' hlength] at hrun
    refine Eq.trans ?_ hrun.symm
    cases bound b - order.length with
    | zero => rfl
    | succ fuel =>
      unfold ItemSets.run
      rw [hn]

end ItemSets

end Automaton

/-- Two contexts of one rule, whose ends compete.  The rule is expanded for the first context
before the second one comes up. -/
def Grammar.twoContexts : Grammar :=
  { name := "two_contexts", extras := some [] : Grammar }
    |>.addRule "s" (.choice [.seq [.string "a", .sym "_x", .string "d"],
        .seq [.string "b", .string "b", .sym "_x", .string "de"]])
    |>.addRule "_x" (.seq [.string "m", .string "n"])

namespace Automaton.ItemSets

theorem expansions_end_twoContexts : ∃ g order, FlatGrammar.ofGrammar .twoContexts = .ok g ∧
    Expansions (Basis.ofGrammar g) order (ofBasis (Basis.ofGrammar g)) ∧
    (ofBasis (Basis.ofGrammar g)).next? = none ∧
    (ofBasis (Basis.ofGrammar g)).kernels.size = 12 ∧
    (ofBasis (Basis.ofGrammar g)).splits = 1 ∧
    order.length ≤ 2 ^ (14 + 7) * (14 * 7 + 2) ∧ ∀ i, order.count i ≤ 14 * 7 + 1 := by
  have hchecks : (FlatGrammar.ofGrammar .twoContexts).toOption.any (fun g =>
      (Basis.ofGrammar g).itemCount == 14 && (Basis.ofGrammar g).terminalCount == 7 &&
        (ofBasis (Basis.ofGrammar g)).kernels.size == 12 &&
        (ofBasis (Basis.ofGrammar g)).splits == 1) = true := by
    decide +kernel
  obtain ⟨g, hg, hchecks⟩ := exists_ok hchecks
  simp only [Bool.and_eq_true, beq_iff_eq] at hchecks
  obtain ⟨⟨⟨hitems, htokens⟩, hsize⟩, hsplits⟩ := hchecks
  obtain ⟨hall, ⟨order, horder⟩, hend⟩ := expansions_end hg
  obtain ⟨-, hcount, hlength, -⟩ := hall order _ horder
  rw [hitems, htokens] at hcount hlength
  exact ⟨g, order, hg, horder, hend, hsize, hsplits, hlength, hcount⟩

end Automaton.ItemSets

end Glr
