import Glr.Proofs.Automaton.Kernel

/-!
# Glr.Proofs.Automaton.ItemSets

The states under construction.  `Inv` holds between any two steps: every state
has a sound kernel, every transition leads to the items that its symbol leads to,
and a state that does not wait has its transitions, to kernels that cover what
its own kernel asks for.

```
queued  ∨  ∀ x ∈ next symbols, ∃ t, (x, t) ∈ transitions ∧ t covers the successor over x
```

Growing a kernel breaks the second half, and queues the state.
-/

namespace Glr.Automaton

namespace ItemSets

variable {b : Basis} {s s' s'' : ItemSets} {i target : StateId} {k : Kernel} {x : Symbol}
  {valid : TokenSet}

/-! ## The invariant -/

/-- What a transition of a state over a symbol leads to. -/
def Leads (s : ItemSets) (i : StateId) (x : Symbol) (k : Kernel) : Prop :=
  ∃ ts t k', s.transitions[i]? = some ts ∧ (x, t) ∈ ts ∧ s.kernels[t]? = some k' ∧ k'.Covers k

/-- What holds of the states at any time. -/
structure Inv (b : Basis) (s : ItemSets) : Prop where
  valid_size : s.valid.size = s.kernels.size
  transitions_size : s.transitions.size = s.kernels.size
  queued_size : s.queued.size = s.kernels.size
  start : ∃ k, s.kernels[0]? = some k ∧ k.Covers startKernel
  kernels : ∀ (i : Nat) k, s.kernels[i]? = some k → k.Sound b
  byCore : ∀ c i, i ∈ (s.byCore.lookup c).getD [] ↔ ∃ k, s.kernels[i]? = some k ∧ core k = c
  waiting : ∀ i : Nat, s.queued[i]? = some true → i ∈ s.front ∨ i ∈ s.back
  transitions : ∀ (i : Nat) k ts x t, s.kernels[i]? = some k → s.transitions[i]? = some ts →
    (x, t) ∈ ts → x ∈ b.nextSymbols (b.closure k) ∧
      ∃ k', s.kernels[t]? = some k' ∧ core k' = core (b.advanceOver (b.closure k) x)
  /-- There is one transition for a symbol. -/
  single : ∀ (i : Nat) ts x t t', s.transitions[i]? = some ts → (x, t) ∈ ts → (x, t') ∈ ts → t = t'

/-- The state has a transition to everything that its kernel asks for. -/
def Settled (b : Basis) (s : ItemSets) (i : StateId) : Prop :=
  ∀ k, s.kernels[i]? = some k →
    ∀ x ∈ b.nextSymbols (b.closure k), s.Leads i x (b.advanceOver (b.closure k) x)

/-- Kernels only grow, and one that grows has its state wait. -/
structure Extends (s s' : ItemSets) : Prop where
  kernels : ∀ (i : Nat) k, s.kernels[i]? = some k → ∃ k', s'.kernels[i]? = some k' ∧ k'.Covers k
  queued : ∀ i : Nat, s'.queued[i]? = some false →
    s.queued[i]? = some false ∧ s'.kernels[i]? = s.kernels[i]?

theorem Extends.refl (s : ItemSets) : s.Extends s where
  kernels := fun _ k h => ⟨k, h, .refl k⟩
  queued := fun _ h => ⟨h, rfl⟩

theorem Extends.trans (h : s.Extends s') (h' : s'.Extends s'') : s.Extends s'' where
  kernels := by
    intro i k hk
    obtain ⟨k', hk', hc⟩ := h.kernels i k hk
    obtain ⟨k'', hk'', hc'⟩ := h'.kernels i k' hk'
    exact ⟨k'', hk'', hc'.trans hc⟩
  queued := by
    intro i hi
    obtain ⟨hi', he'⟩ := h'.queued i hi
    obtain ⟨hi'', he⟩ := h.queued i hi'
    exact ⟨hi'', he'.trans he⟩

/-! ## Waiting -/

section

variable (s i)

@[simp] theorem kernels_enqueue : (s.enqueue i).kernels = s.kernels := by
  unfold enqueue
  split <;> rfl

@[simp] theorem valid_enqueue : (s.enqueue i).valid = s.valid := by
  unfold enqueue
  split <;> rfl

@[simp] theorem transitions_enqueue : (s.enqueue i).transitions = s.transitions := by
  unfold enqueue
  split <;> rfl

@[simp] theorem byCore_enqueue : (s.enqueue i).byCore = s.byCore := by
  unfold enqueue
  split <;> rfl

@[simp] theorem size_queued_enqueue : (s.enqueue i).queued.size = s.queued.size := by
  unfold enqueue
  split
  · rfl
  · simp

end

theorem waiting_enqueue (h : ∀ j : Nat, s.queued[j]? = some true → j ∈ s.front ∨ j ∈ s.back)
    {j : Nat} (hj : (s.enqueue i).queued[j]? = some true) :
    j ∈ (s.enqueue i).front ∨ j ∈ (s.enqueue i).back := by
  unfold enqueue at hj ⊢
  split
  · rename_i hq
    rw [if_pos hq] at hj
    exact h j hj
  · rename_i hq
    rw [if_neg hq] at hj
    simp only [Array.getElem?_setIfInBounds] at hj
    split at hj
    · rename_i he
      exact .inr (by simp [he])
    · exact (h j hj).imp_right (List.mem_cons_of_mem i)

theorem queued_enqueue (hi : i < s.queued.size) {j : Nat}
    (hj : (s.enqueue i).queued[j]? = some false) : j ≠ i ∧ s.queued[j]? = some false := by
  unfold enqueue at hj
  split at hj
  · rename_i hq
    refine ⟨?_, hj⟩
    rintro rfl
    rw [hj] at hq
    contradiction
  · simp only [Array.getElem?_setIfInBounds] at hj
    split at hj
    · contradiction
    · rename_i he
      exact ⟨Ne.symm he, hj⟩

/-! ## Merging -/

/-- What a merge leaves as it is, and what it makes of the kernel. -/
structure Merged (b : Basis) (s : ItemSets) (target : StateId) (k : Kernel) (s' : ItemSets) :
    Prop where
  inv : Inv b s'
  extends' : s.Extends s'
  transitions : s'.transitions = s.transitions
  size : s'.kernels.size = s.kernels.size
  covers : ∃ k', s'.kernels[target]? = some k' ∧ k'.Covers k

theorem merge_spec (valid : TokenSet) (hb : b.Sound) (h : Inv b s) {old : Kernel}
    (ht : s.kernels[target]? = some old) (hc : core old = core k) (hk : k.Sound b) :
    Merged b s target k (s.merge target k valid) := by
  have hlt := (Array.getElem?_eq_some_iff.mp ht).1
  unfold merge
  simp only [ht]
  cases hcov : coversLookaheads old k with
  | true =>
    simp only [Bool.not_true, Bool.false_eq_true, if_false]
    refine ⟨⟨?_, h.transitions_size, h.queued_size, h.start, h.kernels, h.byCore, h.waiting,
      h.transitions, h.single⟩, ⟨fun _ k' hk' => ⟨k', hk', .refl k'⟩, fun _ hi => ⟨hi, rfl⟩⟩, rfl, rfl,
      ⟨old, ht, hc, hcov⟩⟩
    simpa using h.valid_size
  | false =>
    simp only [Bool.not_false, if_true]
    -- the kernel at `target` grows, the others stay
    have hget (j : Nat) : (s.kernels.setIfInBounds target (mergeLookaheads old k))[j]?
        = if target = j then some (mergeLookaheads old k) else s.kernels[j]? := by
      rw [Array.getElem?_setIfInBounds, if_pos hlt]
    have hcore := core_mergeLookaheads hc
    have hsound := (h.kernels target old ht).merge hk hc
    have hcovers := covers_mergeLookaheads hc
    have hold (j : Nat) (k' : Kernel) (hk' : s.kernels[j]? = some k') :
        ∃ k'', (s.kernels.setIfInBounds target (mergeLookaheads old k))[j]? = some k''
          ∧ k''.Covers k' := by
      rw [hget]
      split
      · rename_i he
        subst he
        rw [ht] at hk'
        obtain rfl := Option.some.inj hk'
        exact ⟨_, rfl, hcovers.1⟩
      · exact ⟨k', hk', .refl k'⟩
    have hnew (j : Nat) (k' : Kernel)
        (hk' : (s.kernels.setIfInBounds target (mergeLookaheads old k))[j]? = some k') :
        ∃ k'', s.kernels[j]? = some k'' ∧ core k'' = core k' := by
      rw [hget] at hk'
      split at hk'
      · rename_i he
        subst he
        obtain rfl := Option.some.inj hk'
        exact ⟨old, ht, hcore.symm⟩
      · exact ⟨k', hk', rfl⟩
    have hkernels (j : Nat) (k' : Kernel)
        (hk' : (s.kernels.setIfInBounds target (mergeLookaheads old k))[j]? = some k') :
        k'.Sound b := by
      rw [hget] at hk'
      split at hk'
      · obtain rfl := Option.some.inj hk'
        exact hsound
      · exact h.kernels j k' hk'
    refine ⟨⟨?_, ?_, ?_, ?_, ?_, ?_, fun j hj => waiting_enqueue (by exact h.waiting) hj, ?_, ?_⟩,
      ⟨?_, ?_⟩, ?_, ?_, ?_⟩
    · simpa using h.valid_size
    · simpa using h.transitions_size
    · simpa using h.queued_size
    · obtain ⟨k₀, hk₀, hc₀⟩ := h.start
      obtain ⟨k', hk', hc'⟩ := hold 0 k₀ hk₀
      rw [kernels_enqueue]
      exact ⟨k', hk', hc'.trans hc₀⟩
    · rw [kernels_enqueue]
      exact hkernels
    · intro c j
      rw [byCore_enqueue, kernels_enqueue]
      refine (h.byCore c j).trans ⟨?_, ?_⟩
      · rintro ⟨k', hk', rfl⟩
        obtain ⟨k'', hk'', hc''⟩ := hold j k' hk'
        exact ⟨k'', hk'', hc''.core⟩
      · rintro ⟨k', hk', rfl⟩
        exact hnew j k' hk'
    · intro j k' ts y t hk' hts hm
      rw [kernels_enqueue] at hk' ⊢
      rw [transitions_enqueue] at hts
      obtain ⟨k'', hk'', hce⟩ := hnew j k' hk'
      obtain ⟨hy, kt, hkt, hct⟩ := h.transitions j k'' ts y t hk'' hts hm
      have hs'' := h.kernels j k'' hk''
      have hs' := hkernels j k' hk'
      refine ⟨?_, ?_⟩
      · rw [Basis.mem_nextSymbols_closure hb hs', ← hce, ← Basis.mem_nextSymbols_closure hb hs'']
        exact hy
      · obtain ⟨kt', hkt', hct'⟩ := hold t kt hkt
        exact ⟨kt', hkt', hct'.core.trans
          (hct.trans (Basis.core_advanceOver_congr hb hs'' hs' hce y))⟩
    · rw [transitions_enqueue]
      exact h.single
    · rw [kernels_enqueue]
      exact hold
    · intro j hj
      obtain ⟨hne, hj⟩ := queued_enqueue (s := { s with
        kernels := s.kernels.setIfInBounds target (mergeLookaheads old k)
        valid := s.valid.modify target (TokenSet.union · valid) }) (by
          show target < s.queued.size
          rw [h.queued_size]
          exact hlt) hj
      refine ⟨hj, ?_⟩
      rw [kernels_enqueue, hget, if_neg (Ne.symm hne)]
    · rw [transitions_enqueue]
    · rw [kernels_enqueue]
      simp
    · rw [kernels_enqueue, hget, if_pos rfl]
      exact ⟨_, rfl, hcovers.2⟩

/-! ## Connecting -/

theorem mem_connected {ts : List (Symbol × StateId)} {y : Symbol} {t : StateId} :
    (y, t) ∈ ts.filter (fun e => e.1 < x) ++ (x, target) :: ts.filter (fun e => x < e.1) ↔
      y = x ∧ t = target ∨ y ≠ x ∧ (y, t) ∈ ts := by
  simp only [List.mem_append, List.mem_cons, List.mem_filter, decide_eq_true_eq, Prod.mk.injEq]
  constructor
  · rintro (⟨hm, hlt⟩ | h | ⟨hm, hlt⟩)
    · exact .inr ⟨Nat.ne_of_lt hlt, hm⟩
    · exact .inl h
    · exact .inr ⟨Nat.ne_of_gt hlt, hm⟩
  · rintro (h | ⟨hne, hm⟩)
    · exact .inr (.inl h)
    · rcases Nat.lt_or_gt_of_ne hne with hlt | hgt
      · exact .inl ⟨hm, hlt⟩
      · exact .inr (.inr ⟨hm, hgt⟩)

theorem getElem?_connect (j : StateId) :
    (s.connect i x target).transitions[j]? =
      if i = j then s.transitions[j]?.map fun ts =>
        ts.filter (fun e => e.1 < x) ++ (x, target) :: ts.filter (fun e => x < e.1)
      else s.transitions[j]? :=
  Array.getElem?_modify

/-- The state keeps its transitions over other symbols. -/
theorem exists_connect (x : Symbol) (target : StateId) {ts : List (Symbol × StateId)}
    (hts : s.transitions[i]? = some ts) :
    ∃ ts', (s.connect i x target).transitions[i]? = some ts' ∧
      ∀ y t, (y, t) ∈ ts' ↔ y = x ∧ t = target ∨ y ≠ x ∧ (y, t) ∈ ts := by
  refine ⟨ts.filter (fun e => e.1 < x) ++ (x, target) :: ts.filter (fun e => x < e.1), ?_,
    fun y t => mem_connected⟩
  rw [getElem?_connect, if_pos rfl, hts]
  rfl

/-- A transition to the right items keeps the invariant. -/
theorem connect_inv (h : Inv b s) (hk : s.kernels[i]? = some k)
    (hx : x ∈ b.nextSymbols (b.closure k))
    (ht : ∃ k', s.kernels[target]? = some k' ∧ core k' = core (b.advanceOver (b.closure k) x)) :
    Inv b (s.connect i x target) := by
  refine ⟨h.valid_size, ?_, h.queued_size, h.start, h.kernels, h.byCore, h.waiting, ?_, ?_⟩
  · exact (Array.size_modify ..).trans h.transitions_size
  · intro j k' ts y t hk' hts hm
    rw [getElem?_connect] at hts
    split at hts
    · rename_i he
      subst he
      obtain ⟨ts₀, hts₀, rfl⟩ := Option.map_eq_some_iff.mp hts
      rcases mem_connected.mp hm with ⟨rfl, rfl⟩ | ⟨hne, hm⟩
      · obtain rfl := Option.some.inj (hk.symm.trans hk')
        exact ⟨hx, ht⟩
      · exact h.transitions i k' ts₀ y t hk' hts₀ hm
    · exact h.transitions j k' ts y t hk' hts hm
  · intro j ts y t t' hts hm hm'
    rw [getElem?_connect] at hts
    split at hts
    · obtain ⟨ts₀, hts₀, rfl⟩ := Option.map_eq_some_iff.mp hts
      rcases mem_connected.mp hm with ⟨rfl, rfl⟩ | ⟨hne, hm⟩
      · rcases mem_connected.mp hm' with ⟨-, rfl⟩ | ⟨hne, -⟩
        · rfl
        · exact absurd rfl hne
      · rcases mem_connected.mp hm' with ⟨he, -⟩ | ⟨-, hm'⟩
        · exact absurd he hne
        · exact h.single j ts₀ y t t' hts₀ hm hm'
    · exact h.single j ts y t t' hts hm hm'

theorem connect_leads (h : Inv b s) (hi : i < s.kernels.size)
    (ht : ∃ k', s.kernels[target]? = some k' ∧ k'.Covers k) :
    (s.connect i x target).Leads i x k := by
  have hlt : i < s.transitions.size := by
    rw [h.transitions_size]
    exact hi
  obtain ⟨k', hk', hc⟩ := ht
  obtain ⟨ts, hts, hm⟩ := exists_connect x target (Array.getElem?_eq_getElem hlt)
  exact ⟨ts, target, k', hts, (hm x target).mpr (.inl ⟨rfl, rfl⟩), hk', hc⟩

theorem Leads.connect {j : StateId} {y : Symbol} (hl : s.Leads j y k) (hne : j ≠ i ∨ y ≠ x) :
    (s.connect i x target).Leads j y k := by
  obtain ⟨ts, t, k', hts, hm, hk', hc⟩ := hl
  by_cases he : i = j
  · subst he
    obtain ⟨ts', hts', hm'⟩ := exists_connect x target hts
    exact ⟨ts', t, k', hts', (hm' y t).mpr (.inr ⟨hne.resolve_left (fun h => h rfl), hm⟩),
      hk', hc⟩
  · refine ⟨ts, t, k', ?_, hm, hk', hc⟩
    rw [getElem?_connect, if_neg he]
    exact hts

theorem Leads.extends {j : StateId} {y : Symbol} (hl : s.Leads j y k) (h : s.Extends s')
    (ht : s'.transitions[j]? = s.transitions[j]?) : s'.Leads j y k := by
  obtain ⟨ts, t, k', hts, hm, hk', hc⟩ := hl
  obtain ⟨k'', hk'', hc'⟩ := h.kernels t k' hk'
  exact ⟨ts, t, k'', ht.trans hts, hm, hk'', hc'.trans hc⟩

/-! ## Creating -/

theorem getElem?_push_of_lt {α : Type} {xs : Array α} {y : α} {j : Nat} (h : j < xs.size) :
    (xs.push y)[j]? = xs[j]? := by
  rw [Array.getElem?_push, if_neg (by omega)]

/-- A new state waits and has no transitions yet. -/
theorem create_inv (h : Inv b s) (hk : k.Sound b) : Inv b (s.create k valid) := by
  refine ⟨?_, ?_, ?_, ?_, ?_, ?_, ?_, ?_, ?_⟩
  · simpa [create] using h.valid_size
  · simpa [create] using h.transitions_size
  · simpa [create] using h.queued_size
  · obtain ⟨k₀, hk₀, hc₀⟩ := h.start
    refine ⟨k₀, ?_, hc₀⟩
    exact (getElem?_push_of_lt (Array.getElem?_eq_some_iff.mp hk₀).1).trans hk₀
  · intro j k' hk'
    rw [create, Array.getElem?_push] at hk'
    split at hk'
    · obtain rfl := Option.some.inj hk'
      exact hk
    · exact h.kernels j k' hk'
  · intro c j
    have hcores (j : StateId) : (∃ k', (s.kernels.push k)[j]? = some k' ∧ core k' = c)
        ↔ (j = s.kernels.size ∧ core k = c) ∨ j ∈ (s.byCore.lookup c).getD [] := by
      rw [h.byCore, Array.getElem?_push]
      constructor
      · rintro ⟨k', hk', hc⟩
        split at hk'
        · rename_i he
          obtain rfl := Option.some.inj hk'
          exact .inl ⟨he, hc⟩
        · exact .inr ⟨k', hk', hc⟩
      · rintro (⟨rfl, hc⟩ | ⟨k', hk', hc⟩)
        · exact ⟨k, by rw [if_pos rfl], hc⟩
        · have := (Array.getElem?_eq_some_iff.mp hk').1
          exact ⟨k', by rw [if_neg (by omega)]; exact hk', hc⟩
    show j ∈ (((core k, s.withCore k ++ [s.kernels.size]) :: s.byCore).lookup c).getD [] ↔ _
    refine Iff.trans ?_ (hcores j).symm
    rw [List.lookup_cons]
    split
    · rename_i he
      obtain rfl : c = core k := by simpa using he
      simp [withCore, or_comm]
    · rename_i he
      have he : core k ≠ c := Ne.symm (by simpa using he)
      simp [he]
  · intro j hj
    rw [create, Array.getElem?_push] at hj
    split at hj
    · rename_i he
      rw [h.queued_size] at he
      exact .inr (by simp [create, he])
    · exact (h.waiting j hj).imp_right (List.mem_cons_of_mem _)
  · intro j k' ts y t hk' hts hm
    rw [create, Array.getElem?_push] at hk' hts
    split at hts
    · obtain rfl := Option.some.inj hts
      exact absurd hm (by simp)
    · rename_i hne
      rw [if_neg (by rw [← h.transitions_size]; exact hne)] at hk'
      obtain ⟨hy, kt, hkt, hct⟩ := h.transitions j k' ts y t hk' hts hm
      exact ⟨hy, kt, (getElem?_push_of_lt (Array.getElem?_eq_some_iff.mp hkt).1).trans hkt, hct⟩
  · intro j ts y t t' hts hm hm'
    rw [create, Array.getElem?_push] at hts
    split at hts
    · obtain rfl := Option.some.inj hts
      exact absurd hm (by simp)
    · exact h.single j ts y t t' hts hm hm'

theorem create_extends (h : Inv b s) : s.Extends (s.create k valid) where
  kernels := by
    intro j k' hk'
    exact ⟨k', (getElem?_push_of_lt (Array.getElem?_eq_some_iff.mp hk').1).trans hk', .refl k'⟩
  queued := by
    intro j hj
    rw [create, Array.getElem?_push] at hj
    split at hj
    · contradiction
    · have hlt := (Array.getElem?_eq_some_iff.mp hj).1
      rw [h.queued_size] at hlt
      exact ⟨hj, getElem?_push_of_lt hlt⟩

/-! ## Arriving -/

/-- What the arrival of a successor does. -/
structure Arrived (b : Basis) (s : ItemSets) (i : StateId) (x : Symbol) (k : Kernel)
    (s' : ItemSets) : Prop where
  inv : Inv b s'
  extends' : s.Extends s'
  leads : s'.Leads i x k
  keeps : ∀ j y k', j ≠ i ∨ y ≠ x → s.Leads j y k' → s'.Leads j y k'

theorem arrive_spec (hb : b.Sound) (h : Inv b s) {k₀ ki : Kernel} (hi : s.kernels[i]? = some ki)
    (hk₀ : k₀.Sound b) (hc : core ki = core k₀) (hx : x ∈ b.nextSymbols (b.closure k₀)) :
    Arrived b s i x (b.advanceOver (b.closure k₀) x)
      (arrive b i s (x, b.advanceOver (b.closure k₀) x)) := by
  have hk := Basis.sound_advanceOver hb hk₀ x
  have hki := h.kernels i ki hi
  have hilt := (Array.getElem?_eq_some_iff.mp hi).1
  have hx' : ∀ kj : Kernel, kj.Sound b → core kj = core ki →
      x ∈ b.nextSymbols (b.closure kj) := by
    intro kj hkj hcj
    rw [Basis.mem_nextSymbols_closure hb hkj, hcj, hc, ← Basis.mem_nextSymbols_closure hb hk₀]
    exact hx
  -- whichever state is found or made, it covers the successor
  have connects {s₁ : ItemSets} {t : StateId} (h₁ : Inv b s₁) (he : s.Extends s₁)
      (ht : ∃ k', s₁.kernels[t]? = some k' ∧ k'.Covers (b.advanceOver (b.closure k₀) x))
      (hts : ∀ j, j < s.transitions.size → s₁.transitions[j]? = s.transitions[j]?) :
      Arrived b s i x (b.advanceOver (b.closure k₀) x) (s₁.connect i x t) := by
    obtain ⟨ki', hki', hci⟩ := he.kernels i ki hi
    obtain ⟨kt, hkt, hct⟩ := ht
    have hs' := h₁.kernels i ki' hki'
    refine ⟨connect_inv h₁ hki' (hx' ki' hs' hci.core) ⟨kt, hkt, hct.core.trans ?_⟩, ⟨?_, ?_⟩,
      connect_leads h₁ (Array.getElem?_eq_some_iff.mp hki').1 ⟨kt, hkt, hct⟩, ?_⟩
    · exact Basis.core_advanceOver_congr hb hk₀ hs' (hc.symm.trans hci.core.symm) x
    · exact he.kernels
    · exact he.queued
    · intro j y k' hne hl
      refine (hl.extends he (hts j ?_)).connect hne
      obtain ⟨ts, _, _, hts, _⟩ := hl
      exact (Array.getElem?_eq_some_iff.mp hts).1
  unfold arrive
  simp only
  split
  · rename_i t hfind
    have hmem := List.mem_of_find?_eq_some hfind
    obtain ⟨old, hold, hcore⟩ := (h.byCore _ _).mp hmem
    have hm := merge_spec (b.validTerminals (b.advanceOver (b.closure k₀) x)) hb h hold hcore hk
    exact connects hm.inv hm.extends' hm.covers fun j _ => by rw [hm.transitions]
  · have hcreate {s₁ : ItemSets} (h₁ : Inv b s₁) (he : s.Extends s₁)
        (hts : s₁.transitions = s.transitions) (hsize : s₁.kernels.size = s.kernels.size) :
        Arrived b s i x (b.advanceOver (b.closure k₀) x)
          ((s₁.create (b.advanceOver (b.closure k₀) x)
            (b.validTerminals (b.advanceOver (b.closure k₀) x))).connect i x s.kernels.size) := by
      refine connects (create_inv h₁ hk) (he.trans (create_extends h₁)) ⟨_, ?_, .refl _⟩ ?_
      · rw [create, ← hsize]
        exact Array.getElem?_push_size
      · intro j hj
        rw [create, ← hts]
        exact getElem?_push_of_lt (by rw [hts]; exact hj)
    split
    · exact hcreate h (.refl s) rfl rfl
    · exact hcreate ⟨h.valid_size, h.transitions_size, h.queued_size, h.start, h.kernels, h.byCore,
        h.waiting, h.transitions, h.single⟩ ⟨fun _ k' hk' => ⟨k', hk', .refl k'⟩, fun _ hj => ⟨hj, rfl⟩⟩
        rfl rfl

/-! ## Expanding -/

/-- What holds between two expansions: a state that does not wait is settled. -/
structure Stable (b : Basis) (s : ItemSets) : Prop extends Inv b s where
  settled : ∀ i : Nat, s.queued[i]? = some false → Settled b s i

/-- What some arrivals at a state do. -/
structure Arrivals (b : Basis) (s : ItemSets) (i : StateId) (k : Kernel) (xs : List Symbol)
    (s' : ItemSets) : Prop where
  inv : Inv b s'
  extends' : s.Extends s'
  leads : ∀ x, x ∈ xs ∨ s.Leads i x (b.advanceOver (b.closure k) x) →
    s'.Leads i x (b.advanceOver (b.closure k) x)
  keeps : ∀ j y k', j ≠ i → s.Leads j y k' → s'.Leads j y k'

theorem foldl_arrive (hb : b.Sound) (hk : k.Sound b) {ki : Kernel} (xs : List Symbol)
    (hxs : ∀ x ∈ xs, x ∈ b.nextSymbols (b.closure k)) (h : Inv b s)
    (hi : s.kernels[i]? = some ki) (hc : core ki = core k) :
    Arrivals b s i k xs
      ((xs.map fun x => (x, b.advanceOver (b.closure k) x)).foldl (arrive b i) s) := by
  induction xs generalizing s ki with
  | nil => exact ⟨h, .refl s, fun _ hl => hl.resolve_left (by simp), fun _ _ _ _ hl => hl⟩
  | cons x xs ih =>
    have ha := arrive_spec hb h hi hk hc (hxs x (by simp))
    obtain ⟨ki', hki', hci⟩ := ha.extends'.kernels i ki hi
    have ih := ih (fun y hy => hxs y (by simp [hy])) ha.inv hki' (hci.core.trans hc)
    refine ⟨ih.inv, ha.extends'.trans ih.extends', ?_, ?_⟩
    · intro y hy
      refine ih.leads y ?_
      by_cases he : y = x
      · subst he
        exact .inr ha.leads
      · rcases hy with hy | hy
        · exact .inl ((List.mem_cons.mp hy).resolve_left he)
        · exact .inr (ha.keeps i y _ (.inr he) hy)
    · intro j y k' hne hl
      exact ih.keeps j y k' hne (ha.keeps j y k' (.inl hne) hl)

theorem next?_spec (h : s.next? = some (i, s')) :
    s'.kernels = s.kernels ∧ s'.valid = s.valid ∧ s'.transitions = s.transitions ∧
      s'.queued = s.queued ∧ s'.byCore = s.byCore ∧
      (∀ j, j ∈ s.front ∨ j ∈ s.back → j = i ∨ j ∈ s'.front ∨ j ∈ s'.back) ∧
      s'.front.length + s'.back.length + 1 = s.front.length + s.back.length := by
  unfold next? at h
  split at h
  · rename_i j front hf
    obtain ⟨rfl, rfl⟩ := Prod.mk.inj (Option.some.inj h)
    refine ⟨rfl, rfl, rfl, rfl, rfl, ?_, ?_⟩
    · intro j' hj
      rw [hf, List.mem_cons, or_assoc] at hj
      exact hj
    · simp only [hf, List.length_cons]
      omega
  · rename_i hf
    split at h
    · rename_i j front hb
      obtain ⟨rfl, rfl⟩ := Prod.mk.inj (Option.some.inj h)
      refine ⟨rfl, rfl, rfl, rfl, rfl, ?_, ?_⟩
      · intro j' hj
        rcases hj with hj | hj
        · simp [hf] at hj
        rw [← List.mem_reverse, hb] at hj
        exact (List.mem_cons.mp hj).imp_right .inl
      · have := congrArg List.length hb
        simp only [List.length_reverse, List.length_cons] at this
        simp [hf, this]
    · contradiction

theorem next?_eq_none (h : s.next? = none) : s.front = [] ∧ s.back = [] := by
  unfold next? at h
  split at h
  · contradiction
  · rename_i hf
    split at h
    · contradiction
    · rename_i hb
      exact ⟨hf, List.reverse_eq_nil_iff.mp hb⟩

/-- The state that is taken from the queue does not wait any more. -/
theorem taken_inv (h : Stable b s) (hn : s.next? = some (i, s')) :
    Inv b { s' with queued := s'.queued.setIfInBounds i false } := by
  obtain ⟨hk, hv, ht, hq, hc, hw, -⟩ := next?_spec hn
  refine ⟨?_, ?_, ?_, ?_, ?_, ?_, ?_, ?_, ?_⟩
  · rw [hk, hv]
    exact h.valid_size
  · rw [hk, ht]
    exact h.transitions_size
  · rw [Array.size_setIfInBounds, hk, hq]
    exact h.queued_size
  · rw [hk]
    exact h.start
  · rw [hk]
    exact h.kernels
  · rw [hk, hc]
    exact h.byCore
  · intro j hj
    rw [Array.getElem?_setIfInBounds] at hj
    split at hj
    · split at hj <;> contradiction
    · rename_i hne
      rw [hq] at hj
      exact (hw j (h.waiting j hj)).resolve_left (Ne.symm hne)
  · rw [hk, ht]
    exact h.transitions
  · rw [ht]
    exact h.single

theorem expand_stable (hb : b.Sound) (h : Stable b s) (hn : s.next? = some (i, s')) :
    Stable b (s'.expand b i) := by
  have h₁ := taken_inv h hn
  obtain ⟨hkernels, hv, ht, hq, hc, hw, -⟩ := next?_spec hn
  have hsettled : ∀ j : Nat, j ≠ i → (s'.queued.setIfInBounds i false)[j]? = some false →
      Settled b { s' with queued := s'.queued.setIfInBounds i false } j := by
    intro j hne hj k hk x hx
    rw [Array.getElem?_setIfInBounds, if_neg (Ne.symm hne), hq] at hj
    rw [hkernels] at hk
    obtain ⟨ts, t, k', hts, hm, hk', hcov⟩ := h.settled j hj k hk x hx
    exact ⟨ts, t, k', by rw [← hts]; exact congrArg (·[j]?) ht, hm,
      by rw [← hk']; exact congrArg (·[t]?) hkernels, hcov⟩
  unfold expand
  simp only
  cases hk : s'.kernels[i]? with
  | none =>
    refine ⟨h₁, fun j hj => ?_⟩
    by_cases he : j = i
    · subst he
      intro k hk'
      rw [hk] at hk'
      contradiction
    · exact hsettled j he hj
  | some k =>
    have hks := h₁.kernels i k hk
    have ha := foldl_arrive hb hks (b.nextSymbols (b.closure k)) (fun _ hx => hx) h₁ hk rfl
    refine ⟨ha.inv, fun j hj => ?_⟩
    obtain ⟨hj', hkj⟩ := ha.extends'.queued j hj
    intro k' hk' x hx
    replace hk' := hkj.symm.trans hk'
    by_cases he : j = i
    · subst he
      obtain rfl := Option.some.inj (hk.symm.trans hk')
      exact ha.leads x (.inl hx)
    · exact ha.keeps j x _ he (hsettled j he hj' k' hk' x hx)

end ItemSets

end Glr.Automaton
