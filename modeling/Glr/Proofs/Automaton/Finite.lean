import Glr.Proofs.Automaton.ItemSets

/-!
# Glr.Proofs.Automaton.Finite

The construction of the states comes to its end.  States with the same items are
made for different sets of valid tokens: a state stays compatible with the set it
was made for, so a kernel with that set is merged into it.  So there are at most
as many states as pairs of a set of items and a set of tokens, and

```
potential = (states to come) · (items · tokens + 1) + room in the kernels + waiting states
```

goes down with every expansion.
-/

namespace Glr.Automaton

namespace Basis

variable {b : Basis} {x y : Item}

/-! ## Numbering items -/

/-- How many items the productions before some production have. -/
def offset (b : Basis) (p : Nat) : Nat := ((b.rhs.toList.take p).map fun r => r.length + 1).sum

/-- The number of an item. -/
def position (b : Basis) (x : Item) : Nat := b.offset x.production + x.dot

theorem itemCount_eq (b : Basis) : b.itemCount = (b.rhs.toList.map fun r => r.length + 1).sum := by
  have key (l : List (List Symbol)) (n : Nat) :
      l.foldl (fun n r => n + (r.length + 1)) n = n + (l.map fun r => r.length + 1).sum := by
    induction l generalizing n with
    | nil => rfl
    | cons r rest ih =>
      rw [List.foldl_cons, ih, List.map_cons, List.sum_cons]
      omega
  exact (key _ 0).trans (Nat.zero_add _)

theorem offset_mono {p q : Nat} (h : p ≤ q) : b.offset p ≤ b.offset q := by
  unfold offset
  have : b.rhs.toList.take p = (b.rhs.toList.take q).take p := by
    rw [List.take_take, Nat.min_eq_left h]
  rw [this]
  conv => rhs; rw [← List.take_append_drop p (b.rhs.toList.take q)]
  rw [List.map_append, List.sum_append]
  omega

theorem offset_succ {p : Nat} {r : List Symbol} (h : b.rhs[p]? = some r) :
    b.offset (p + 1) = b.offset p + (r.length + 1) := by
  unfold offset
  rw [List.take_add_one, Array.getElem?_toList, h]
  simp

theorem position_lt (h : b.HasItem x) : b.position x < b.itemCount := by
  obtain ⟨r, hr, hd⟩ := h
  have hle : b.offset (x.production + 1) ≤ b.itemCount := by
    have hsize : b.itemCount = b.offset b.rhs.size := by
      rw [itemCount_eq, offset, ← Array.length_toList, List.take_length]
    rw [hsize]
    exact offset_mono (Array.getElem?_eq_some_iff.mp hr).1
  rw [offset_succ hr] at hle
  unfold position
  omega

theorem position_inj (hx : b.HasItem x) (hy : b.HasItem y) (h : b.position x = b.position y) :
    x = y := by
  obtain ⟨p, d⟩ := x
  obtain ⟨q, e⟩ := y
  obtain ⟨r, hr, hd⟩ := hx
  obtain ⟨r', hr', he⟩ := hy
  simp only [position] at hr hd hr' he h ⊢
  have hp := offset_succ hr
  have hq := offset_succ hr'
  rcases Nat.lt_trichotomy p q with hlt | rfl | hgt
  · have := offset_mono (b := b) (Nat.succ_le_of_lt hlt)
    rw [Nat.succ_eq_add_one, hp] at this
    omega
  · obtain rfl : d = e := by omega
    rfl
  · have := offset_mono (b := b) (Nat.succ_le_of_lt hgt)
    rw [Nat.succ_eq_add_one, hq] at this
    omega

/-- The number of a set of items. -/
def code (b : Basis) (items : List Item) : TokenSet :=
  items.foldr (fun x a => a.insert (b.position x)) TokenSet.empty

theorem contains_code {items : List Item} {t : Nat} :
    (b.code items).contains t = true ↔ ∃ x ∈ items, b.position x = t := by
  unfold code
  induction items with
  | nil => simp [TokenSet.contains_empty]
  | cons x rest ih =>
    rw [List.foldr_cons, TokenSet.contains_insert, Bool.or_eq_true, ih, decide_eq_true_eq]
    simp [or_comm]

end Basis

namespace Kernel

variable {b : Basis} {k k' : Kernel}

theorem Sound.code_lt (hk : k.Sound b) : b.code (core k) < 2 ^ b.itemCount :=
  TokenSet.Below.lt_two_pow fun t ht => by
    obtain ⟨x, hx, rfl⟩ := Basis.contains_code.mp ht
    exact Basis.position_lt (hk.items x hx)

theorem Sound.code_inj (hk : k.Sound b) (hk' : k'.Sound b)
    (h : b.code (core k) = b.code (core k')) : core k = core k' := by
  have key {k k' : Kernel} (hk : k.Sound b) (hk' : k'.Sound b)
      (h : b.code (core k) = b.code (core k')) (x : Item) (hx : x ∈ core k) : x ∈ core k' := by
    have hc : (b.code (core k')).contains (b.position x) = true :=
      h ▸ Basis.contains_code.mpr ⟨x, hx, rfl⟩
    obtain ⟨y, hy, he⟩ := Basis.contains_code.mp hc
    obtain rfl := Basis.position_inj (hk'.items y hy) (hk.items x hx) he
    exact hy
  exact core_ext hk.sorted hk'.sorted hk.nodup hk'.nodup fun x =>
    ⟨key hk hk' h x, key hk' hk h.symm x⟩

theorem Sound.length_le (hk : k.Sound b) : k.length ≤ b.itemCount := by
  have hn : ((core k).map b.position).Nodup := by
    rw [List.Nodup, List.pairwise_map]
    refine List.Pairwise.imp_of_mem (fun {x y} hx hy hne he => ?_) hk.nodup
    exact hne (Basis.position_inj (hk.items x hx) (hk.items y hy) he)
  have := hn.length_le_of_subset fun t ht => show t ∈ List.range b.itemCount by
    obtain ⟨x, hx, rfl⟩ := List.mem_map.mp ht
    exact List.mem_range.mpr (Basis.position_lt (hk.items x hx))
  simpa [core] using this

theorem Sound.room_le (hk : k.Sound b) : k.room b ≤ b.itemCount * b.terminalCount :=
  Nat.le_trans Kernel.room_le (Nat.mul_le_mul_right _ hk.length_le)

end Kernel

namespace ItemSets

variable {b : Basis} {s s' : ItemSets} {i target : StateId} {k : Kernel} {x : Symbol}
  {valid : TokenSet}

/-! ## States are kept apart -/

/-- Tokens that do not compete with any of some others. -/
def Harmless (b : Basis) (a v : TokenSet) : Prop :=
  ∀ t, a.contains t = true → v.contains t = false →
    TokenSet.disjoint (b.overlaps[t]?.getD TokenSet.empty) v = true

theorem harmless_iff {a v : TokenSet} (ha : b.Tokens a) :
    b.clashes a v = false ↔ Harmless b a v := by
  unfold Basis.clashes
  rw [List.any_eq_false]
  constructor
  · intro h t ht hv
    have := h t (TokenSet.mem_toList.mpr ⟨ha.below t ht, ht⟩)
    simpa [hv] using this
  · intro h t ht
    have ht := (TokenSet.mem_toList.mp ht).2
    cases hv : TokenSet.contains v t with
    | true => simp
    | false => simp [h t ht hv]

theorem disjoint_mono {a v w : TokenSet} (h : v.subset w = true) (hd : a.disjoint w = true) :
    a.disjoint v = true := by
  rw [TokenSet.disjoint_iff] at hd ⊢
  exact fun t ⟨ha, hv⟩ => hd t ⟨ha, TokenSet.subset_iff.mp h t hv⟩

/-- A state that was made for a set of valid tokens is compatible with it. -/
theorem compatible_made {v w : TokenSet} (hw : b.Tokens w)
    (hv : b.Tokens v) (hs : v.subset w = true) (hh : Harmless b w v) :
    b.compatible w v = true := by
  have h₁ := (harmless_iff hw).mpr hh
  have h₂ : b.clashes v w = false := (harmless_iff hv).mpr fun t ht hn => by
    rw [TokenSet.subset_iff.mp hs t ht] at hn
    contradiction
  simp [Basis.compatible, h₁, h₂]

/-- What is compatible with all tokens of a state adds nothing that competes with some of them. -/
theorem Harmless.union {u v w : TokenSet} (h : Harmless b w v) (hs : v.subset w = true)
    (hu : b.Tokens u) (hc : b.compatible w u = true) : Harmless b (w.union u) v := by
  intro a ha hv
  cases hw : w.contains a with
  | true => exact h a hw hv
  | false =>
    rw [TokenSet.contains_union, hw, Bool.false_or] at ha
    rw [Basis.compatible, Bool.and_eq_true, Bool.not_eq_true', Bool.not_eq_true'] at hc
    exact disjoint_mono hs ((harmless_iff hu).mp hc.2 a ha hw)

/-- The set of valid tokens that each state was made for, and what became of it. -/
structure Made (b : Basis) (s : ItemSets) (made : Array TokenSet) : Prop where
  size : made.size = s.kernels.size
  tokens : ∀ (i : Nat) w, s.valid[i]? = some w → b.Tokens w
  subset : ∀ (i : Nat) v w, made[i]? = some v → s.valid[i]? = some w → v.subset w = true
  harmless : ∀ (i : Nat) v w, made[i]? = some v → s.valid[i]? = some w → Harmless b w v
  apart : ∀ (i j : Nat) k k' v, s.kernels[i]? = some k → s.kernels[j]? = some k' →
    core k = core k' → made[i]? = some v → made[j]? = some v → i = j

/-- States with the same items were made for different sets of valid tokens. -/
def Apart (b : Basis) (s : ItemSets) : Prop := ∃ made, Made b s made

theorem Made.made_tokens {made : Array TokenSet} (hm : Made b s made) (h : Inv b s) {v : TokenSet}
    (hv : made[i]? = some v) : b.Tokens v := by
  have hlt := (Array.getElem?_eq_some_iff.mp hv).1
  rw [hm.size, ← h.valid_size] at hlt
  have hw := Array.getElem?_eq_getElem hlt
  intro t ht
  exact hm.tokens i _ hw t (TokenSet.subset_iff.mp (hm.subset i v _ hv hw) t ht)

/-- There are no more states than sets of items and sets of tokens. -/
theorem Apart.size_le (ha : Apart b s) (h : Inv b s) :
    s.kernels.size ≤ 2 ^ (b.itemCount + b.terminalCount) := by
  obtain ⟨made, hm⟩ := ha
  let number (i : Nat) : Nat :=
    b.code (core (s.kernels[i]?.getD [])) * 2 ^ b.terminalCount + made[i]?.getD 0
  have hget (i : Nat) (hi : i ∈ List.range s.kernels.size) :
      ∃ k v, s.kernels[i]? = some k ∧ made[i]? = some v ∧ k.Sound b ∧ v < 2 ^ b.terminalCount ∧
        number i = b.code (core k) * 2 ^ b.terminalCount + v := by
    have hi := List.mem_range.mp hi
    have hk := Array.getElem?_eq_getElem hi
    have hv := Array.getElem?_eq_getElem (show i < made.size by rw [hm.size]; exact hi)
    refine ⟨_, _, hk, hv, h.kernels i _ hk, (hm.made_tokens h hv).below.lt_two_pow, ?_⟩
    simp only [number, hk, hv, Option.getD_some]
  have hn : ((List.range s.kernels.size).map number).Nodup := by
    rw [List.Nodup, List.pairwise_map]
    refine List.Pairwise.imp_of_mem (fun {i j} hi hj hne he => ?_) List.nodup_range
    obtain ⟨k, v, hk, hv, hks, hvlt, hi⟩ := hget i hi
    obtain ⟨k', v', hk', hv', hks', hvlt', hj⟩ := hget j hj
    rw [hi, hj] at he
    have hpos : 0 < 2 ^ b.terminalCount := Nat.two_pow_pos _
    have hmod := congrArg (· % 2 ^ b.terminalCount) he
    have hdiv := congrArg (· / 2 ^ b.terminalCount) he
    simp only [Nat.mul_add_mod_self_right, Nat.mod_eq_of_lt hvlt, Nat.mod_eq_of_lt hvlt'] at hmod
    simp only [Nat.mul_comm _ (2 ^ b.terminalCount), Nat.mul_add_div hpos,
      Nat.div_eq_of_lt hvlt, Nat.div_eq_of_lt hvlt', Nat.add_zero] at hdiv
    subst hmod
    exact hne (hm.apart i j k k' v hk hk' (hks.code_inj hks' hdiv) hv hv')
  have := hn.length_le_of_subset fun t ht =>
    show t ∈ List.range (2 ^ (b.itemCount + b.terminalCount)) by
      obtain ⟨i, hi, rfl⟩ := List.mem_map.mp ht
      obtain ⟨k, v, _, _, hks, hvlt, hi⟩ := hget i hi
      have hmul := Nat.mul_le_mul_right (2 ^ b.terminalCount) hks.code_lt
      rw [Nat.succ_mul] at hmul
      rw [List.mem_range, hi, Nat.pow_add]
      exact Nat.lt_of_lt_of_le (Nat.add_lt_add_left hvlt _) hmul
  simpa using this

theorem merge_valid {old : Kernel} (ht : s.kernels[target]? = some old) :
    (s.merge target k valid).valid = s.valid.modify target (TokenSet.union · valid) := by
  unfold merge
  simp only [ht]
  split
  · rw [valid_enqueue]
  · rfl

/-- Whether states are kept apart does not depend on their lookaheads. -/
theorem Made.merge {made : Array TokenSet} (hm : Made b s made)
    (hmerged : Merged b s target k s')
    (hv : s'.valid = s.valid.modify target (TokenSet.union · valid))
    (htokens : b.Tokens valid)
    (hcompat : b.compatible (s.valid[target]?.getD TokenSet.empty) valid = true) :
    Made b s' made := by
  have hget (i : Nat) (w : TokenSet) (hw : s'.valid[i]? = some w) :
      s.valid[i]? = some w ∨ i = target ∧ ∃ w₀, s.valid[i]? = some w₀ ∧ w = w₀.union valid := by
    rw [hv, Array.getElem?_modify] at hw
    split at hw
    · rename_i he
      obtain ⟨w₀, hw₀, rfl⟩ := Option.map_eq_some_iff.mp hw
      exact .inr ⟨he.symm, w₀, hw₀, rfl⟩
    · exact .inl hw
  have hkernels (i : Nat) (k' : Kernel) (hk' : s'.kernels[i]? = some k') :
      ∃ k₀, s.kernels[i]? = some k₀ ∧ core k' = core k₀ := by
    have hlt := (Array.getElem?_eq_some_iff.mp hk').1
    rw [hmerged.size] at hlt
    have hk₀ := Array.getElem?_eq_getElem hlt
    obtain ⟨k'', hk'', hc⟩ := hmerged.extends'.kernels i _ hk₀
    rw [hk'] at hk''
    obtain rfl := Option.some.inj hk''
    exact ⟨_, hk₀, hc.core⟩
  refine ⟨hm.size.trans hmerged.size.symm, ?_, ?_, ?_, ?_⟩
  · intro i w hw
    rcases hget i w hw with hw | ⟨-, w₀, hw₀, rfl⟩
    · exact hm.tokens i w hw
    · exact (hm.tokens i w₀ hw₀).union htokens
  · intro i v w hmade hw
    rcases hget i w hw with hw | ⟨-, w₀, hw₀, rfl⟩
    · exact hm.subset i v w hmade hw
    · exact Closure.subset_trans (hm.subset i v w₀ hmade hw₀) (Closure.subset_union_left _ _)
  · intro i v w hmade hw
    rcases hget i w hw with hw | ⟨rfl, w₀, hw₀, rfl⟩
    · exact hm.harmless i v w hmade hw
    · rw [hw₀, Option.getD_some] at hcompat
      exact (hm.harmless i v w₀ hmade hw₀).union (hm.subset i v w₀ hmade hw₀) htokens hcompat
  · intro i j ki kj v hki hkj hc hi hj
    obtain ⟨ki₀, hki₀, hci⟩ := hkernels i ki hki
    obtain ⟨kj₀, hkj₀, hcj⟩ := hkernels j kj hkj
    exact hm.apart i j ki₀ kj₀ v hki₀ hkj₀ (hci.symm.trans (hc.trans hcj)) hi hj

/-- A new state is made only where no state was made for the same set. -/
theorem Made.create {made : Array TokenSet} (hm : Made b s made) (h : Inv b s)
    (htokens : b.Tokens valid)
    (hnone : ∀ i ∈ s.withCore k,
      b.compatible (s.valid[i]?.getD TokenSet.empty) valid = false) :
    Made b (s.create k valid) (made.push valid) := by
  have hvalid : s.valid.size = made.size := h.valid_size.trans hm.size.symm
  -- an earlier state with these items was not made for this set
  have hfresh (j : Nat) (k' : Kernel) (hk' : s.kernels[j]? = some k') (hc : core k' = core k)
      (hv : made[j]? = some valid) : False := by
    have hlt := (Array.getElem?_eq_some_iff.mp hk').1
    rw [← h.valid_size] at hlt
    have hw := Array.getElem?_eq_getElem hlt
    have hno := hnone j ((h.byCore _ _).mpr ⟨k', hk', hc⟩)
    rw [hw, Option.getD_some] at hno
    rw [compatible_made (hm.tokens j _ hw) htokens (hm.subset j _ _ hv hw)
      (hm.harmless j _ _ hv hw)] at hno
    contradiction
  refine ⟨?_, ?_, ?_, ?_, ?_⟩
  · simp [ItemSets.create, hm.size]
  · intro i w hw
    rw [ItemSets.create, Array.getElem?_push] at hw
    split at hw
    · obtain rfl := Option.some.inj hw
      exact htokens
    · exact hm.tokens i w hw
  · intro i v w hv hw
    rw [ItemSets.create, Array.getElem?_push] at hw
    rw [Array.getElem?_push] at hv
    split at hw
    · rename_i he
      rw [if_pos (he.trans hvalid)] at hv
      obtain rfl := Option.some.inj hv
      obtain rfl := Option.some.inj hw
      exact Closure.subset_refl _
    · rename_i he
      rw [if_neg (by rw [← hvalid]; exact he)] at hv
      exact hm.subset i v w hv hw
  · intro i v w hv hw
    rw [ItemSets.create, Array.getElem?_push] at hw
    rw [Array.getElem?_push] at hv
    split at hw
    · rename_i he
      rw [if_pos (he.trans hvalid)] at hv
      obtain rfl := Option.some.inj hv
      obtain rfl := Option.some.inj hw
      intro t ht hn
      rw [ht] at hn
      contradiction
    · rename_i he
      rw [if_neg (by rw [← hvalid]; exact he)] at hv
      exact hm.harmless i v w hv hw
  · intro i j ki kj v hki hkj hc hi hj
    rw [ItemSets.create, Array.getElem?_push, ← hm.size] at hki hkj
    rw [Array.getElem?_push] at hi hj
    split at hi
    · rename_i hie
      split at hj
      · rename_i hje
        exact hie.trans hje.symm
      · rename_i hje
        rw [if_pos hie] at hki
        rw [if_neg hje] at hkj
        obtain rfl := Option.some.inj hki
        obtain rfl := Option.some.inj hi
        exact (hfresh j kj hkj hc.symm hj).elim
    · rename_i hie
      rw [if_neg hie] at hki
      split at hj
      · rename_i hje
        rw [if_pos hje] at hkj
        obtain rfl := Option.some.inj hkj
        obtain rfl := Option.some.inj hj
        exact (hfresh i ki hki hc hi).elim
      · rename_i hje
        rw [if_neg hje] at hkj
        exact hm.apart i j ki kj v hki hkj hc hi hj

/-! ## The potential -/

/-- The room in all kernels. -/
def room (b : Basis) (s : ItemSets) : Nat := (s.kernels.toList.map (Kernel.room b)).sum

/-- What can still happen to the states, at most `states` of them. -/
def potential (b : Basis) (states : Nat) (s : ItemSets) : Nat :=
  (states - s.kernels.size) * (b.itemCount * b.terminalCount + 1) + room b s
    + (s.front.length + s.back.length)

theorem waiting_enqueue_le (s : ItemSets) (i : StateId) :
    (s.enqueue i).front.length + (s.enqueue i).back.length
      ≤ s.front.length + s.back.length + 1 := by
  unfold enqueue
  split
  · exact Nat.le_succ _
  · simp only [List.length_cons]
    omega

theorem sum_set (l : List Nat) {place x : Nat} (y : Nat) (h : l[place]? = some x) :
    (l.set place y).sum + x = l.sum + y := by
  induction l generalizing place with
  | nil => simp at h
  | cons z rest ih =>
    cases place with
    | zero =>
      obtain rfl := Option.some.inj h
      simp only [List.set_cons_zero, List.sum_cons]
      omega
    | succ place =>
      have := ih h
      simp only [List.set_cons_succ, List.sum_cons]
      omega

theorem potential_merge_le {states : Nat} {old : Kernel} (ht : s.kernels[target]? = some old)
    (hk : k.Sound b) : potential b states (s.merge target k valid) ≤ potential b states s := by
  unfold merge
  simp only [ht]
  cases hcov : coversLookaheads old k with
  | true => exact Nat.le_refl _
  | false =>
    simp only [Bool.not_false, if_true]
    -- the room that the merge uses up pays for the place in the queue
    have hlt := Kernel.room_merge_lt hk.tokens hcov
    have hsum : room b { s with kernels := s.kernels.setIfInBounds target (mergeLookaheads old k) }
        + old.room b = room b s + (mergeLookaheads old k).room b := by
      have := sum_set (s.kernels.toList.map (Kernel.room b)) ((mergeLookaheads old k).room b)
        (show (s.kernels.toList.map (Kernel.room b))[target]? = some (old.room b) by simp [ht])
      simpa [room] using this
    have hq := waiting_enqueue_le { s with
      kernels := s.kernels.setIfInBounds target (mergeLookaheads old k)
      valid := s.valid.modify target (TokenSet.union · valid) } target
    unfold potential
    simp only [room, kernels_enqueue, Array.size_setIfInBounds] at hsum hq ⊢
    omega

theorem potential_create_le {states : Nat} (hk : k.Sound b) (hlt : s.kernels.size < states) :
    potential b states (s.create k valid) ≤ potential b states s := by
  have hroom := hk.room_le
  have hsub : states - s.kernels.size = states - (s.kernels.size + 1) + 1 := by omega
  unfold potential
  simp only [create, room, Array.size_push, Array.toList_push, List.map_append, List.map_cons,
    List.map_nil, List.sum_append, List.sum_cons, List.sum_nil, List.length_cons]
  rw [hsub, Nat.succ_mul]
  omega

/-- The number of states that there can be. -/
def maxStates (b : Basis) : Nat := 2 ^ (b.itemCount + b.terminalCount)

theorem arrive_finite (hb : b.Sound) (h : Inv b s) (ha : Apart b s)
    (hk : k.Sound b) :
    Apart b (arrive b i s (x, k)) ∧
      potential b (maxStates b) (arrive b i s (x, k)) ≤ potential b (maxStates b) s := by
  obtain ⟨made, hm⟩ := ha
  have htokens := Basis.tokens_validTerminals hb hk.tokens
  -- a transition changes neither the kernels nor the queue
  have hconnect {s' : ItemSets} {t : StateId} {made : Array TokenSet} (hm : Made b s' made)
      (hp : potential b (maxStates b) s' ≤ potential b (maxStates b) s) :
      Apart b (s'.connect i x t) ∧
        potential b (maxStates b) (s'.connect i x t) ≤ potential b (maxStates b) s :=
    ⟨⟨made, hm.size, hm.tokens, hm.subset, hm.harmless, hm.apart⟩, hp⟩
  unfold arrive
  simp only
  split
  · rename_i t hfind
    obtain ⟨old, hold, hcore⟩ := (h.byCore _ _).mp (List.mem_of_find?_eq_some hfind)
    exact hconnect (hm.merge (merge_spec _ hb h hold hcore hk) (merge_valid hold) htokens
      (List.find?_some (p := fun i => b.compatible (s.valid[i]?.getD TokenSet.empty)
        (b.validTerminals k)) hfind)) (potential_merge_le hold hk)
  · rename_i hnone
    have hnone : ∀ i ∈ s.withCore k,
        b.compatible (s.valid[i]?.getD TokenSet.empty) (b.validTerminals k) = false := by
      intro i hi
      simpa using List.find?_eq_none.mp hnone i hi
    have hcreate {s₁ : ItemSets} (h₁ : Inv b s₁) (hm₁ : Made b s₁ made)
        (hnone : ∀ i ∈ s₁.withCore k,
          b.compatible (s₁.valid[i]?.getD TokenSet.empty) (b.validTerminals k) = false)
        (hp : potential b (maxStates b) s₁ = potential b (maxStates b) s) :
        Apart b ((s₁.create k (b.validTerminals k)).connect i x s.kernels.size) ∧
          potential b (maxStates b) ((s₁.create k (b.validTerminals k)).connect i x s.kernels.size)
            ≤ potential b (maxStates b) s := by
      have hmc := hm₁.create h₁ htokens hnone
      have hsize := Apart.size_le ⟨_, hmc⟩ (create_inv h₁ hk)
      refine hconnect hmc (hp ▸ potential_create_le hk ?_)
      replace hsize : (s₁.kernels.push k).size ≤ maxStates b := hsize
      rw [Array.size_push] at hsize
      exact hsize
    split
    · exact hcreate h hm hnone rfl
    · exact hcreate ⟨h.valid_size, h.transitions_size, h.queued_size, h.start, h.kernels, h.byCore,
        h.waiting, h.transitions, h.single⟩ ⟨hm.size, hm.tokens, hm.subset, hm.harmless, hm.apart⟩ hnone rfl

theorem foldl_arrive_finite (hb : b.Sound) (hk : k.Sound b) {ki : Kernel} (xs : List Symbol)
    (hxs : ∀ x ∈ xs, x ∈ b.nextSymbols (b.closure k)) (h : Inv b s) (ha : Apart b s)
    (hi : s.kernels[i]? = some ki) (hc : core ki = core k) :
    Apart b ((xs.map fun x => (x, b.advanceOver (b.closure k) x)).foldl (arrive b i) s) ∧
      potential b (maxStates b)
          ((xs.map fun x => (x, b.advanceOver (b.closure k) x)).foldl (arrive b i) s)
        ≤ potential b (maxStates b) s := by
  induction xs generalizing s ki with
  | nil => exact ⟨ha, Nat.le_refl _⟩
  | cons x xs ih =>
    obtain ⟨ha', hp⟩ := arrive_finite (i := i) (x := x) hb h ha
      (Basis.sound_advanceOver hb hk x)
    have hs := arrive_spec hb h hi hk hc (hxs x (by simp))
    obtain ⟨ki', hki', hci⟩ := hs.extends'.kernels i ki hi
    obtain ⟨ha'', hp'⟩ := ih (fun y hy => hxs y (by simp [hy])) hs.inv ha' hki'
      (hci.core.trans hc)
    exact ⟨ha'', Nat.le_trans hp' hp⟩

/-- An expansion uses up potential. -/
theorem expand_finite (hb : b.Sound) (h : Stable b s) (ha : Apart b s)
    (hn : s.next? = some (i, s')) :
    Apart b (s'.expand b i) ∧
      potential b (maxStates b) (s'.expand b i) < potential b (maxStates b) s := by
  have h₁ := taken_inv h hn
  obtain ⟨hkernels, hv, -, -, -, -, hlen⟩ := next?_spec hn
  obtain ⟨made, hm⟩ := ha
  have ha₁ : Apart b { s' with queued := s'.queued.setIfInBounds i false } :=
    ⟨made, by rw [hkernels]; exact hm.size, by rw [hv]; exact hm.tokens,
      by rw [hv]; exact hm.subset, by rw [hv]; exact hm.harmless,
      by rw [hkernels]; exact hm.apart⟩
  have hp₁ : potential b (maxStates b) { s' with queued := s'.queued.setIfInBounds i false }
      < potential b (maxStates b) s := by
    unfold potential room
    simp only [hkernels]
    omega
  unfold expand
  simp only
  cases hk : s'.kernels[i]? with
  | none => exact ⟨ha₁, hp₁⟩
  | some k =>
    obtain ⟨ha₂, hp₂⟩ := foldl_arrive_finite hb (h₁.kernels i k hk)
      (b.nextSymbols (b.closure k)) (fun _ hx => hx) h₁ ha₁ hk rfl
    exact ⟨ha₂, Nat.lt_of_le_of_lt hp₂ hp₁⟩

theorem run_spec (hb : b.Sound) (fuel : Nat) (h : Stable b s) (ha : Apart b s)
    (hf : potential b (maxStates b) s ≤ fuel) :
    Stable b (run b fuel s) ∧ (run b fuel s).next? = none := by
  induction fuel generalizing s with
  | zero =>
    refine ⟨h, ?_⟩
    cases hn : s.next? with
    | none => exact hn
    | some p =>
      have := (expand_finite (i := p.1) hb h ha hn).2
      omega
  | succ fuel ih =>
    unfold run
    cases hn : s.next? with
    | none => exact ⟨h, hn⟩
    | some p =>
      obtain ⟨i, s'⟩ := p
      obtain ⟨ha', hp⟩ := expand_finite hb h ha hn
      exact ih (expand_stable hb h hn) ha' (by omega)

/-! ## All states -/

theorem sound_startKernel (hb : b.Sound) (hr : 0 < b.rhs.size) : Kernel.Sound b startKernel where
  tokens := by
    intro i hi
    obtain rfl := List.mem_singleton.mp hi
    exact Basis.tokens_singleton hb.endToken
  sorted := by simp [core, startKernel]
  nodup := by simp [core, startKernel]
  items := by
    intro x hx
    obtain rfl : x = ⟨0, 0⟩ := by simpa [core, startKernel] using hx
    exact ⟨_, Array.getElem?_eq_getElem hr, Nat.zero_le _⟩

theorem initial_stable (hb : b.Sound) (hr : 0 < b.rhs.size) : Stable b (initial b) where
  valid_size := rfl
  transitions_size := rfl
  queued_size := rfl
  start := ⟨startKernel, rfl, .refl _⟩
  kernels := by
    intro i k hk
    cases i with
    | zero =>
      obtain rfl := Option.some.inj hk
      exact sound_startKernel hb hr
    | succ i => simp [initial] at hk
  byCore := by
    intro c i
    show i ∈ ([(core startKernel, [0])].lookup c).getD []
      ↔ ∃ k, (#[startKernel] : Array Kernel)[i]? = some k ∧ core k = c
    rw [List.lookup_cons, Bool.beq_eq_decide_eq]
    cases i with
    | zero => by_cases hc : c = core startKernel <;> simp [hc, Ne.symm]
    | succ i => by_cases hc : c = core startKernel <;> simp [hc]
  waiting := by
    intro i hi
    cases i with
    | zero => exact .inl (by simp [initial])
    | succ i => simp [initial] at hi
  transitions := by
    intro i k ts x t _ hts hm
    cases i with
    | zero =>
      have hts : ts = [] := (Option.some.inj hts).symm
      rw [hts] at hm
      simp at hm
    | succ i => simp [initial] at hts
  single := by
    intro i ts x t t' hts hm
    cases i with
    | zero =>
      have hts : ts = [] := (Option.some.inj hts).symm
      rw [hts] at hm
      simp at hm
    | succ i => simp [initial] at hts
  settled := by
    intro i hi
    cases i with
    | zero => simp [initial] at hi
    | succ i => simp [initial] at hi

theorem initial_apart (hb : b.Sound) (hr : 0 < b.rhs.size) : Apart b (initial b) := by
  have htokens := Basis.tokens_validTerminals hb (sound_startKernel hb hr).tokens
  refine ⟨#[b.validTerminals startKernel], rfl, ?_, ?_, ?_, ?_⟩
  · intro i w hw
    obtain rfl := (List.mem_singleton.mp (List.mem_of_getElem? (l := [_])
      (by simpa [initial] using hw)))
    exact htokens
  · intro i v w hv hw
    obtain rfl := Option.some.inj (hv.symm.trans hw)
    exact Closure.subset_refl _
  · intro i v w hv hw
    obtain rfl := Option.some.inj (hv.symm.trans hw)
    intro t ht hn
    rw [ht] at hn
    contradiction
  · intro i j k k' v hk hk' _ _ _
    have hi := (Array.getElem?_eq_some_iff.mp hk).1
    have hj := (Array.getElem?_eq_some_iff.mp hk').1
    simp only [initial, List.size_toArray, List.length_cons, List.length_nil] at hi hj
    omega

theorem potential_initial_le (hb : b.Sound) (hr : 0 < b.rhs.size) :
    potential b (maxStates b) (initial b) ≤ bound b := by
  have hroom := (sound_startKernel hb hr).room_le
  have hpos : 0 < maxStates b := Nat.two_pow_pos _
  have hbound : bound b = maxStates b * (b.itemCount * b.terminalCount + 1) + maxStates b :=
    Nat.mul_succ _ _
  have hsplit : maxStates b * (b.itemCount * b.terminalCount + 1)
      = (maxStates b - 1) * (b.itemCount * b.terminalCount + 1)
        + (b.itemCount * b.terminalCount + 1) := by
    rw [← Nat.succ_mul, Nat.succ_eq_add_one, Nat.sub_add_cancel hpos]
  unfold potential
  simp only [room, initial, List.size_toArray, List.map_cons, List.map_nil,
    List.sum_cons, List.sum_nil, List.length_cons, List.length_nil, Nat.zero_add]
  omega

/-- The construction ends with no state waiting. -/
theorem next?_ofBasis (hb : b.Sound) (hr : 0 < b.rhs.size) : (ofBasis b).next? = none :=
  (run_spec hb _ (initial_stable hb hr) (initial_apart hb hr) (potential_initial_le hb hr)).2

theorem ofBasis_stable (hb : b.Sound) (hr : 0 < b.rhs.size) : Stable b (ofBasis b) :=
  (run_spec hb _ (initial_stable hb hr) (initial_apart hb hr) (potential_initial_le hb hr)).1

/-- In the end no state waits. -/
theorem queued_ofBasis (hb : b.Sound) (hr : 0 < b.rhs.size) (hk : (ofBasis b).kernels[i]? = some k) :
    (ofBasis b).queued[i]? = some false := by
  have h := ofBasis_stable hb hr
  obtain ⟨hfront, hback⟩ := next?_eq_none (next?_ofBasis hb hr)
  have hlt := (Array.getElem?_eq_some_iff.mp hk).1
  rw [← h.queued_size] at hlt
  have hq := Array.getElem?_eq_getElem hlt
  cases hi : (ofBasis b).queued[i] with
  | true =>
    rw [hi] at hq
    have := h.waiting i hq
    simp [hfront, hback] at this
  | false =>
    rw [hi] at hq
    exact hq

/-- Every state has its transitions, for the kernel that it has in the end. -/
theorem ofBasis_settled (hb : b.Sound) (hr : 0 < b.rhs.size) (i : StateId) :
    Settled b (ofBasis b) i :=
  fun k hk => (ofBasis_stable hb hr).settled i (queued_ofBasis hb hr hk) k hk

end ItemSets

end Glr.Automaton
