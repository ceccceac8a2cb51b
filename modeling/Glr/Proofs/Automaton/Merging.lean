import Glr.Proofs.Automaton.Expansions
import Glr.Proofs.Automaton.Follows

/-!
# Glr.Proofs.Automaton.Merging

A merge stays right.  A kernel is merged into a state when neither's valid tokens compete with
those of the other, but the state grows on, by merges that know nothing of this one.  It is
enough that the state already has the valid tokens `v` of the kernel, and no other token that
competes with them:

```
v ⊆ w,   w \ v harmless to v,   u compatible with w     ⟹   w ∪ u \ v harmless to v
```

for a token of `u` that is not in `w` is harmless to all of `w`.  Since a state that grows is
expanded again, this holds at last for the successors of the kernels that the states end with.
-/

namespace Glr.Automaton

namespace ItemSets

variable {b : Basis} {s s' : ItemSets} {i j t target : StateId} {k : Kernel} {x y : Symbol}
  {v w u valid : TokenSet}

/-! ## Growing without harm -/

/-- The valid tokens of a state include some tokens, and nothing that competes with them. -/
def Suits (b : Basis) (s : ItemSets) (t : StateId) (v : TokenSet) : Prop :=
  ∃ w, s.valid[t]? = some w ∧ v.subset w = true ∧ Harmless b w v

theorem Suits.merge {old : Kernel} (h : Suits b s t v) (ht : s.kernels[target]? = some old)
    (hvalid : b.Tokens valid)
    (hc : b.compatible (s.valid[target]?.getD TokenSet.empty) valid = true) :
    Suits b (s.merge target k valid) t v := by
  obtain ⟨w, hw, hs, hh⟩ := h
  unfold Suits
  rw [merge_valid ht, Array.getElem?_modify]
  split
  · rename_i he
    subst he
    rw [hw, Option.getD_some] at hc
    rw [hw]
    exact ⟨_, rfl, Closure.subset_trans hs (Closure.subset_union_left _ _),
      hh.union hs hvalid hc⟩
  · exact ⟨w, hw, hs, hh⟩

/-- A state that a kernel is merged into suits it. -/
theorem suits_merge {old : Kernel} (h : Inv b s) (ht : s.kernels[target]? = some old)
    (hw : ∀ w, s.valid[target]? = some w → b.Tokens w)
    (hc : b.compatible (s.valid[target]?.getD TokenSet.empty) valid = true) :
    Suits b (s.merge target k valid) target valid := by
  have hlt := (Array.getElem?_eq_some_iff.mp ht).1
  rw [← h.valid_size] at hlt
  have hget := Array.getElem?_eq_getElem hlt
  unfold Suits
  rw [merge_valid ht, Array.getElem?_modify, if_pos rfl, hget]
  refine ⟨_, rfl, Closure.subset_union_right _ _, fun a ha hv => ?_⟩
  rw [hget, Option.getD_some, Basis.compatible, Bool.and_eq_true, Bool.not_eq_true',
    Bool.not_eq_true'] at hc
  rw [TokenSet.contains_union, hv, Bool.or_false] at ha
  exact (harmless_iff (hw _ hget)).mp hc.1 a ha hv

theorem Suits.create (h : Suits b s t v) : Suits b (s.create k valid) t v := by
  obtain ⟨w, hw, hs, hh⟩ := h
  exact ⟨w, (getElem?_push_of_lt (Array.getElem?_eq_some_iff.mp hw).1).trans hw, hs, hh⟩

/-- A state that is made for a kernel suits it. -/
theorem suits_create (h : Inv b s) : Suits b (s.create k valid) s.kernels.size valid := by
  refine ⟨valid, ?_, Closure.subset_refl _, fun a ha hv => ?_⟩
  · rw [ItemSets.create, ← h.valid_size]
    exact Array.getElem?_push_size
  · rw [ha] at hv
    contradiction

/-! ## Valid tokens -/

/-- The valid tokens of every state are those of its kernel. -/
def Exact (b : Basis) (s : ItemSets) : Prop :=
  ∀ (i : Nat) k, s.kernels[i]? = some k → s.valid[i]? = some (b.validTerminals k)

theorem Exact.tokens (h : Exact b s) (hb : b.Sound) (hs : Inv b s) (hw : s.valid[i]? = some w) :
    b.Tokens w := by
  have hlt := (Array.getElem?_eq_some_iff.mp hw).1
  rw [hs.valid_size] at hlt
  have hk := Array.getElem?_eq_getElem hlt
  obtain rfl := Option.some.inj (hw.symm.trans (h i _ hk))
  exact Basis.tokens_validTerminals hb (hs.kernels i _ hk).tokens

theorem Exact.merge {old : Kernel} (h : Exact b s) (hb : b.Sound) (hs : Inv b s)
    (ht : s.kernels[target]? = some old) (hc : core old = core k) (hk : k.Sound b) :
    Exact b (s.merge target k (b.validTerminals k)) := by
  have hold := hs.kernels target old ht
  intro i ki hki
  rw [merge_valid ht, Array.getElem?_modify]
  unfold ItemSets.merge at hki
  simp only [ht] at hki
  cases hcov : coversLookaheads old k with
  | true =>
    replace hki : s.kernels[i]? = some ki := by simpa [hcov] using hki
    rw [h i ki hki]
    split
    · rename_i he
      subst he
      obtain rfl := Option.some.inj (ht.symm.trans hki)
      rw [Option.map_some]
      refine congrArg some (FirstSets.subset_antisymm ?_ (Closure.subset_union_left _ _))
      rw [TokenSet.subset_iff]
      intro a ha
      rw [TokenSet.contains_union, Bool.or_eq_true] at ha
      exact ha.elim id (TokenSet.subset_iff.mp
        (Basis.validTerminals_mono hb hold.tokens hk.tokens ⟨hc, hcov⟩) a)
    · rfl
  | false =>
    simp only [hcov, Bool.not_false, if_true, kernels_enqueue,
      Array.getElem?_setIfInBounds] at hki
    split
    · rename_i he
      subst he
      rw [if_pos rfl, if_pos (Array.getElem?_eq_some_iff.mp ht).1] at hki
      obtain rfl := Option.some.inj hki
      rw [h target old ht, Basis.validTerminals_merge hb hold.tokens hk.tokens hc]
      rfl
    · rename_i he
      rw [if_neg he] at hki
      exact h i ki hki

theorem Exact.create (h : Exact b s) (hs : Inv b s) :
    Exact b (s.create k (b.validTerminals k)) := by
  intro i ki hki
  rw [ItemSets.create, Array.getElem?_push] at hki ⊢
  rw [hs.valid_size]
  split
  · rename_i he
    rw [if_pos he] at hki
    obtain rfl := Option.some.inj hki
    rfl
  · rename_i he
    rw [if_neg he] at hki
    exact h i ki hki

/-! ## Arriving -/

/-- A state has a transition to one that suits some tokens. -/
def Enters (b : Basis) (s : ItemSets) (i : StateId) (x : Symbol) (v : TokenSet) : Prop :=
  ∃ ts t, s.transitions[i]? = some ts ∧ (x, t) ∈ ts ∧ Suits b s t v

theorem Enters.connect (h : Enters b s j y v) (hne : j ≠ i ∨ y ≠ x) :
    Enters b (s.connect i x t) j y v := by
  obtain ⟨ts, t', hts, hm, hsuits⟩ := h
  by_cases he : i = j
  · subst he
    obtain ⟨ts', hts', hm'⟩ := exists_connect x t hts
    exact ⟨ts', t', hts', (hm' y t').mpr (.inr ⟨hne.resolve_left (fun h => h rfl), hm⟩), hsuits⟩
  · refine ⟨ts, t', ?_, hm, hsuits⟩
    rw [getElem?_connect, if_neg he]
    exact hts

theorem enters_connect (hi : i < s.transitions.size) (h : Suits b s t v) :
    Enters b (s.connect i x t) i x v := by
  obtain ⟨ts, hts, hm⟩ := exists_connect x t (Array.getElem?_eq_getElem hi)
  exact ⟨ts, t, hts, (hm x t).mpr (.inl ⟨rfl, rfl⟩), h⟩

theorem Enters.of_suits (h : Enters b s j y v) (hsuits : ∀ t v, Suits b s t v → Suits b s' t v)
    (hts : ∀ j < s.transitions.size, s'.transitions[j]? = s.transitions[j]?) :
    Enters b s' j y v := by
  obtain ⟨ts, t, ht, hm, hs⟩ := h
  exact ⟨ts, t, (hts j (Array.getElem?_eq_some_iff.mp ht).1).trans ht, hm, hsuits t v hs⟩

/-- What the arrival of a successor does to transitions and valid tokens. -/
structure Admitted (b : Basis) (s : ItemSets) (i : StateId) (x : Symbol) (v : TokenSet)
    (s' : ItemSets) : Prop where
  exact : Exact b s'
  enters : Enters b s' i x v
  keeps : ∀ j y u, j ≠ i ∨ y ≠ x → Enters b s j y u → Enters b s' j y u

theorem arrive_admitted (hb : b.Sound) (h : Inv b s) (he : Exact b s) (hk : k.Sound b)
    (hi : i < s.kernels.size) :
    Admitted b s i x (b.validTerminals k) (arrive b i s (x, k)) := by
  have hvalid := Basis.tokens_validTerminals hb hk.tokens
  have hsize : i < s.transitions.size := by rw [h.transitions_size]; exact hi
  -- whichever state is found or made, it suits the successor
  have connects {s₁ : ItemSets} {t : StateId} (he₁ : Exact b s₁)
      (hgrows : ∀ t v, Suits b s t v → Suits b s₁ t v) (ht : Suits b s₁ t (b.validTerminals k))
      (hts : ∀ j < s.transitions.size, s₁.transitions[j]? = s.transitions[j]?) :
      Admitted b s i x (b.validTerminals k) (s₁.connect i x t) := by
    refine ⟨he₁, enters_connect ?_ ht, fun j y u hne hj => (hj.of_suits hgrows hts).connect hne⟩
    have hget := (hts i hsize).trans (Array.getElem?_eq_getElem hsize)
    exact (Array.getElem?_eq_some_iff.mp hget).1
  unfold arrive
  simp only
  split
  · rename_i target hfind
    obtain ⟨old, hold, hcore⟩ := (h.byCore _ _).mp (List.mem_of_find?_eq_some hfind)
    have hc := List.find?_some (p := fun i => b.compatible (s.valid[i]?.getD TokenSet.empty)
      (b.validTerminals k)) hfind
    have hmerged := merge_spec (b.validTerminals k) hb h hold hcore hk
    exact connects (he.merge hb h hold hcore hk) (fun t v ht => ht.merge hold hvalid hc)
      (suits_merge h hold (fun w hw => he.tokens hb h hw) hc)
      fun j _ => by rw [hmerged.transitions]
  · have hcreate {s₁ : ItemSets} (h₁ : Inv b s₁) (he₁ : Exact b s₁)
        (hvalid : s₁.valid = s.valid) (hts : s₁.transitions = s.transitions)
        (hsize : s₁.kernels.size = s.kernels.size) :
        Admitted b s i x (b.validTerminals k)
          ((s₁.create k (b.validTerminals k)).connect i x s.kernels.size) := by
      refine connects (he₁.create h₁) (fun t v ht => ?_) (hsize ▸ suits_create h₁) fun j hj => ?_
      · obtain ⟨w, hw, hs, hh⟩ := ht
        exact Suits.create ⟨w, by rw [hvalid]; exact hw, hs, hh⟩
      · rw [ItemSets.create, ← hts]
        exact getElem?_push_of_lt (by rw [hts]; exact hj)
    split
    · exact hcreate h he rfl rfl rfl
    · exact hcreate ⟨h.valid_size, h.transitions_size, h.queued_size, h.start, h.kernels,
        h.byCore, h.waiting, h.transitions, h.single⟩ he rfl rfl rfl

/-! ## Expanding -/

/-- What some arrivals at a state do to transitions and valid tokens. -/
structure Admissions (b : Basis) (s : ItemSets) (i : StateId) (k : Kernel) (xs : List Symbol)
    (s' : ItemSets) : Prop where
  exact : Exact b s'
  enters : ∀ x, x ∈ xs ∨ Enters b s i x (b.validTerminals (b.advanceOver (b.closure k) x)) →
    Enters b s' i x (b.validTerminals (b.advanceOver (b.closure k) x))
  keeps : ∀ j y u, j ≠ i → Enters b s j y u → Enters b s' j y u

theorem foldl_arrive_admissions (hb : b.Sound) (hk : k.Sound b) {ki : Kernel} (xs : List Symbol)
    (hxs : ∀ x ∈ xs, x ∈ b.nextSymbols (b.closure k)) (h : Inv b s) (he : Exact b s)
    (hi : s.kernels[i]? = some ki) (hc : core ki = core k) :
    Admissions b s i k xs
      ((xs.map fun x => (x, b.advanceOver (b.closure k) x)).foldl (arrive b i) s) := by
  induction xs generalizing s ki with
  | nil => exact ⟨he, fun _ hl => hl.resolve_left (by simp), fun _ _ _ _ hl => hl⟩
  | cons x xs ih =>
    have ha := arrive_admitted (x := x) hb h he (Basis.sound_advanceOver hb hk x)
      (Array.getElem?_eq_some_iff.mp hi).1
    have hs := arrive_spec hb h hi hk hc (hxs x (by simp))
    obtain ⟨ki', hki', hci⟩ := hs.extends'.kernels i ki hi
    have ih := ih (fun y hy => hxs y (by simp [hy])) hs.inv ha.exact hki' (hci.core.trans hc)
    refine ⟨ih.exact, fun y hy => ih.enters y ?_,
      fun j y u hne hl => ih.keeps j y u hne (ha.keeps j y u (.inl hne) hl)⟩
    by_cases he : y = x
    · subst he
      exact .inr ha.enters
    · rcases hy with hy | hy
      · exact .inl ((List.mem_cons.mp hy).resolve_left he)
      · exact .inr (ha.keeps i y _ (.inr he) hy)

/-- A state that does not wait has transitions to states that suit its successors. -/
def Suited (b : Basis) (s : ItemSets) : Prop :=
  ∀ i : Nat, s.queued[i]? = some false → ∀ k, s.kernels[i]? = some k →
    ∀ x ∈ b.nextSymbols (b.closure k),
      Enters b s i x (b.validTerminals (b.advanceOver (b.closure k) x))

theorem expand_suited (hb : b.Sound) (h : Stable b s) (he : Exact b s) (hs : Suited b s)
    (hn : s.next? = some (i, s')) : Exact b (s'.expand b i) ∧ Suited b (s'.expand b i) := by
  have h₁ := taken_inv h hn
  obtain ⟨hkernels, hv, hts, hq, -, -, -⟩ := next?_spec hn
  have he₁ : Exact b { s' with queued := s'.queued.setIfInBounds i false } := by
    intro j k hk
    rw [hkernels] at hk
    rw [hv]
    exact he j k hk
  have hs₁ : ∀ j : Nat, j ≠ i → (s'.queued.setIfInBounds i false)[j]? = some false → ∀ k,
      s'.kernels[j]? = some k → ∀ x ∈ b.nextSymbols (b.closure k),
        Enters b { s' with queued := s'.queued.setIfInBounds i false } j x
          (b.validTerminals (b.advanceOver (b.closure k) x)) := by
    intro j hne hj k hk x hx
    rw [Array.getElem?_setIfInBounds, if_neg (Ne.symm hne), hq] at hj
    rw [hkernels] at hk
    obtain ⟨ts, t, ht, hm, w, hw, hsuits⟩ := hs j hj k hk x hx
    exact ⟨ts, t, by rw [hts]; exact ht, hm, w, by rw [hv]; exact hw, hsuits⟩
  unfold expand
  simp only
  cases hk : s'.kernels[i]? with
  | none =>
    refine ⟨he₁, fun j hj k hkj => ?_⟩
    by_cases he : j = i
    · subst he
      rw [hk] at hkj
      contradiction
    · exact hs₁ j he hj k hkj
  | some k =>
    have hks := h₁.kernels i k hk
    have ha := foldl_arrive_admissions hb hks (b.nextSymbols (b.closure k)) (fun _ hx => hx)
      h₁ he₁ hk rfl
    have harrivals := foldl_arrive hb hks (b.nextSymbols (b.closure k)) (fun _ hx => hx) h₁ hk rfl
    refine ⟨ha.exact, fun j hj kj hkj x hx => ?_⟩
    obtain ⟨hj', hsame⟩ := harrivals.extends'.queued j hj
    replace hkj := hsame.symm.trans hkj
    by_cases he : j = i
    · subst he
      obtain rfl := Option.some.inj (hk.symm.trans hkj)
      exact ha.enters x (.inl hx)
    · exact ha.keeps j x _ he (hs₁ j he hj' kj hkj x hx)

theorem initial_exact (b : Basis) : Exact b (initial b) := by
  intro i k hk
  cases i with
  | zero =>
    obtain rfl := Option.some.inj hk
    rfl
  | succ i => simp [initial] at hk

theorem initial_suited (b : Basis) : Suited b (initial b) := by
  intro i hi
  cases i with
  | zero => simp [initial] at hi
  | succ i => simp [initial] at hi

/-! ## All states -/

theorem Expansions.suited {order : List StateId} (hb : b.Sound) (hr : 0 < b.rhs.size)
    (h : Expansions b order s) : Exact b s ∧ Suited b s := by
  induction h with
  | initial => exact ⟨initial_exact b, initial_suited b⟩
  | expand h hn ih => exact expand_suited hb (h.stable hb hr) ih.1 ih.2 hn

/-- A state has a transition for each symbol after the position of an item of its closure, and no
other.  It leads to a state with the items and the lookaheads of the successor over the symbol,
and no token that is valid in only one of that state and the successor competes with a token
that is valid in the other. -/
theorem transitions_compatible {grammar : Grammar} {g : FlatGrammar}
    (hg : FlatGrammar.ofGrammar grammar = .ok g) :
    let b := Basis.ofGrammar g
    ∀ (i : Nat) k ts, (ofBasis b).kernels[i]? = some k → (ofBasis b).transitions[i]? = some ts →
      (∀ x, x ∈ b.nextSymbols (b.closure k) ↔ ∃ t, (x, t) ∈ ts) ∧
      ∀ x t, (x, t) ∈ ts → ∃ k', (ofBasis b).kernels[t]? = some k' ∧
        k'.Covers (b.advanceOver (b.closure k) x) ∧
        b.compatible (b.validTerminals k') (b.validTerminals (b.advanceOver (b.closure k) x)) = true := by
  intro b i k ts hk hts
  have hb : b.Sound := Basis.ofGrammar_sound (FlatGrammar.ofGrammar_wellFormed hg)
  have hr : 0 < b.rhs.size := by rw [Basis.size_rhs]; exact Nat.succ_pos _
  obtain ⟨order, horder⟩ := exists_expansions_ofBasis b
  obtain ⟨hexact, hsuited⟩ := horder.suited hb hr
  have hinv := (ofBasis_stable hb hr).toInv
  have hleads := ofBasis_settled hb hr i k hk
  refine ⟨fun x => ⟨fun hx => ?_, fun ⟨t, hm⟩ => (hinv.transitions i k ts x t hk hts hm).1⟩,
    fun x t hm => ?_⟩
  · obtain ⟨ts', t, -, hts', hm, -, -⟩ := hleads x hx
    obtain rfl := Option.some.inj (hts.symm.trans hts')
    exact ⟨t, hm⟩
  have hx := (hinv.transitions i k ts x t hk hts hm).1
  -- the one transition over the symbol is the one that covers the successor, and that suits it
  obtain ⟨ts', t', k', hts', hm', hk', hc⟩ := hleads x hx
  obtain rfl := Option.some.inj (hts.symm.trans hts')
  obtain rfl := hinv.single i ts x t t' hts hm hm'
  obtain ⟨ts'', t'', hts'', hm'', w, hw, hsubset, hharmless⟩ :=
    hsuited i (queued_ofBasis hb hr hk) k hk x hx
  obtain rfl := Option.some.inj (hts.symm.trans hts'')
  obtain rfl := hinv.single i ts x t t'' hts hm hm''
  obtain rfl := Option.some.inj (hw.symm.trans (hexact t k' hk'))
  exact ⟨k', hk', hc, compatible_made (Basis.tokens_validTerminals hb (hinv.kernels t k' hk').tokens)
    (Basis.tokens_validTerminals hb (Basis.sound_advanceOver hb (hinv.kernels i k hk) x).tokens)
    hsubset hharmless⟩

/-- The state after the rule, which comes to be expanded for both contexts, has a successor that
is kept apart from the one for the first context. -/
theorem transitions_compatible_twoContexts : ∃ g k k₇ k₁₀,
    FlatGrammar.ofGrammar .twoContexts = .ok g ∧
    (ofBasis (Basis.ofGrammar g)).kernels[4]? = some k ∧
    (ofBasis (Basis.ofGrammar g)).transitions[4]? = some [(6, 10)] ∧
    (ofBasis (Basis.ofGrammar g)).kernels[7]? = some k₇ ∧
    (ofBasis (Basis.ofGrammar g)).kernels[10]? = some k₁₀ ∧ core k₇ = core k₁₀ ∧
    k₁₀.Covers ((Basis.ofGrammar g).advanceOver ((Basis.ofGrammar g).closure k) 6) ∧
    (Basis.ofGrammar g).compatible ((Basis.ofGrammar g).validTerminals k₁₀)
      ((Basis.ofGrammar g).validTerminals
        ((Basis.ofGrammar g).advanceOver ((Basis.ofGrammar g).closure k) 6)) = true := by
  have hchecks : (FlatGrammar.ofGrammar .twoContexts).toOption.any (fun g =>
      (ofBasis (Basis.ofGrammar g)).kernels[4]?.isSome &&
        decide ((ofBasis (Basis.ofGrammar g)).transitions[4]? = some [(6, 10)]) &&
        (ofBasis (Basis.ofGrammar g)).kernels[7]?.any fun k₇ =>
          (ofBasis (Basis.ofGrammar g)).kernels[10]?.any fun k₁₀ => core k₇ == core k₁₀) = true := by
    decide +kernel
  obtain ⟨g, hg, hchecks⟩ := exists_ok hchecks
  simp only [Bool.and_eq_true, Option.isSome_iff_exists, decide_eq_true_eq, Option.any_eq_true,
    beq_iff_eq] at hchecks
  obtain ⟨⟨⟨k, hk⟩, hts⟩, k₇, hk₇, k₁₀, hk₁₀, hcore⟩ := hchecks
  obtain ⟨k', hk', hcovers, hcompatible⟩ :=
    (transitions_compatible hg 4 k _ hk hts).2 6 10 (List.mem_singleton_self _)
  obtain rfl := Option.some.inj (hk₁₀.symm.trans hk')
  exact ⟨g, k, k₇, k₁₀, hg, hk, hts, hk₇, hk₁₀, hcore, hcovers, hcompatible⟩

end ItemSets

end Glr.Automaton
