import Glr.Parse.Condense

/-!
# Glr.Proofs.Parse.Condense

What condensing leaves of the hypotheses: at most `maxVersions` of them, none twice,
and one at least, unless there is an outcome already.  So the last hypothesis is never
given up without an outcome.  Which ones stay depends only on what condensing compares: what
else a hypothesis holds can change without changing the choice.
-/

namespace Glr.Parse

/-! ## Ranks -/

section

variable {α : Type} {lt : α → α → Bool}

/-- In a list in order, as many elements are before one as stand before it. -/
theorem countP_lt_of_pairwise (irrefl : ∀ x, lt x x = false)
    (asymm : ∀ x y, lt x y = true → lt y x = false) {as bs : List α} {y : α}
    (h : (as ++ y :: bs).Pairwise fun x y => lt x y = true) :
    (as ++ y :: bs).countP (fun x => lt x y) = as.length := by
  rw [List.pairwise_append, List.pairwise_cons] at h
  obtain ⟨-, ⟨hy, -⟩, has⟩ := h
  have hbefore : as.countP (fun x => lt x y) = as.length :=
    List.countP_eq_length.mpr fun x hx => has x hx y (by simp)
  have hafter : bs.countP (fun x => lt x y) = 0 :=
    List.countP_eq_zero.mpr fun x hx => by simp [asymm y x (hy x hx)]
  rw [List.countP_append, List.countP_cons, hbefore, hafter, irrefl]
  simp

/-- In a list in order, the elements of small rank are the first ones. -/
theorem filter_rank_of_pairwise (irrefl : ∀ x, lt x x = false)
    (asymm : ∀ x y, lt x y = true → lt y x = false) {ys : List α} (k : Nat)
    (h : ys.Pairwise fun x y => lt x y = true) :
    ys.filter (fun y => ys.countP (fun x => lt x y) < k) = ys.take k := by
  have key (bs : List α) (as : List α) (he : as ++ bs = ys) :
      bs.filter (fun y => ys.countP (fun x => lt x y) < k) = bs.take (k - as.length) := by
    induction bs generalizing as with
    | nil => simp
    | cons y bs ih =>
      have hrank : ys.countP (fun x => lt x y) = as.length := by
        subst he
        exact countP_lt_of_pairwise irrefl asymm h
      have hrest := ih (as ++ [y]) (by rw [← he]; simp)
      rw [List.length_append, List.length_singleton] at hrest
      rw [List.filter_cons, hrank]
      split
      · rename_i hk
        have hk : as.length < k := by simpa using hk
        rw [hrest, show k - as.length = (k - (as.length + 1)) + 1 by omega, List.take_succ_cons]
      · rename_i hk
        have hk : k ≤ as.length := by simpa using hk
        rw [hrest, show k - (as.length + 1) = 0 by omega, show k - as.length = 0 by omega]
        rfl
  simpa using key ys [] rfl

/-- As many elements are kept as there may be, if there are so many. -/
theorem length_filter_rank (irrefl : ∀ x, lt x x = false)
    (trans : ∀ x y z, lt x y = true → lt y z = true → lt x z = true) {xs : List α}
    (total : xs.Pairwise fun x y => lt x y = true ∨ lt y x = true)
    (htrans : ∀ x y z, lt y x = false → lt z y = false → lt z x = false) (k : Nat) :
    (xs.filter (fun y => xs.countP (fun x => lt x y) < k)).length = min k xs.length := by
  have asymm (x y : α) (h : lt x y = true) : lt y x = false := by
    cases hyx : lt y x with
    | false => rfl
    | true => rw [← irrefl x, trans x y x h hyx]
  let ys := xs.mergeSort fun x y => !lt y x
  have hperm : ys.Perm xs := List.mergeSort_perm xs _
  have hle : ys.Pairwise fun x y => (!lt y x) = true :=
    List.pairwise_mergeSort
      (fun x y z hxy hyz => by
        simp only [Bool.not_eq_true'] at hxy hyz ⊢
        exact htrans x y z hxy hyz)
      (fun x y => by
        cases hxy : lt x y with
        | false => simp
        | true => simp [asymm x y hxy])
      xs
  have hsorted : ys.Pairwise fun x y => lt x y = true := by
    have htotal : ys.Pairwise fun x y => lt x y = true ∨ lt y x = true :=
      hperm.symm.pairwise total fun h => h.symm
    refine (hle.and htotal).imp fun {x y} ⟨h₁, h₂⟩ => ?_
    have h₁ : lt y x = false := by simpa using h₁
    simpa [h₁] using h₂
  have hcount (y : α) : xs.countP (fun x => lt x y) = ys.countP (fun x => lt x y) :=
    (hperm.countP_eq _).symm
  simp only [hcount]
  rw [← (hperm.filter _).length_eq, filter_rank_of_pairwise irrefl asymm k hsorted,
    List.length_take, hperm.length_eq]

/-- In a list with something in it there is an element that none is before. -/
theorem exists_first (irrefl : ∀ x, lt x x = false)
    (trans : ∀ x y z, lt x y = true → lt y z = true → lt x z = true) {xs : List α} (h : xs ≠ []) :
    ∃ x ∈ xs, ∀ y ∈ xs, lt y x = false := by
  induction xs with
  | nil => contradiction
  | cons x xs ih =>
    by_cases hnil : xs = []
    · subst hnil
      exact ⟨x, by simp, by simpa using irrefl x⟩
    · obtain ⟨z, hz, hfirst⟩ := ih hnil
      cases hxz : lt x z with
      | false => exact ⟨z, List.mem_cons_of_mem _ hz, List.forall_mem_cons.mpr ⟨hxz, hfirst⟩⟩
      | true =>
        refine ⟨x, by simp, List.forall_mem_cons.mpr ⟨irrefl x, fun y hy => ?_⟩⟩
        cases hyx : lt y x with
        | false => rfl
        | true => rw [← hfirst y hy, trans y x z hyx hxz]

end

/-! ## The best hypotheses -/

/-- One hypothesis of a list comes before another one: it is better, or as good and
further in front. -/
def Version.precedes (p q : Version × Nat) : Bool :=
  p.1.isBetter q.1 || !q.1.isBetter p.1 && p.2 < q.2

theorem Version.isBetter_iff {v w : Version} : v.isBetter w = true ↔
    v.errorCost < w.errorCost ∨
      v.errorCost = w.errorCost ∧ w.dynamicPrecedence < v.dynamicPrecedence := by
  simp [Version.isBetter]

theorem Version.precedes_iff {p q : Version × Nat} : Version.precedes p q = true ↔
    p.1.errorCost < q.1.errorCost ∨ p.1.errorCost = q.1.errorCost ∧
      (q.1.dynamicPrecedence < p.1.dynamicPrecedence ∨
        q.1.dynamicPrecedence = p.1.dynamicPrecedence ∧ p.2 < q.2) := by
  simp only [Version.precedes, Bool.or_eq_true, Bool.and_eq_true, Bool.not_eq_true',
    decide_eq_true_eq, ← Bool.not_eq_true, Version.isBetter_iff]
  omega

theorem Version.precedes_irrefl (p : Version × Nat) : Version.precedes p p = false := by
  rw [← Bool.not_eq_true, Version.precedes_iff]
  omega

theorem Version.precedes_trans {p q r : Version × Nat} (hpq : Version.precedes p q = true)
    (hqr : Version.precedes q r = true) : Version.precedes p r = true := by
  rw [Version.precedes_iff] at *
  omega

theorem keepBest_sublist (vs : List Version) : (keepBest vs).Sublist vs := by
  have hsub := (List.filter_sublist (p := fun x : Version × Nat => rank vs x.1 x.2 < maxVersions)
    (l := vs.zipIdx)).map Prod.fst
  rwa [List.zipIdx_map_fst] at hsub

/-- As many hypotheses are kept as may live, if there are so many. -/
theorem length_keepBest (vs : List Version) : (keepBest vs).length = min maxVersions vs.length := by
  have hrank (p : Version × Nat) : rank vs p.1 p.2 = vs.zipIdx.countP (Version.precedes · p) := rfl
  have hplaces : vs.zipIdx.Pairwise fun p q => p.2 < q.2 := by
    have hlt : (vs.zipIdx.map Prod.snd).Pairwise (· < ·) := by
      rw [List.zipIdx_map_snd]
      exact List.pairwise_lt_range'
    exact List.pairwise_map.mp hlt
  have htotal : vs.zipIdx.Pairwise fun p q =>
      Version.precedes p q = true ∨ Version.precedes q p = true := by
    refine hplaces.imp fun {p q} hlt => ?_
    rw [Version.precedes_iff, Version.precedes_iff]
    omega
  unfold keepBest
  rw [List.length_map]
  simp only [hrank]
  rw [length_filter_rank Version.precedes_irrefl (fun _ _ _ => Version.precedes_trans) htotal,
    List.length_zipIdx]
  intro p q r hqp hrq
  rw [← Bool.not_eq_true, Version.precedes_iff] at *
  omega

/-! ## Condensing -/

variable {vs : List Version} {fs : List Finished}

/-- Nothing is there more often after merging. -/
theorem countP_absorb_le (p : Version → Bool) (v : Version) (ws : List Version) :
    ((absorb v ws).1 :: (absorb v ws).2).countP p ≤ (v :: ws).countP p := by
  induction ws generalizing v with
  | nil => exact Nat.le_refl _
  | cons w ws ih =>
    unfold absorb
    split
    · refine Nat.le_trans (ih _) ?_
      split <;> simp only [List.countP_cons] <;> omega
    · have := ih v
      simp only [List.countP_cons] at this ⊢
      omega

theorem countP_mergeAll_le (p : Version → Bool) (vs : List Version) :
    (mergeAll vs).countP p ≤ vs.countP p := by
  induction vs using mergeAll.induct with
  | case1 => simp [mergeAll]
  | case2 v vs ih =>
    have := countP_absorb_le p v vs
    rw [mergeAll]
    simp only [List.countP_cons] at this ⊢
    omega

theorem countP_keepBest_le (p : Version → Bool) (vs : List Version) :
    (keepBest vs).countP p ≤ vs.countP p :=
  (keepBest_sublist vs).countP_le

/-- Nothing is there more often after condensing. -/
theorem countP_condense_le (p : Version → Bool) (vs : List Version) (fs : List Finished) :
    (condense vs fs).countP p ≤ (vs.filter fun v => !v.halted).countP p :=
  Nat.le_trans (countP_keepBest_le p _) <| Nat.le_trans (countP_mergeAll_le p _)
    List.filter_sublist.countP_le

theorem length_condense_le (vs : List Version) (fs : List Finished) :
    (condense vs fs).length ≤ maxVersions := by
  unfold condense
  rw [length_keepBest]
  exact Nat.min_le_left _ _

theorem exists_cheapest {vs : List Version} (h : vs ≠ []) :
    ∃ v ∈ vs, ∀ w ∈ vs, v.errorCost ≤ w.errorCost := by
  obtain ⟨v, hv, hfirst⟩ := @exists_first Version (fun v w => v.errorCost < w.errorCost)
    (fun v => by simp) (fun u v w => by simpa using Nat.lt_trans) vs h
  exact ⟨v, hv, fun w hw => by simpa using hfirst w hw⟩

/-- Without an outcome, some live hypothesis is kept. -/
theorem condense_ne_nil (h : ∃ v ∈ vs, v.halted = false) : condense vs [] ≠ [] := by
  have hlive : (vs.filter fun v => !v.halted) ≠ [] := by
    obtain ⟨v, hv, hh⟩ := h
    exact List.ne_nil_of_mem (List.mem_filter.mpr ⟨hv, by simp [hh]⟩)
  obtain ⟨v, hv, hmin⟩ := exists_cheapest hlive
  unfold condense
  simp only
  generalize vs.filter (fun v => !v.halted) = live at hv hmin
  have hkept : v ∈ live.filter (affordable live []) := by
    refine List.mem_filter.mpr ⟨hv, ?_⟩
    simp only [affordable, List.all_nil, Bool.and_true, List.all_eq_true, decide_eq_true_eq]
    exact fun w hw => Nat.le_trans (hmin w hw) (Nat.le_add_right _ _)
  have hmerged : mergeAll (live.filter (affordable live [])) ≠ [] := by
    cases hl : live.filter (affordable live []) with
    | nil => simp [hl] at hkept
    | cons u us => simp [mergeAll]
  intro hnil
  have hlength := length_keepBest (mergeAll (live.filter (affordable live [])))
  rw [hnil, List.length_nil] at hlength
  have := List.length_pos_iff.mpr hmerged
  simp only [maxVersions] at hlength
  omega

/-! ## Images -/

/-- A change of hypotheses that condensing does not see. -/
structure Unseen (f : Version → Version) : Prop where
  canMerge : ∀ v w, (f v).canMerge (f w) = v.canMerge w
  isBetter : ∀ v w, (f v).isBetter (f w) = v.isBetter w
  errorCost : ∀ v, (f v).errorCost = v.errorCost
  halted : ∀ v, (f v).halted = v.halted

namespace Unseen

variable {f : Version → Version}

theorem absorb_map (hf : Unseen f) (v : Version) (ws : List Version) :
    absorb (f v) (ws.map f) = (f (absorb v ws).1, (absorb v ws).2.map f) := by
  induction ws generalizing v with
  | nil => rfl
  | cons w ws ih =>
    have hchoice : (if (f w).isBetter (f v) then f w else f v) = f (if w.isBetter v then w else v) := by
      rw [hf.isBetter]
      split <;> rfl
    rw [List.map_cons, absorb, absorb, hf.canMerge]
    split
    · rw [hchoice]
      exact ih _
    · rw [ih v]
      rfl

theorem mergeAll_map (hf : Unseen f) (vs : List Version) :
    mergeAll (vs.map f) = (mergeAll vs).map f := by
  induction vs using mergeAll.induct with
  | case1 => simp [mergeAll]
  | case2 v vs ih => rw [List.map_cons, mergeAll, mergeAll, hf.absorb_map, ih, List.map_cons]

theorem rank_map (hf : Unseen f) (vs : List Version) (v : Version) (i : Nat) :
    rank (vs.map f) (f v) i = rank vs v i := by
  unfold rank
  rw [List.zipIdx_map, List.countP_map]
  simp only [Function.comp_def, Prod.map, hf.isBetter, id]

theorem keepBest_map (hf : Unseen f) (vs : List Version) :
    keepBest (vs.map f) = (keepBest vs).map f := by
  unfold keepBest
  rw [List.zipIdx_map, List.filter_map, List.map_map, List.map_map]
  simp only [Function.comp_def, Prod.map, hf.rank_map, id]

/-- Of images the images of those stay that stay. -/
theorem condense_map (hf : Unseen f) {g : Finished → Finished}
    (hg : ∀ x, (g x).errorCost = x.errorCost) (vs : List Version) (fs : List Finished) :
    condense (vs.map f) (fs.map g) = (condense vs fs).map f := by
  have haffordable (live : List Version) (v : Version) :
      affordable (live.map f) (fs.map g) (f v) = affordable live fs v := by
    unfold affordable
    rw [List.all_map, List.all_map]
    simp only [Function.comp_def, hf.errorCost, hg]
  unfold condense
  simp only [List.filter_map, Function.comp_def, hf.halted, haffordable, hf.mergeAll_map,
    hf.keepBest_map]

end Unseen

end Glr.Parse
