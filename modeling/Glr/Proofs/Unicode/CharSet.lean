import Glr.Unicode.CharSet
import Mathlib.Data.Nat.Basic

/-!
# Glr.Proofs.Unicode.CharSet

The elements of a set.  A set is ordered if its ranges are, and then the search finds what is
there,

```
s.contains c   ⟺   c ∈ s
```

Sets of ranges in any order, of elements and of other sets are ordered again.
-/

namespace Glr.Unicode.CharSet

instance : Membership Nat CharSet := ⟨fun s c => ∃ r ∈ s.ranges, r.1 ≤ c ∧ c ≤ r.2⟩

/-- The ranges of a set are in order, each of them with an element. -/
structure Ordered (s : CharSet) : Prop where
  proper : ∀ r ∈ s.ranges, r.1 ≤ r.2
  apart : s.ranges.toList.Pairwise fun r t => r.2 < t.1

variable {s : CharSet} {c d bound : Nat} {rs : List (Nat × Nat)}

theorem mem_iff : c ∈ s ↔ ∃ r ∈ s.ranges, r.1 ≤ c ∧ c ≤ r.2 := Iff.rfl

/-! ## Search -/

theorem Ordered.lt_of_lt (h : s.Ordered) {i j : Nat} {r t : Nat × Nat}
    (hr : s.ranges[i]? = some r) (ht : s.ranges[j]? = some t) (hij : i < j) : r.2 < t.1 := by
  rw [← Array.getElem?_toList] at hr ht
  obtain ⟨hi, rfl⟩ := List.getElem?_eq_some_iff.mp hr
  obtain ⟨hj, rfl⟩ := List.getElem?_eq_some_iff.mp ht
  exact List.pairwise_iff_getElem.mp h.apart i j hi hj hij

theorem search_eq_true_iff (h : s.Ordered) {fuel low high : Nat} (hfuel : high - low ≤ fuel)
    (hhigh : high ≤ s.ranges.size) :
    search s.ranges c fuel low high = true ↔
      ∃ i r, low ≤ i ∧ i < high ∧ s.ranges[i]? = some r ∧ r.1 ≤ c ∧ c ≤ r.2 := by
  induction fuel generalizing low high with
  | zero =>
    simp only [search, Bool.false_eq_true, false_iff]
    rintro ⟨i, r, hlow, hi, -⟩
    omega
  | succ fuel ih =>
    rw [search]
    by_cases hlt : low < high
    · rw [if_pos hlt]
      obtain ⟨mid, hmid⟩ : ∃ mid, mid = (low + high) / 2 := ⟨_, rfl⟩
      rw [← hmid]
      obtain ⟨r, hr⟩ : ∃ r, s.ranges[mid]? = some r :=
        ⟨_, Array.getElem?_eq_getElem (show mid < s.ranges.size by omega)⟩
      have hproper : r.1 ≤ r.2 := h.proper r (Array.mem_of_getElem? hr)
      simp only [hr]
      split
      · -- what is left of the middle
        rename_i hleft
        rw [ih (by omega) (by omega)]
        refine exists_congr fun i => exists_congr fun t => and_congr_right fun _ => ?_
        constructor
        · rintro ⟨hi, ht⟩
          exact ⟨by omega, ht⟩
        · rintro ⟨hi, ht, hfirst, hlast⟩
          refine ⟨?_, ht, hfirst, hlast⟩
          rcases Nat.lt_trichotomy i mid with hlt | rfl | hgt
          · exact hlt
          · obtain rfl := Option.some.inj (hr.symm.trans ht)
            omega
          · have := h.lt_of_lt hr ht hgt
            omega
      · split
        · -- what is right of the middle
          rename_i hright
          rw [ih (by omega) (by omega)]
          refine exists_congr fun i => exists_congr fun t => ?_
          constructor
          · rintro ⟨hi, ht⟩
            exact ⟨by omega, ht⟩
          · rintro ⟨_, hi, ht, hfirst, hlast⟩
            refine ⟨?_, hi, ht, hfirst, hlast⟩
            rcases Nat.lt_trichotomy mid i with hlt | rfl | hgt
            · exact hlt
            · obtain rfl := Option.some.inj (hr.symm.trans ht)
              omega
            · have := h.lt_of_lt ht hr hgt
              have := h.proper t (Array.mem_of_getElem? ht)
              omega
        · simp only [true_iff]
          exact ⟨mid, r, by omega, by omega, hr, by omega, by omega⟩
    · rw [if_neg hlt]
      simp only [Bool.false_eq_true, false_iff]
      rintro ⟨i, r, hlow, hi, -⟩
      omega

/-- The search finds the elements. -/
theorem Ordered.contains_iff (h : s.Ordered) : s.contains c = true ↔ c ∈ s := by
  rw [contains, search_eq_true_iff h (by omega) le_rfl, mem_iff]
  constructor
  · rintro ⟨i, r, -, -, hr, hc⟩
    exact ⟨r, Array.mem_of_getElem? hr, hc⟩
  · rintro ⟨r, hr, hc⟩
    obtain ⟨i, hi⟩ := Array.getElem?_of_mem hr
    exact ⟨i, r, Nat.zero_le i, (Array.getElem?_eq_some_iff.mp hi).1, hi, hc⟩

/-! ## Sets of ranges -/

/-- A range that is joined from others starts where one of them does. -/
theorem exists_of_mem_joinRanges {t : Nat × Nat} (h : t ∈ joinRanges rs) : ∃ r ∈ rs, r.1 = t.1 := by
  induction rs using joinRanges.induct with
  | case1 => simp [joinRanges] at h
  | case2 r =>
    rw [joinRanges, List.mem_singleton] at h
    exact ⟨r, List.mem_singleton.mpr rfl, by rw [h]⟩
  | case3 r s rest hle ih =>
    rw [joinRanges, if_pos hle] at h
    obtain ⟨p, hp, hfirst⟩ := ih h
    rcases List.mem_cons.mp hp with rfl | hp
    · exact ⟨r, List.mem_cons_self, hfirst⟩
    · exact ⟨p, List.mem_cons_of_mem _ (List.mem_cons_of_mem _ hp), hfirst⟩
  | case4 r s rest hle ih =>
    rw [joinRanges, if_neg hle] at h
    rcases List.mem_cons.mp h with rfl | h
    · exact ⟨t, List.mem_cons_self, rfl⟩
    · obtain ⟨p, hp, hfirst⟩ := ih h
      exact ⟨p, List.mem_cons_of_mem _ hp, hfirst⟩

theorem joinRanges_apart (hs : rs.Pairwise fun r t => r.1 ≤ t.1) (hp : ∀ r ∈ rs, r.1 ≤ r.2) :
    (∀ r ∈ joinRanges rs, r.1 ≤ r.2) ∧ (joinRanges rs).Pairwise fun r t => r.2 < t.1 := by
  induction rs using joinRanges.induct with
  | case1 => simp [joinRanges]
  | case2 r => simpa [joinRanges] using hp
  | case3 r s rest hle ih =>
    obtain ⟨hr, hrest⟩ := List.pairwise_cons.mp hs
    rw [joinRanges, if_pos hle]
    refine ih (List.pairwise_cons.mpr ⟨fun t ht => hr t (by simp [ht]),
      (List.pairwise_cons.mp hrest).2⟩) fun t ht => ?_
    rcases List.mem_cons.mp ht with rfl | ht
    · exact le_trans (hp r (by simp)) (le_max_left _ _)
    · exact hp t (by simp [ht])
  | case4 r s rest hle ih =>
    obtain ⟨-, hrest⟩ := List.pairwise_cons.mp hs
    obtain ⟨hproper, hapart⟩ := ih hrest fun t ht => hp t (List.mem_cons_of_mem _ ht)
    rw [joinRanges, if_neg hle]
    refine ⟨fun t ht => ?_, List.pairwise_cons.mpr ⟨fun t ht => ?_, hapart⟩⟩
    · rcases List.mem_cons.mp ht with rfl | ht
      · exact hp t (by simp)
      · exact hproper t ht
    · -- what is joined behind the gap starts behind it
      obtain ⟨p, hp, hfirst⟩ := exists_of_mem_joinRanges ht
      have hsp : s.1 ≤ p.1 := by
        rcases List.mem_cons.mp hp with rfl | hp
        · exact le_rfl
        · exact (List.pairwise_cons.mp hrest).1 p hp
      omega

theorem pairwise_sorted (rs : List (Nat × Nat)) :
    (rs.mergeSort fun r s => r.1 ≤ s.1).Pairwise fun r s => r.1 ≤ s.1 := by
  have h : (rs.mergeSort fun r s => r.1 ≤ s.1).Pairwise fun r s => decide (r.1 ≤ s.1) = true :=
    List.pairwise_mergeSort
      (fun r s t h h' => by simp only [decide_eq_true_eq] at h h' ⊢; omega)
      (fun r s => by simp only [Bool.or_eq_true, decide_eq_true_eq]; omega) rs
  simpa only [decide_eq_true_eq] using h

theorem ordered_ofRanges (h : ∀ r ∈ rs, r.1 ≤ r.2) : (ofRanges rs).Ordered := by
  obtain ⟨hproper, hapart⟩ := joinRanges_apart (pairwise_sorted rs) fun r hr =>
    h r (List.mem_mergeSort.mp hr)
  exact ⟨by simpa [ofRanges] using hproper, by simpa [ofRanges] using hapart⟩

@[simp]
theorem mem_ofRanges : c ∈ ofRanges rs ↔ ∃ r ∈ rs, r.1 ≤ c ∧ c ≤ r.2 := by
  have h := mem_joinRanges (c := c) (pairwise_sorted rs)
  simpa [mem_iff, ofRanges] using h

theorem ordered_empty : empty.Ordered := ⟨by simp [empty], by simp [empty]⟩

@[simp]
theorem notMem_empty : c ∉ empty := by simp [mem_iff, empty]

theorem ordered_singleton (c : Nat) : (singleton c).Ordered :=
  ⟨by simp [singleton], by simp [singleton]⟩

@[simp]
theorem mem_singleton : d ∈ singleton c ↔ d = c := by
  simp [mem_iff, singleton, Nat.le_antisymm_iff, and_comm]

theorem ordered_ofElements (cs : List Nat) : (ofElements cs).Ordered :=
  ordered_ofRanges fun r hr => by
    obtain ⟨c, -, rfl⟩ := List.mem_map.mp hr
    exact le_rfl

@[simp]
theorem mem_ofElements {cs : List Nat} : c ∈ ofElements cs ↔ c ∈ cs := by
  simp [ofElements, ← Nat.le_antisymm_iff]

theorem ordered_unions {ss : List CharSet} (h : ∀ s ∈ ss, s.Ordered) : (unions ss).Ordered :=
  ordered_ofRanges fun r hr => by
    obtain ⟨s, hs, hr⟩ := List.mem_flatMap.mp hr
    exact (h s hs).proper r (by simpa using hr)

@[simp]
theorem mem_unions {ss : List CharSet} : c ∈ unions ss ↔ ∃ s ∈ ss, c ∈ s := by
  rw [unions, mem_ofRanges]
  simp only [List.mem_flatMap, mem_iff, Array.mem_toList_iff]
  constructor
  · rintro ⟨r, ⟨s, hs, hr⟩, hc⟩
    exact ⟨s, hs, r, hr, hc⟩
  · rintro ⟨s, hs, r, hr, hc⟩
    exact ⟨r, ⟨s, hs, hr⟩, hc⟩

/-! ## Tests -/

theorem notMem_of_isEmpty (h : s.isEmpty = true) : c ∉ s := by
  rw [isEmpty, Array.isEmpty_iff] at h
  simp [mem_iff, h]

theorem mem_of_single? (h : s.single? = some c) : d ∈ s ↔ d = c := by
  unfold single? at h
  split at h
  · rename_i r hr
    split at h
    · rename_i heq
      obtain rfl := Option.some.inj h
      have hmem (t : Nat × Nat) : t ∈ s.ranges ↔ t = r := by
        rw [← Array.mem_toList_iff, hr, List.mem_singleton]
      simp only [mem_iff, hmem, exists_eq_left]
      omega
    · contradiction
  · contradiction

theorem lt_of_below (h : s.below bound = true) (hc : c ∈ s) : c < bound := by
  obtain ⟨r, hr, -, hle⟩ := hc
  rw [below, Array.all_eq_true_iff_forall_mem] at h
  exact lt_of_le_of_lt hle (by simpa using h r hr)

end Glr.Unicode.CharSet
