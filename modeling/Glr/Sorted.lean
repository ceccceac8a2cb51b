/-!
# Glr.Sorted

Sorting lists by insertion, and membership in sorted arrays of numbers by
halving.  The lists here are short and mostly in order already.
-/

namespace Glr.SortedList

variable {α : Type} {le : α → α → Bool} {x y : α} {xs : List α}

/-- Puts an element before the first one that may come after it. -/
def insert (le : α → α → Bool) (x : α) : List α → List α
  | [] => [x]
  | y :: ys => if le x y then x :: y :: ys else y :: insert le x ys

/-- The elements of a list in increasing order; equal ones keep theirs. -/
def sort (le : α → α → Bool) (xs : List α) : List α := xs.foldr (insert le) []

theorem insert_perm : (insert le x xs).Perm (x :: xs) := by
  induction xs with
  | nil => exact .refl _
  | cons y ys ih =>
    unfold insert
    split
    · exact .refl _
    · exact (ih.cons y).trans (.swap x y ys)

theorem sort_perm : (sort le xs).Perm xs := by
  induction xs with
  | nil => exact .refl _
  | cons x xs ih => exact insert_perm.trans (ih.cons x)

@[simp] theorem mem_sort : x ∈ sort le xs ↔ x ∈ xs := sort_perm.mem_iff

theorem pairwise_insert (htrans : ∀ a b c, le a b = true → le b c = true → le a c = true)
    (htotal : ∀ a b, le a b = true ∨ le b a = true) (h : xs.Pairwise (le · ·)) :
    (insert le x xs).Pairwise (le · ·) := by
  induction xs with
  | nil => exact List.pairwise_singleton _ _
  | cons y ys ih =>
    obtain ⟨hy, hys⟩ := List.pairwise_cons.mp h
    unfold insert
    split
    · rename_i hxy
      refine List.pairwise_cons.mpr ⟨fun z hz => ?_, h⟩
      rcases List.mem_cons.mp hz with rfl | hz
      · exact hxy
      · exact htrans _ _ _ hxy (hy z hz)
    · rename_i hxy
      refine List.pairwise_cons.mpr ⟨fun z hz => ?_, ih hys⟩
      rcases List.mem_cons.mp (insert_perm.mem_iff.mp hz) with rfl | hz
      · exact (htotal z y).resolve_left hxy
      · exact hy z hz

theorem pairwise_sort (htrans : ∀ a b c, le a b = true → le b c = true → le a c = true)
    (htotal : ∀ a b, le a b = true ∨ le b a = true) : (sort le xs).Pairwise (le · ·) := by
  induction xs with
  | nil => exact .nil
  | cons x xs ih => exact pairwise_insert htrans htotal ih

end Glr.SortedList

namespace Glr.SortedArray

/-- Narrows `size` places from `base` on down to the one that `x` can stand at. -/
def narrow (xs : Array Nat) (x : Nat) : Nat → Nat → Nat → Nat
  | 0, base, _ => base
  | fuel + 1, base, size =>
    if size ≤ 1 then base
    else
      let middle := base + size / 2
      narrow xs x fuel (if xs[middle]?.any (· > x) then base else middle) (size - size / 2)

/-- Whether `x` is in the sorted array `xs`. -/
def contains (xs : Array Nat) (x : Nat) : Bool := xs[narrow xs x xs.size 0 xs.size]? == some x

theorem mem_of_contains {xs : Array Nat} {x : Nat} (h : contains xs x = true) : x ∈ xs := by
  simp only [contains, beq_iff_eq] at h
  exact Array.mem_of_getElem? h

theorem getElem_le_getElem {xs : Array Nat} (hs : xs.toList.Pairwise (· ≤ ·)) {i j : Nat}
    (hij : i ≤ j) (hj : j < xs.size) : xs[i] ≤ xs[j] := by
  rcases Nat.lt_or_eq_of_le hij with hij | rfl
  · have := List.pairwise_iff_getElem.mp hs i j (by simp; omega) (by simpa using hj) hij
    simpa using this
  · exact Nat.le_refl _

/-- Each halving keeps a place of an element between its bounds. -/
theorem getElem?_narrow {xs : Array Nat} (hs : xs.toList.Pairwise (· ≤ ·)) {x i : Nat}
    (hx : xs[i]? = some x) (fuel base size : Nat) (hf : size ≤ fuel + 1) (hb : base ≤ i)
    (hi : i < base + size) (hsize : base + size ≤ xs.size) :
    xs[narrow xs x fuel base size]? = some x := by
  induction fuel generalizing i base size with
  | zero =>
    have : i = base := by omega
    rwa [narrow, ← this]
  | succ fuel ih =>
    unfold narrow
    split
    · have : i = base := by omega
      rwa [← this]
    · have hm : base + size / 2 < xs.size := by omega
      have hil : i < xs.size := by omega
      have hxi : xs[i] = x := by simpa [hil] using hx
      simp only [Array.getElem?_eq_getElem hm, Option.any_some, decide_eq_true_eq]
      split
      · rename_i hgt
        refine ih hx base (size - size / 2) (by omega) hb ?_ (by omega)
        rcases Nat.lt_or_ge i (base + size / 2) with h | h
        · omega
        · have := getElem_le_getElem hs h hil
          omega
      · rename_i hle
        rcases Nat.lt_or_ge i (base + size / 2) with h | h
        · -- then the element in the middle is another place
          have := getElem_le_getElem hs (Nat.le_of_lt h) hm
          have hmx : xs[base + size / 2]? = some x := by
            rw [Array.getElem?_eq_getElem hm]
            exact congrArg some (by omega)
          exact ih hmx (base + size / 2) (size - size / 2) (by omega) (by omega) (by omega) (by omega)
        · exact ih hx (base + size / 2) (size - size / 2) (by omega) h (by omega) (by omega)

theorem contains_iff {xs : Array Nat} (hs : xs.toList.Pairwise (· ≤ ·)) {x : Nat} :
    contains xs x = true ↔ x ∈ xs := by
  refine ⟨mem_of_contains, fun h => ?_⟩
  obtain ⟨i, hi⟩ := Array.getElem?_of_mem h
  have hlt : i < xs.size := (Array.getElem?_eq_some_iff.mp hi).1
  rw [contains, getElem?_narrow hs hi xs.size 0 xs.size (by omega) (by omega) (by omega) (by omega)]
  simp

end Glr.SortedArray
