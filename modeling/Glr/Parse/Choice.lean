/-!
# Glr.Parse.Choice

The first of the best elements of a list.
-/

namespace Glr.Parse

variable {α : Type} {better : α → α → Bool}

/-- The best element so far, or one more if that is better. -/
def prefer (better : α → α → Bool) (best : Option α) (x : α) : Option α :=
  match best with
  | none => some x
  | some b => if better x b then some x else some b

/-- The first element that no other one is better than. -/
def firstBest? (better : α → α → Bool) (xs : List α) : Option α := xs.foldl (prefer better) none

/-! ## What is chosen -/

/-- From some element on, the choice is that element or one of the list. -/
theorem exists_foldl_prefer (better : α → α → Bool) (a : α) (xs : List α) :
    ∃ b ∈ a :: xs, xs.foldl (prefer better) (some a) = some b := by
  induction xs generalizing a with
  | nil => exact ⟨a, by simp, rfl⟩
  | cons x xs ih =>
    rw [List.foldl_cons, prefer]
    by_cases h : better x a
    · obtain ⟨b, hb, he⟩ := ih x
      exact ⟨b, List.mem_cons_of_mem _ hb, by simpa [h] using he⟩
    · obtain ⟨b, hb, he⟩ := ih a
      refine ⟨b, ?_, by simpa [h] using he⟩
      rcases List.mem_cons.mp hb with rfl | hb <;> simp [*]

theorem firstBest?_eq_none_iff {xs : List α} : firstBest? better xs = none ↔ xs = [] := by
  cases xs with
  | nil => simp [firstBest?]
  | cons a xs =>
    obtain ⟨b, _, he⟩ := exists_foldl_prefer better a xs
    simp [firstBest?, prefer, he]

theorem mem_of_firstBest? {xs : List α} {x : α} (h : firstBest? better xs = some x) : x ∈ xs := by
  cases xs with
  | nil => simp [firstBest?] at h
  | cons a xs =>
    obtain ⟨b, hb, he⟩ := exists_foldl_prefer better a xs
    simp only [firstBest?, List.foldl_cons, prefer, he, Option.some.injEq] at h
    exact h ▸ hb

/-- The choice improves from element to element. -/
theorem eq_or_better_of_foldl_prefer
    (trans : ∀ x y z, better x y = true → better y z = true → better x z = true) {a b : α}
    {xs : List α} (h : xs.foldl (prefer better) (some a) = some b) :
    b = a ∨ better b a = true := by
  induction xs generalizing a with
  | nil => exact .inl (Option.some.inj h).symm
  | cons y xs ih =>
    rw [List.foldl_cons, prefer] at h
    by_cases hy : better y a
    · rcases ih (by simpa [hy] using h) with rfl | hb
      · exact .inr hy
      · exact .inr (trans _ _ _ hb hy)
    · exact ih (by simpa [hy] using h)

theorem not_better_of_foldl_prefer (irrefl : ∀ x, better x x = false)
    (trans : ∀ x y z, better x y = true → better y z = true → better x z = true) {a b : α}
    {xs : List α} (h : xs.foldl (prefer better) (some a) = some b) :
    ∀ x ∈ a :: xs, better x b ≠ true := by
  induction xs generalizing a with
  | nil =>
    obtain rfl := Option.some.inj h
    simp [irrefl]
  | cons y xs ih =>
    have hba := eq_or_better_of_foldl_prefer trans h
    rw [List.foldl_cons, prefer] at h
    intro x hx hxb
    by_cases hy : better y a
    · have hall := ih (by simpa [hy] using h)
      rcases List.mem_cons.mp hx with rfl | hx
      · exact hall y (by simp) (trans _ _ _ hy hxb)
      · exact hall x hx hxb
    · have hall := ih (by simpa [hy] using h)
      rcases List.mem_cons.mp hx with rfl | hx
      · exact hall x (by simp) hxb
      · rcases List.mem_cons.mp hx with rfl | hx
        · rcases hba with rfl | hba
          · exact hy hxb
          · exact hy (trans _ _ _ hxb hba)
        · exact hall x (by simp [hx]) hxb

/-- Where `better` is an order, no element is better than the choice. -/
theorem not_better_of_firstBest? (irrefl : ∀ x, better x x = false)
    (trans : ∀ x y z, better x y = true → better y z = true → better x z = true) {b : α}
    {xs : List α} (h : firstBest? better xs = some b) : ∀ x ∈ xs, better x b ≠ true := by
  cases xs with
  | nil => simp
  | cons a xs => exact not_better_of_foldl_prefer irrefl trans h

/-- Choosing among images is choosing by the images. -/
theorem firstBest?_map {β : Type} (f : β → α) (xs : List β) :
    firstBest? better (xs.map f) = (firstBest? (fun a b => better (f a) (f b)) xs).map f := by
  have hprefer (best : Option β) (x : β) : prefer better (best.map f) (f x) =
      (prefer (fun a b => better (f a) (f b)) best x).map f := by
    cases best with
    | none => rfl
    | some b =>
      simp only [prefer, Option.map_some]
      split <;> rfl
  have hfold (best : Option β) : (xs.map f).foldl (prefer better) (best.map f) =
      (xs.foldl (prefer fun a b => better (f a) (f b)) best).map f := by
    induction xs generalizing best with
    | nil => rfl
    | cons x xs ih => rw [List.map_cons, List.foldl_cons, List.foldl_cons, hprefer, ih]
  exact hfold none

end Glr.Parse
