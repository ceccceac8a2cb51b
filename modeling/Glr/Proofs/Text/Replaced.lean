/-!
# Glr.Proofs.Text.Replaced

A string with a character replaced, as a list of characters:

```
(s.replace c new).toList  =  s.toList.flatMap (replacement c new)
```

A search cuts the string into matches and what lies between them.  `Splits` says where a position
cuts it, so a part that the search passes over is a part that the character is not in, and both
kinds of parts come out as the right hand side has them.
-/

namespace Glr.Text

open String String.Slice.Pattern String.Slice.Pattern.Model

variable {s : Slice} {p q : s.Pos} {before middle after new : String} {c : Char}

/-- What stands for a character when one is replaced. -/
def replacement (c : Char) (new : String) (d : Char) : List Char :=
  if d = c then new.toList else [d]

theorem flatMap_replacement_of_not_mem {cs : List Char} (h : c ∉ cs) :
    cs.flatMap (replacement c new) = cs := by
  induction cs with
  | nil => rfl
  | cons d cs ih =>
    simp only [List.mem_cons, not_or] at h
    simp [replacement, Ne.symm h.1, ih h.2]

/-- What a search has passed over does not have the character. -/
theorem not_mem_of_not_matchesAt (hp : p.Splits before (middle ++ after))
    (hq : q.Splits (before ++ middle) after)
    (h : ∀ r, p ≤ r → r < q → ¬ MatchesAt (singleton c) r) : c ∉ middle.toList := by
  intro hc
  -- The search would have matched at the position in front of the character.
  obtain ⟨left, right, hmiddle⟩ := List.append_of_mem hc
  obtain rfl : middle = ofList left ++ (singleton c ++ ofList right) := by
    rw [← toList_inj, hmiddle]
    simp
  have hcopy : s.copy = (before ++ ofList left) ++ (singleton c ++ (ofList right ++ after)) := by
    rw [hp.eq_append]
    simp only [append_assoc]
  have hr := Slice.Pos.splits_ofEqAppend hcopy
  have hle := (hp.le_iff_exists_eq_append hr).mpr ⟨ofList left, rfl, by simp only [append_assoc]⟩
  have hlt := (hr.lt_iff_exists_eq_append hq).mpr ⟨singleton c ++ ofList right, by simp,
    by simp only [append_assoc], by simp only [append_assoc]⟩
  exact h _ hle hlt (ForwardStringSearcher.matchesAt_iff_splits.mpr ⟨_, _, hr⟩)

theorem toList_foldl_replace (new : String) {steps : List (SearchStep s)}
    (h : IsValidSearchFrom (singleton c) p steps) (hp : p.Splits before after) (sofar : String) :
    (steps.foldl (fun
      | sofar, .matched .. => sofar ++ ToSlice.toSlice new
      | sofar, .rejected start stop => sofar ++ s.slice! start stop) sofar).toList =
      sofar.toList ++ after.toList.flatMap (replacement c new) := by
  induction h generalizing before after sofar with
  | endPos =>
    obtain ⟨-, rfl⟩ := Slice.splits_endPos_iff.mp hp
    simp
  | matched hmatch _ ih =>
    obtain ⟨_, after, hstart, hq⟩ := ForwardStringSearcher.isLongestMatchAt_iff_splits.mp hmatch
    obtain rfl := hp.eq_right hstart
    have hnew : (ToSlice.toSlice new).copy = new := copy_toSlice
    rw [List.foldl_cons, ih hq]
    simp [replacement, hnew]
  | @mismatched _ p q hlt hnone _ ih =>
    have hq := q.splits
    obtain ⟨middle, -, hbefore, rfl⟩ := (hp.lt_iff_exists_eq_append hq).mp hlt
    rw [hbefore] at hq
    obtain ⟨_, hslice⟩ := Slice.copy_slice_eq_iff_splits.mpr ⟨_, _, hp, hq⟩
    rw [Slice.slice_eq_slice!] at hslice
    rw [List.foldl_cons, ih hq]
    simp [hslice, flatMap_replacement_of_not_mem (not_mem_of_not_matchesAt hp hq hnone)]

/-- Replacing a character puts something else for it and leaves the others. -/
theorem toList_replace (s : String) (c : Char) (new : String) :
    (s.replace (singleton c) new).toList = s.toList.flatMap (replacement c new) := by
  have hlawful : LawfulToForwardSearcherModel (singleton c) :=
    ForwardStringSearcher.lawfulToForwardSearcherModel (by simp)
  have hsearch := hlawful.isValidSearchFrom_toList s.toSlice
  have hreplaced := toList_foldl_replace new hsearch s.toSlice.splits_startPos ""
  rw [Std.Iter.foldl_toList, copy_toSlice] at hreplaced
  exact hreplaced

end Glr.Text
