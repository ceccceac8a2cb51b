import Glr.Parse.Choice
import Glr.Parse.Version

/-!
# Glr.Parse.Condense

Keeps the number of hypotheses small.  Those that cost too much go, of those
that would go on in the same way only the best one stays, and of the rest only
the `maxVersions` best ones.
-/

namespace Glr.Parse

/-- How many hypotheses live at most. -/
def maxVersions : Nat := 6

/-- How much more than the cheapest one a hypothesis may cost. -/
def maxCostDifference : Nat := 1600

/-- A hypothesis that came to its end. -/
structure Finished where
  root : Subtree
  errorCost : Nat
  dynamicPrecedence : Int
  deriving Inhabited

/-- Whether one is the better outcome: lower cost, then higher precedence. -/
def Finished.isBetter (a b : Finished) : Bool :=
  a.errorCost < b.errorCost
    || a.errorCost == b.errorCost && a.dynamicPrecedence > b.dynamicPrecedence

/-- Whether a hypothesis costs little enough: next to the cheapest one alive, and
no more than any that came to its end. -/
def affordable (versions : List Version) (finished : List Finished) (v : Version) : Bool :=
  (versions.all fun w => v.errorCost ≤ w.errorCost + maxCostDifference)
    && finished.all fun f => v.errorCost ≤ f.errorCost

/-- Merges into a hypothesis those that go on in the same way, keeping the best
one in its place; answers the others too. -/
def absorb (v : Version) : List Version → Version × List Version
  | [] => (v, [])
  | w :: ws =>
    if v.canMerge w then absorb (if w.isBetter v then w else v) ws
    else
      let (v', rest) := absorb v ws
      (v', w :: rest)

theorem length_absorb_le (v : Version) (ws : List Version) :
    (absorb v ws).2.length ≤ ws.length := by
  induction ws generalizing v with
  | nil => simp [absorb]
  | cons w ws ih =>
    unfold absorb
    split
    · exact Nat.le_succ_of_le (ih _)
    · simpa using ih v

theorem mem_absorb {v x : Version} {ws : List Version}
    (h : x = (absorb v ws).1 ∨ x ∈ (absorb v ws).2) : x = v ∨ x ∈ ws := by
  induction ws generalizing v with
  | nil => simpa [absorb] using h
  | cons w ws ih =>
    unfold absorb at h
    split at h
    · rcases ih h with h | h
      · split at h
        · exact .inr (by simp [h])
        · exact .inl h
      · exact .inr (List.mem_cons_of_mem _ h)
    · rcases h with h | h
      · rcases ih (.inl h) with h | h
        · exact .inl h
        · exact .inr (List.mem_cons_of_mem _ h)
      · rcases List.mem_cons.mp h with rfl | h
        · exact .inr (by simp)
        · rcases ih (.inr h) with h | h
          · exact .inl h
          · exact .inr (List.mem_cons_of_mem _ h)

/-- Merges all hypotheses that go on in the same way. -/
def mergeAll : List Version → List Version
  | [] => []
  | v :: vs => (absorb v vs).1 :: mergeAll (absorb v vs).2
termination_by vs => vs.length
decreasing_by
  have := length_absorb_le v vs
  simp only [List.length_cons]
  omega

theorem mem_of_mem_mergeAll {x : Version} {vs : List Version} (h : x ∈ mergeAll vs) : x ∈ vs := by
  induction vs using mergeAll.induct with
  | case1 => simp [mergeAll] at h
  | case2 v vs ih =>
    rw [mergeAll] at h
    rcases List.mem_cons.mp h with h | h
    · rcases mem_absorb (.inl h) with h | h <;> simp [h]
    · rcases mem_absorb (.inr (ih h)) with h | h <;> simp [h]

/-- How many hypotheses are better than the one at a place; of equal ones the
first is the best. -/
def rank (versions : List Version) (v : Version) (i : Nat) : Nat :=
  versions.zipIdx.countP fun (w, j) => w.isBetter v || !v.isBetter w && j < i

/-- The best hypotheses, in their order. -/
def keepBest (versions : List Version) : List Version :=
  (versions.zipIdx.filter fun (v, i) => rank versions v i < maxVersions).map Prod.fst

theorem mem_of_mem_keepBest {x : Version} {vs : List Version} (h : x ∈ keepBest vs) : x ∈ vs := by
  obtain ⟨p, hp, rfl⟩ := List.mem_map.mp h
  have := (List.mem_filter.mp hp).1
  exact List.fst_mem_of_mem_zipIdx this

/-- The hypotheses to go on with. -/
def condense (versions : List Version) (finished : List Finished) : List Version :=
  let live := versions.filter fun v => !v.halted
  keepBest (mergeAll (live.filter (affordable live finished)))

theorem mem_of_mem_condense {x : Version} {vs : List Version} {fs : List Finished}
    (h : x ∈ condense vs fs) : x ∈ vs ∧ x.halted = false := by
  have h := mem_of_mem_mergeAll (mem_of_mem_keepBest h)
  have := List.mem_filter.mp (List.mem_filter.mp h).1
  exact ⟨this.1, by simpa using this.2⟩

end Glr.Parse
