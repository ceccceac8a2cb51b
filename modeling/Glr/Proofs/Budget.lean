import Glr.Proofs.Reparse

/-!
# Glr.Proofs.Budget

Parses with a budget of steps.  A parse without limits takes some number of steps until no
hypothesis is alive; with a budget it goes the same way for as long as the budget lasts.

```
budget  >  steps : the tree of the parse without limits
budget  ≤  steps : an incomplete tree
```

The budget is looked at before the hypotheses are.  So a parse that has just taken its last
step is stopped all the same if the budget is used up by then, and as no hypothesis is alive any
more its tree is an error around nothing.
-/

namespace Glr

open Parse Subtree Run

namespace Parse

variable {l : Language} {text : Bytes} {r : Run} {v : Version} {i budget fuel : Nat}

/-! ## Counting steps -/

theorem Run.operations_recover (r : Run) (i : Nat) (v : Version) (t : Subtree) :
    (r.recover l i v t).stats.operations = r.stats.operations := by
  unfold Run.recover
  simp only
  split <;> rfl

theorem Run.operations_apply (r : Run) (i : Nat) (action : ParseAction) (t : Subtree) :
    (r.apply l i action t).stats.operations = r.stats.operations := by
  unfold Run.apply
  split
  · rfl
  · cases action with
    | shift next => rfl
    | reduce p =>
      simp only
      split
      · rfl
      · split
        · exact Run.operations_recover _ _ _ _
        · split
          · rfl
          · exact Run.operations_recover _ _ _ _
    | accept => rfl

theorem Run.operations_act (r : Run) (i : Nat) (v : Version) (t : Subtree)
    (actions : List ParseAction) :
    (r.act l i v t actions).stats.operations = r.stats.operations := by
  cases actions with
  | nil =>
    unfold Run.act
    simp only
    split
    · rfl
    · split
      · rfl
      · exact Run.operations_recover _ _ _ _
  | cons first rest =>
    have forks (rest : List ParseAction) (r : Run) :
        (rest.foldl (fun r action => r.fork l v t action) r).stats.operations
          = r.stats.operations := by
      induction rest generalizing r with
      | nil => rfl
      | cons a rest ih =>
        rw [List.foldl_cons, ih, Run.fork]
        exact Run.operations_apply _ _ _ _
    exact (Run.operations_apply _ _ _ _).trans (forks rest r)

theorem Run.operations_fetch (l : Language) (text : Bytes) (r : Run) (i : Nat) (v : Version) :
    (r.fetch l text i v).2.2.stats.operations = r.stats.operations := by
  unfold Run.fetch
  split
  · rfl
  · simp only
    split <;> rfl

/-- A step counts no steps; the turn that it belongs to does. -/
theorem Run.operations_step (l : Language) (text : Bytes) (r : Run) (i : Nat) :
    (r.step l text i).stats.operations = r.stats.operations := by
  unfold Run.step
  split
  · rfl
  · rename_i v _
    have hfetch := Run.operations_fetch l text r i v
    generalize r.fetch l text i v = fetched at hfetch
    obtain ⟨t, w, r'⟩ := fetched
    simp only at hfetch ⊢
    split
    · rw [Run.operations_act, hfetch]
    · split
      · split
        · exact hfetch
        · rw [Run.operations_recover, hfetch]
      · rw [Run.operations_act]
        exact hfetch

/-- A turn is one step. -/
theorem Run.operations_turn (l : Language) (text : Bytes) (hn : r.next? = some i) :
    (r.turn l text).stats.operations = r.stats.operations + 1 := by
  unfold Run.turn
  simp only [hn]
  rw [Run.operations_step]

theorem Run.operations_le_loop (l : Language) (text : Bytes) (r : Run) (limits : Limits)
    (fuel : Nat) :
    r.stats.operations ≤ (r.loop l text limits fuel).2.stats.operations := by
  induction fuel generalizing r with
  | zero => exact Nat.le_refl _
  | succ fuel ih =>
    rw [Run.loop]
    split
    · exact Nat.le_refl _
    · split
      · exact Nat.le_refl _
      · refine Nat.le_trans ?_ (ih _)
        simp only [Run.operations_step]
        exact Nat.le_succ _

/-- A parse that has come to its end has taken as many steps as it takes turns until no
hypothesis is left. -/
theorem Run.next?_turns_eq_none_iff (h : (r.loop l text {} fuel).1.complete = true) (n : Nat) :
    ((Run.turn l text)^[n] r).next? = none
      ↔ (r.loop l text {} fuel).2.stats.operations ≤ r.stats.operations + n := by
  induction fuel generalizing r n with
  | zero => contradiction
  | succ fuel ih =>
    cases hn : r.next? with
    | none =>
      have hloop : (r.loop l text {} (fuel + 1)).2.stats.operations = r.stats.operations := by
        rw [Run.loop, if_neg (by simp [Limits.stop]), hn]
        rfl
      rw [Run.turns_of_next? hn, hn, hloop]
      simp
    | some i =>
      rw [Run.loop_of_next? hn] at h ⊢
      have hturn := Run.operations_turn l text hn
      cases n with
      | zero =>
        have hle := Run.operations_le_loop l text (r.turn l text) {} fuel
        rw [Function.iterate_zero_apply, hn]
        simp only [reduceCtorEq, false_iff]
        omega
      | succ n =>
        rw [Function.iterate_succ_apply, ih h, hturn]
        omega

/-! ## Budgets -/

/-- A budget that is not used up changes nothing. -/
theorem Run.loop_of_lt_budget (h : (r.loop l text {} fuel).1.complete = true)
    (hlt : (r.loop l text {} fuel).2.stats.operations < budget) :
    (r.loop l text { maxOperations := some budget } fuel).1 = (r.loop l text {} fuel).1 := by
  induction fuel generalizing r with
  | zero => contradiction
  | succ fuel ih =>
    have hgo : Limits.stop { maxOperations := some budget } r.stats.operations = false := by
      have := Run.operations_le_loop l text r {} (fuel + 1)
      simp [Limits.stop]
      omega
    cases hn : r.next? with
    | none => rw [Run.loop, hgo, Run.loop, if_neg (by simp), if_neg (by simp [Limits.stop]), hn]
    | some i =>
      rw [Run.loop_of_next? hn] at h hlt ⊢
      rw [Run.loop, hgo, if_neg Bool.false_ne_true, ← ih h hlt, Run.turn, hn]

/-- A parse that uses up its budget, be it with its last step, has what the most promising
hypothesis has read by then. -/
theorem Run.loop_of_budget_le (h : (r.loop l text {} fuel).1.complete = true) {n : Nat}
    (hle : r.stats.operations + n ≤ (r.loop l text {} fuel).2.stats.operations) :
    (r.loop l text { maxOperations := some (r.stats.operations + n) } fuel).1
      = ((Run.turn l text)^[n] r).partialTree l := by
  induction fuel generalizing r n with
  | zero => contradiction
  | succ fuel ih =>
    cases n with
    | zero => rw [Run.loop, if_pos (by simp [Limits.stop]), Function.iterate_zero_apply]
    | succ n =>
      have hgo : Limits.stop { maxOperations := some (r.stats.operations + (n + 1)) }
          r.stats.operations = false := by
        simp [Limits.stop]
      cases hn : r.next? with
      | none =>
        have hend := (Run.next?_turns_eq_none_iff h 0).mp hn
        omega
      | some i =>
        rw [Run.loop_of_next? hn] at h hle
        have hturn := Run.operations_turn l text hn
        have hrest := ih (n := n) h (by omega)
        rw [hturn, Nat.add_assoc, Nat.add_comm 1 n] at hrest
        rw [Run.loop, hgo, if_neg Bool.false_ne_true, Function.iterate_succ_apply, ← hrest,
          Run.turn, hn]

theorem Run.partialTree_of_next? (h : r.next? = none) :
    r.partialTree l = ⟨Subtree.error l 0 0 [], l, false⟩ := by
  have hlive : r.versions.filter (fun v => !v.halted) = [] :=
    List.filter_eq_nil_iff.mpr fun v hv => by simp [next?_eq_none h v hv]
  rw [Run.partialTree, hlive]
  rfl

end Parse

/-! ## Parses -/

section

variable {l : Language} {old : Option Tree}

/-- The number of steps that a parse without limits takes. -/
def Language.steps (l : Language) (text : Bytes) (old : Option Tree) : Nat :=
  ((l.startRun text old).loop l text {} (stepBound text)).2.stats.operations

theorem Language.operations_startRun (l : Language) (text : Bytes) (old : Option Tree) :
    (l.startRun text old).stats.operations = 0 := by
  unfold Language.startRun
  simp only
  split <;> rfl

/-- A budget of more steps than a parse takes makes no difference to its tree.  With any other
budget the tree is incomplete: it has what was read in that many steps, and nothing at all where
the budget is just the number of steps. -/
theorem Language.parse_budget {handle : Nat} {grammar : Grammar} {scanner : Option Scanner}
    (h : Language.ofGrammar handle grammar scanner = .ok l) (text : Bytes)
    (hold : ∀ t, old = some t → l.Obtained t) :
    (∀ n, ((Run.turn l text)^[n] (l.startRun text old)).next? = none ↔ l.steps text old ≤ n) ∧
      (∀ n, l.steps text old < n →
        (l.parse { maxOperations := some n } text old).1 = (l.parse {} text old).1 ∧
          (l.parse { maxOperations := some n } text old).1.complete = true) ∧
      (∀ n ≤ l.steps text old,
        (l.parse { maxOperations := some n } text old).1
            = ((Run.turn l text)^[n] (l.startRun text old)).partialTree l ∧
          (l.parse { maxOperations := some n } text old).1.complete = false) ∧
      (l.parse { maxOperations := some (l.steps text old) } text old).1.root
        = Subtree.error l 0 0 [] := by
  have hcomplete := Language.complete_parse h text hold
  have hstart := Language.operations_startRun l text old
  rw [Language.tree_parse] at hcomplete
  have hturns (n : Nat) : ((Run.turn l text)^[n] (l.startRun text old)).next? = none
      ↔ l.steps text old ≤ n := by
    rw [Run.next?_turns_eq_none_iff hcomplete, hstart, Nat.zero_add]
    rfl
  have hwithin (n : Nat) (hn : n ≤ l.steps text old) :
      (l.parse { maxOperations := some n } text old).1
        = ((Run.turn l text)^[n] (l.startRun text old)).partialTree l := by
    have hloop := Run.loop_of_budget_le hcomplete (n := n) (by rw [hstart, Nat.zero_add]; exact hn)
    rw [hstart, Nat.zero_add] at hloop
    rw [Language.tree_parse, hloop]
  refine ⟨hturns, fun n hn => ?_, fun n hn => ⟨hwithin n hn, ?_⟩, ?_⟩
  · have hloop : ((l.startRun text old).loop l text { maxOperations := some n } (stepBound text)).1
        = ((l.startRun text old).loop l text {} (stepBound text)).1 :=
      Run.loop_of_lt_budget hcomplete hn
    rw [Language.tree_parse, Language.tree_parse, hloop]
    exact ⟨rfl, hcomplete⟩
  · rw [hwithin n hn]
    rfl
  · rw [hwithin _ (Nat.le_refl _), Run.partialTree_of_next? ((hturns _).mpr (Nat.le_refl _))]

set_option maxRecDepth 100000 in
theorem Language.parse_budget_hollow : ∃ l, Language.ofGrammar 0 .hollow none = .ok l ∧
    l.steps (Bytes.ofString "ad") none = 8 ∧
    (l.parse { maxOperations := some 9 } (Bytes.ofString "ad") none).1
      = (l.parse {} (Bytes.ofString "ad") none).1 ∧
    (l.parse { maxOperations := some 8 } (Bytes.ofString "ad") none).1.complete = false := by
  have hrun : (Language.ofGrammar 0 .hollow none).toOption.any (fun l =>
      l.steps (Bytes.ofString "ad") none == 8) = true := by
    decide +kernel
  obtain ⟨l, hl, hsteps⟩ := exists_ok hrun
  have hsteps := beq_iff_eq.mp hsteps
  obtain ⟨-, hbeyond, hwithin, -⟩ := Language.parse_budget hl (Bytes.ofString "ad")
    (show ∀ t, none = some t → l.Obtained t by simp)
  exact ⟨l, hl, hsteps, (hbeyond 9 (by rw [hsteps]; decide)).1,
    (hwithin 8 (Nat.le_of_eq hsteps.symm)).2⟩

end

end Glr
