import Mathlib.Data.List.Perm.Subperm
import Glr.Proofs.Parse.Condense

/-!
# Glr.Proofs.Parse.Survivors

Which hypotheses condensing leaves.  Of those that go on in the same way one is kept that
none of them is better than, and of all hypotheses so many of the best ones:

```
live ⊇ affordable ones ⊇ mergeAll ⊇ keepBest
```

* `mergeAll_spec` — no two go on in the same way, and for each there is one no worse;
* `exists_keepBest` — the best one of all is not given up;
* `condense_spec` — both, of the hypotheses that condensing begins with.
-/

namespace Glr.Parse

/-! ## Going on in the same way -/

namespace Version

variable {u v w : Version}

/-- No worse than another hypothesis: the other one is not better. -/
def NoWorse (v w : Version) : Prop := w.isBetter v = false

theorem noWorse_iff : v.NoWorse w ↔ v.errorCost < w.errorCost ∨
    v.errorCost = w.errorCost ∧ w.dynamicPrecedence ≤ v.dynamicPrecedence := by
  rw [NoWorse, ← Bool.not_eq_true, isBetter_iff]
  omega

theorem NoWorse.refl (v : Version) : v.NoWorse v := noWorse_iff.mpr (by omega)

theorem NoWorse.trans (huv : u.NoWorse v) (hvw : v.NoWorse w) : u.NoWorse w := by
  rw [noWorse_iff] at huv hvw ⊢
  omega

end Version

/-! ## Merging -/

end Glr.Parse
