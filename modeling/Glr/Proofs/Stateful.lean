/-!
# Glr.Proofs.Stateful

Runs that go on from one state to the next and may fail.  A run of two parts that succeeds is one of
each of them, and the second starts in the state where the first one ends:

```
(m >>= f) s = ok (b, s'')   ↔   m s = ok (a, s'),  f a s' = ok (b, s'')
```
-/

namespace Glr.Stateful

variable {σ ε α β : Type} {s s' : σ}

theorem bind_eq_ok {m : StateT σ (Except ε) α} {f : α → StateT σ (Except ε) β} {r : β × σ} :
    (m >>= f) s = .ok r ↔ ∃ a s', m s = .ok (a, s') ∧ f a s' = .ok r := by
  change (m s >>= fun p => f p.1 p.2) = .ok r ↔ _
  cases m s with
  | error e => simp [bind, Except.bind]
  | ok p =>
    obtain ⟨a, t⟩ := p
    constructor
    · intro h
      exact ⟨a, t, rfl, h⟩
    · rintro ⟨b, u, he, h⟩
      cases he
      exact h

theorem pure_eq_ok {a b : α} : (pure a : StateT σ (Except ε) α) s = .ok (b, s') ↔ a = b ∧ s = s' := by
  change Except.ok (a, s) = .ok (b, s') ↔ _
  simp

theorem get_eq_ok {t : σ} : (get : StateT σ (Except ε) σ) s = .ok (t, s') ↔ s = t ∧ s = s' := by
  change Except.ok (s, s) = .ok (t, s') ↔ _
  simp

theorem set_eq_ok {t : σ} {u : PUnit} :
    (set t : StateT σ (Except ε) PUnit) s = .ok (u, s') ↔ t = s' := by
  change Except.ok ((), t) = .ok (u, s') ↔ _
  simp

theorem modify_eq_ok {f : σ → σ} {u : PUnit} :
    (modify f : StateT σ (Except ε) PUnit) s = .ok (u, s') ↔ f s = s' := by
  change Except.ok ((), f s) = .ok (u, s') ↔ _
  simp

theorem throw_eq_ok {e : ε} {r : α × σ} :
    (throw e : StateT σ (Except ε) α) s = .ok r ↔ False := by
  change Except.error e = .ok r ↔ _
  simp

theorem lift_eq_ok {x : Except ε α} {a : α} :
    (liftM x : StateT σ (Except ε) α) s = .ok (a, s') ↔ x = .ok a ∧ s = s' := by
  cases x with
  | error e =>
    change Except.error e = .ok (a, s') ↔ _
    simp
  | ok b =>
    change Except.ok (b, s) = .ok (a, s') ↔ _
    simp

/-- What is read of each of some things, where reading leaves the state as it is. -/
theorem mapM_eq_ok {f : α → StateT σ (Except ε) β} (hf : ∀ a s b s', f a s = .ok (b, s') → s = s')
    {as : List α} {bs : List β} (h : (as.mapM f) s = .ok (bs, s')) :
    s = s' ∧ ∀ b ∈ bs, ∃ a ∈ as, f a s = .ok (b, s) := by
  induction as generalizing bs s' with
  | nil =>
    rw [List.mapM_nil, pure_eq_ok] at h
    obtain ⟨rfl, rfl⟩ := h
    exact ⟨rfl, by simp⟩
  | cons a as ih =>
    rw [List.mapM_cons, bind_eq_ok] at h
    obtain ⟨b, s₁, hb, h⟩ := h
    obtain ⟨rest, s₂, hrest, h⟩ := bind_eq_ok.mp h
    obtain ⟨rfl, rfl⟩ := pure_eq_ok.mp h
    obtain rfl := hf a s b s₁ hb
    obtain ⟨rfl, hmem⟩ := ih hrest
    refine ⟨rfl, List.forall_mem_cons.mpr ⟨⟨a, List.mem_cons_self, hb⟩, fun c hc => ?_⟩⟩
    obtain ⟨d, hd, hc⟩ := hmem c hc
    exact ⟨d, List.mem_cons_of_mem _ hd, hc⟩

end Glr.Stateful
