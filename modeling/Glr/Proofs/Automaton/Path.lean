import Glr.Proofs.Automaton.Finite

/-!
# Glr.Proofs.Automaton.Path

Paths of the automaton from its start state.  Where a path ends in a state with an
item, the path spells what the production of the item has before its position, and
the production itself is asked for in the state where that part begins.  So a
complete production can be taken off the path, and the state below has a
transition over its left-hand side.
-/

namespace Glr.Automaton

/-- The state at the end of a path, the last step of which comes first. -/
def lastState : List (Symbol × StateId) → StateId
  | [] => 0
  | (_, t) :: _ => t

/-- The steps of a path lead from state to state, and begin in state zero. -/
inductive Path (edge : StateId → Symbol → StateId → Prop) : List (Symbol × StateId) → Prop where
  | nil : Path edge []
  | cons {x : Symbol} {t : StateId} {steps : List (Symbol × StateId)} (h : Path edge steps)
      (he : edge (lastState steps) x t) : Path edge ((x, t) :: steps)

/-- The symbols that a path spells. -/
def spelled (steps : List (Symbol × StateId)) : List Symbol := (steps.map Prod.fst).reverse

section

variable {edge edge' : StateId → Symbol → StateId → Prop} {steps : List (Symbol × StateId)}

theorem Path.mono (h : Path edge steps) (he : ∀ i x t, edge i x t → edge' i x t) :
    Path edge' steps := by
  induction h with
  | nil => exact .nil
  | cons _ hx ih => exact .cons ih (he _ _ _ hx)

theorem Path.drop (h : Path edge steps) (n : Nat) : Path edge (steps.drop n) := by
  induction h generalizing n with
  | nil => simpa using Path.nil
  | cons h he ih =>
    cases n with
    | zero => exact .cons h he
    | succ n => exact ih n

end

/-- A state has a transition over a symbol to another state. -/
def ItemSets.Edge (s : ItemSets) (i : StateId) (x : Symbol) (t : StateId) : Prop :=
  ∃ ts, s.transitions[i]? = some ts ∧ (x, t) ∈ ts

variable {b : Basis} {s : ItemSets} {steps : List (Symbol × StateId)} {x : Item} {k : Kernel}

/-- Kernels other than that of the start state hold no production at its start. -/
theorem dot_pos_of_mem_advanceOver {closure : List LookItem} {y : Symbol}
    (h : x ∈ core (b.advanceOver closure y)) : 0 < x.dot := by
  obtain ⟨_, _, _, rfl⟩ := Basis.mem_core_advanceOver.mp h
  exact Nat.succ_pos _

namespace ItemSets

/-- The kernel of the start state has the start of the production for the start symbol. -/
theorem Inv.mem_core_start (h : Inv b s) (hk : s.kernels[0]? = some k) :
    x ∈ core k ↔ x = ⟨0, 0⟩ := by
  obtain ⟨k₀, hk₀, hc⟩ := h.start
  obtain rfl := Option.some.inj (hk.symm.trans hk₀)
  rw [hc.core]
  simp [core, startKernel]

/-- A transition leads from a state to the one with what stands behind the symbol there. -/
theorem Inv.kernels_of_edge (h : Inv b s) {i t : StateId} {y : Symbol} (he : s.Edge i y t) :
    ∃ k k', s.kernels[i]? = some k ∧ s.kernels[t]? = some k' ∧ y ∈ b.nextSymbols (b.closure k) ∧
      core k' = core (b.advanceOver (b.closure k) y) := by
  obtain ⟨ts, hts, hm⟩ := he
  have hlt := (Array.getElem?_eq_some_iff.mp hts).1
  rw [h.transitions_size] at hlt
  have hk := Array.getElem?_eq_getElem hlt
  obtain ⟨hy, k', hk', hc⟩ := h.transitions _ _ ts y t hk hts hm
  exact ⟨_, k', hk, hk', hy, hc⟩

/-- Only the kernel of the start state has an item at its start, the one it begins with. -/
theorem Path.eq_nil (h : Inv b s) (hp : Path s.Edge steps)
    (hk : s.kernels[lastState steps]? = some k) (hm : x ∈ core k) (hd : x.dot = 0) :
    steps = [] ∧ x = ⟨0, 0⟩ := by
  cases hp with
  | nil => exact ⟨rfl, (h.mem_core_start hk).mp hm⟩
  | cons _ he =>
    obtain ⟨k₁, k', -, hk', -, hc⟩ := h.kernels_of_edge he
    obtain rfl := Option.some.inj (hk.symm.trans hk')
    rw [hc] at hm
    exact absurd (dot_pos_of_mem_advanceOver hm) (by omega)

/-- What is before the position of an item is at the end of the path. -/
theorem Path.unfold (hb : b.Sound) (h : Inv b s) {p d : Nat} (hp : Path s.Edge steps)
    (hk : s.kernels[lastState steps]? = some k) (hx : Implied b (core k) ⟨p, d⟩) :
    d ≤ steps.length ∧ spelled (steps.take d) = (b.rhs[p]?.getD []).take d ∧
      ∃ k', s.kernels[lastState (steps.drop d)]? = some k' ∧ Implied b (core k') ⟨p, 0⟩ := by
  induction d generalizing steps k with
  | zero => exact ⟨Nat.zero_le _, by simp [spelled], k, by simpa using hk, hx⟩
  | succ d ih =>
    -- past its start, the item stands in the kernel
    have hmem : ⟨p, d + 1⟩ ∈ core k := by
      cases hx with
      | kernel h => exact h
    cases hp with
    | nil =>
      have hstart := (h.mem_core_start hk).mp hmem
      simp at hstart
    | @cons y t steps hp he =>
      obtain ⟨k₁, k', hk₁, hk', -, hc⟩ := h.kernels_of_edge he
      obtain rfl := Option.some.inj (hk.symm.trans hk')
      rw [hc, Basis.mem_core_advanceOver_closure hb (h.kernels _ _ hk₁)] at hmem
      obtain ⟨z, hz, hn, he⟩ := hmem
      obtain ⟨rfl, hd⟩ := Item.mk.inj he
      obtain rfl := Nat.succ.inj hd
      obtain ⟨hle, hspelled, hrest⟩ := ih hp hk₁ hz
      refine ⟨Nat.succ_le_succ hle, ?_, hrest⟩
      have hnext : (b.rhs[z.production]?.getD [])[z.dot]? = some y := by
        rw [Basis.next?, Basis.after, List.head?_drop] at hn
        exact hn
      rw [List.take_succ_cons, List.take_add_one, hnext, ← hspelled]
      simp [spelled]

/-- A production that is asked for in a state leads on from there. -/
theorem Path.edge_lhs (hb : b.Sound) (h : Inv b s) (hsettled : ∀ i, Settled b s i) {p : Nat}
    (hp : Path s.Edge steps) (hk : s.kernels[lastState steps]? = some k)
    (hx : Implied b (core k) ⟨p, 0⟩) :
    p = 0 ∧ steps = [] ∨
      ∃ y t, p ∈ b.byLhs[y]?.getD [] ∧ b.isTerminal y = false ∧ s.Edge (lastState steps) y t := by
  cases hx with
  | kernel hm =>
    obtain ⟨hnil, hx⟩ := Path.eq_nil h hp hk hm rfl
    exact .inl ⟨congrArg Item.production hx, hnil⟩
  | @demand z y p hz hn ht hmem =>
    have hs := h.kernels _ _ hk
    have hy := (Basis.mem_nextSymbols_closure hb hs).mpr ⟨z, hz, hn⟩
    obtain ⟨ts, t, k', hts, hm, -⟩ := hsettled _ k hk y hy
    exact .inr ⟨y, t, hmem, ht, ts, hts, hm⟩

end ItemSets

end Glr.Automaton
