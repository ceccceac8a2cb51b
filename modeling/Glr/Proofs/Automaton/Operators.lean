import Glr.Proofs.Automaton.Conflict
import Glr.Proofs.Automaton.Expansions
import Glr.Proofs.Automaton.Follows
import Glr.Proofs.FlatGrammar.Operators
import Glr.Proofs.Language

/-!
# Glr.Proofs.Automaton.Operators

The automaton of a grammar of infix operators.  All items are those of the start symbol `E`,

```
[S' → . E]      [E → . E o E]      [E → . t]
```

so a path goes to and fro between operands and operators: where a production begins, the path
is empty or ends with `E o`.  The end of the input follows every item, and every operator token
follows every production; nothing else does.
-/

namespace Glr

open Automaton

namespace FlatGrammar

variable {g : FlatGrammar} {start : String} {ops : List Operator} {o o' : Operator}
  {t x y : Symbol} {p d : Nat}

/-! ## Items -/

/-- The production that an item belongs to. -/
inductive Kind (g : FlatGrammar) (ops : List Operator) : Nat → Prop where
  | start : Kind g ops 0
  | operator {o : Operator} {t : Symbol} {p : Nat} (ho : g.Operates ops o t)
      (hp : g.basis.production? p = some (o.production g.start t)) : Kind g ops p
  | token {t : Symbol} {p : Nat} (ht : IsToken g.symbols t)
      (hp : g.basis.production? p = some (.ofToken g.start t)) : Kind g ops p

theorem rhs_of_production? {prod : Production} (h : g.basis.production? p = some prod) :
    g.basis.rhs[p]?.getD [] = prod.rhs := by
  cases p with
  | zero => contradiction
  | succ p =>
    rw [Basis.production?_succ] at h
    rw [Basis.rhs_succ, h]
    rfl

/-- What stands behind a position in the production of an operator. -/
theorem after_operator (hp : g.basis.production? p = some (o.production g.start t)) (d : Nat) :
    g.basis.after ⟨p, d⟩ = [g.start, t, g.start].drop d := by
  rw [Basis.after, rhs_of_production? hp, Operator.rhs_production]

theorem next?_operator (hp : g.basis.production? p = some (o.production g.start t)) (d : Nat) :
    g.basis.next? ⟨p, d⟩ = [g.start, t, g.start][d]? := by
  rw [Basis.next?, after_operator hp, List.head?_drop]

theorem Infix.isRule_start (h : g.Infix start ops) : IsRule g.symbols g.start :=
  ⟨_, h.start, .inl rfl⟩

theorem Infix.ne_start (h : g.Infix start ops) (ht : IsToken g.symbols t) : t ≠ g.start := by
  rintro rfl
  have hterminal := isTerminal_of_isToken ht
  rw [isTerminal_of_isRule h.isRule_start] at hterminal
  contradiction

/-- The productions of the start symbol are of these kinds. -/
theorem Infix.kind_of_mem_byLhs (h : g.Infix start ops)
    (hp : p ∈ g.basis.byLhs[g.start]?.getD []) : g.Kind ops p := by
  obtain ⟨q, rfl, prod, hq, hlhs⟩ := Basis.mem_byLhs hp
  rcases h.productions prod (Array.mem_of_getElem? hq) hlhs with ⟨o, t, ho, rfl⟩ | ⟨t, ht, rfl⟩
  · exact .operator ho hq
  · exact .token ht hq

theorem Infix.mem_byLhs (h : g.Infix start ops) {prod : Production}
    (hp : g.basis.production? p = some prod) (hlhs : prod.lhs = g.start) :
    p ∈ g.basis.byLhs[g.start]?.getD [] := by
  cases p with
  | zero => contradiction
  | succ p =>
    rw [← hlhs]
    refine Basis.mem_byLhs_of_production hp ?_
    rw [hlhs]
    exact (Array.getElem?_eq_some_iff.mp h.start).1

/-- An operator has a production. -/
theorem Operates.exists_production (h : g.Operates ops o t) :
    ∃ p, g.basis.production? p = some (o.production g.start t) := by
  obtain ⟨p, hp⟩ := Array.getElem?_of_mem h.production
  exact ⟨p + 1, hp⟩

/-- The symbols at the positions of the items. -/
theorem Kind.next? (hk : g.Kind ops p) (hn : g.basis.next? ⟨p, d⟩ = some y) :
    y = g.start ∧ (d = 0 ∨ d = 2 ∧ ∃ o t, g.Operates ops o t ∧
        g.basis.production? p = some (o.production g.start t)) ∨
      d = 1 ∧ (∃ o, g.Operates ops o y ∧
        g.basis.production? p = some (o.production g.start y)) ∨
      d = 0 ∧ IsToken g.symbols y ∧ g.basis.production? p = some (.ofToken g.start y) := by
  cases hk with
  | start =>
    rw [Basis.next?, Basis.after, List.head?_drop, Basis.rhs_zero, Option.getD_some] at hn
    rcases d with _ | d
    · exact .inl ⟨(Option.some.inj hn).symm, .inl rfl⟩
    · simp at hn
  | @operator o t p ho hp =>
    rw [next?_operator hp] at hn
    rcases d with _ | _ | _ | d
    · exact .inl ⟨(Option.some.inj hn).symm, .inl rfl⟩
    · obtain rfl := Option.some.inj hn
      exact .inr (.inl ⟨rfl, o, ho, hp⟩)
    · exact .inl ⟨(Option.some.inj hn).symm, .inr ⟨rfl, o, t, ho, hp⟩⟩
    · simp at hn
  | @token t p ht hp =>
    rw [Basis.next?, Basis.after, List.head?_drop, rhs_of_production? hp,
      Production.rhs_ofToken] at hn
    rcases d with _ | d
    · obtain rfl := Option.some.inj hn
      exact .inr (.inr ⟨rfl, ht, hp⟩)
    · simp at hn

/-- Only the start symbol asks for productions. -/
theorem Kind.eq_start (hk : g.Kind ops p)
    (hn : g.basis.next? ⟨p, d⟩ = some y) (hy : g.basis.isTerminal y = false) : y = g.start := by
  have hno (ht : IsToken g.symbols y) : y = g.start := by
    rw [Basis.isTerminal_ofGrammar, isTerminal_of_isToken ht] at hy
    contradiction
  rcases hk.next? hn with ⟨rfl, -⟩ | ⟨-, o, ho, -⟩ | ⟨-, ht, -⟩
  · rfl
  · exact hno ho.token
  · exact hno ht

/-- Before the start symbol, an item is at its beginning or after its operator. -/
theorem Kind.next?_start (h : g.Infix start ops) (hk : g.Kind ops p)
    (hn : g.basis.next? ⟨p, d⟩ = some g.start) :
    d = 0 ∨ d = 2 ∧ ∃ o t, g.Operates ops o t ∧
      g.basis.production? p = some (o.production g.start t) := by
  rcases hk.next? hn with ⟨-, hd⟩ | ⟨-, o, ho, -⟩ | ⟨-, ht, -⟩
  · exact hd
  · exact absurd rfl (h.ne_start ho.token)
  · exact absurd rfl (h.ne_start ht)

/-! ## Lookaheads -/

/-- A token that follows operands. -/
def Delimits (g : FlatGrammar) (ops : List Operator) (t : Symbol) : Prop :=
  t = endSymbol ∨ ∃ o, g.Operates ops o t

theorem WellFormed.ne_lhs (hg : g.WellFormed) (ht : IsToken g.symbols t) :
    ∀ p ∈ g.productions, p.lhs ≠ t := by
  rintro p hp rfl
  have hterminal := isTerminal_of_isToken ht
  rw [isTerminal_of_isRule (hg.productions p hp).lhs] at hterminal
  contradiction

/-- What can come first after an operand is the operator after it. -/
theorem first_operator (hg : g.WellFormed) (ho : g.Operates ops o t) (follow : TokenSet)
    (rest : List Symbol) :
    g.basis.firstSets.firstOfAll follow (t :: rest) = TokenSet.singleton t :=
  FirstSets.firstOfAll_token (isTerminal_of_isToken ho.token) (hg.ne_lhs ho.token) follow rest

/-- An item is of one of the kinds, and has only tokens that follow operands. -/
def Ranges (g : FlatGrammar) (ops : List Operator) (i : LookItem) : Prop :=
  g.Kind ops i.item.production ∧ ∀ t, i.lookahead.contains t = true → g.Delimits ops t

theorem Infix.implied_kind (h : g.Infix start ops) {k : Kernel}
    (hk : ∀ i ∈ k, g.Kind ops i.item.production) {x : Item}
    (hx : Implied g.basis (core k) x) : g.Kind ops x.production := by
  induction hx with
  | kernel hm =>
    obtain ⟨i, hi, rfl⟩ := List.mem_map.mp hm
    exact hk i hi
  | demand _ hn ht hp ih =>
    obtain rfl := ih.eq_start hn ht
    exact h.kind_of_mem_byLhs hp

theorem Infix.follows_delimits (hg : g.WellFormed) (h : g.Infix start ops) {k : Kernel}
    (hk : ∀ i ∈ k, g.Ranges ops i) {x : Item} (hx : Follows g.basis k x t) :
    g.Delimits ops t := by
  induction hx with
  | kernel hi ht => exact (hk _ hi).2 _ ht
  | @first x y rest p t hx ha hy _ ht =>
    have hkind := h.implied_kind (fun i hi => (hk i hi).1) hx
    have hn := Basis.next?_of_after ha
    obtain rfl := hkind.eq_start hn hy
    have hafter := Basis.after_succ ha
    -- nothing is after an operand but an operator
    obtain ⟨q, d⟩ := x
    cases hkind with
    | start =>
      rw [Basis.after, Basis.rhs_zero, Option.getD_some] at hafter
      obtain rfl : rest = [] := by simpa using hafter.symm
      simp [FirstSets.firstOfAll, TokenSet.contains_empty] at ht
    | @operator o t' _ ho hp =>
      rw [after_operator hp] at hafter
      rcases Kind.next?_start h (.operator ho hp) hn with rfl | ⟨rfl, -⟩
      · obtain rfl : [t', g.start] = rest := hafter
        rw [first_operator hg ho, TokenSet.contains_singleton, decide_eq_true_eq] at ht
        exact .inr ⟨o, ht ▸ ho⟩
      · obtain rfl : [] = rest := hafter
        simp [FirstSets.firstOfAll, TokenSet.contains_empty] at ht
    | @token t' _ ht' hp =>
      rw [Basis.after, rhs_of_production? hp, Production.rhs_ofToken] at hafter
      obtain rfl : rest = [] := by simpa using hafter.symm
      simp [FirstSets.firstOfAll, TokenSet.contains_empty] at ht
  | inherit _ _ _ _ _ ih => exact ih

/-- All items of all states are of these kinds. -/
theorem Infix.states_range (hg : g.WellFormed) (h : g.Infix start ops) {q : StateId} {k : Kernel}
    (hk : g.states.kernels[q]? = some k) : ∀ i ∈ k, g.Ranges ops i := by
  have hb := Basis.ofGrammar_sound hg
  have hr : 0 < g.basis.rhs.size := by rw [Basis.size_rhs]; exact Nat.succ_pos _
  obtain ⟨order, horder⟩ := ItemSets.exists_expansions_ofBasis g.basis
  have hstart : ∀ i ∈ ItemSets.startKernel, g.Ranges ops i := by
    intro i hi
    obtain rfl := List.mem_singleton.mp hi
    refine ⟨.start, fun t ht => .inl ?_⟩
    rw [TokenSet.contains_singleton, decide_eq_true_eq] at ht
    exact ht.symm
  have hunion (x y : Item) (l l' : TokenSet) (hx : g.Ranges ops ⟨x, l⟩) (hy : g.Ranges ops ⟨y, l'⟩) :
      g.Ranges ops ⟨x, l.union l'⟩ := by
    refine ⟨hx.1, fun t ht => ?_⟩
    rw [TokenSet.contains_union, Bool.or_eq_true] at ht
    exact ht.elim (hx.2 t) (hy.2 t)
  refine horder.forall_items hb hr hstart hunion (fun k x hk hall i hi => ?_) q k hk
  rw [Basis.advanceOver, SortedList.mem_sort, List.mem_filterMap] at hi
  obtain ⟨j, hj, hi⟩ := hi
  split at hi
  · obtain rfl := Option.some.inj hi
    have himplied := (Basis.mem_closure_iff hb hk.tokens).mp ⟨j, hj, rfl⟩
    have hkind := h.implied_kind (fun i hi => (hall i hi).1) himplied
    exact ⟨hkind, fun t ht =>
      h.follows_delimits hg hall ((Basis.exists_mem_closure_iff hb hk.tokens).mp ⟨j, hj, rfl, ht⟩)⟩
  · contradiction

/-! ## Paths -/

variable {steps : List (Symbol × StateId)} {q : StateId} {k : Kernel}

/-- A path that waits for an operand: it is empty, or ends with an operator. -/
inductive Open (g : FlatGrammar) (ops : List Operator) : List (Symbol × StateId) → Prop where
  | nil : Open g ops []
  | operator {o : Operator} {t : Symbol} {q q' : StateId} {steps : List (Symbol × StateId)}
      (ho : g.Operates ops o t) : Open g ops ((t, q) :: (g.start, q') :: steps)

section

variable (hg : g.WellFormed) (h : g.Infix start ops) (hs : Path g.states.Edge steps)
  (hk : g.states.kernels[lastState steps]? = some k)

include hg h hk

theorem Infix.kind_of_implied {x : Item} (hx : Implied g.basis (core k) x) :
    g.Kind ops x.production :=
  h.implied_kind (fun i hi => (h.states_range hg hk i hi).1) hx

include hs

/-- Where a production begins the path waits for an operand, and the kernel has the item that
asks for it. -/
theorem Infix.exists_root {x : Item} (hx : Implied g.basis (core k) x) (hd : x.dot = 0) :
    g.Open ops steps ∧ ∃ z ∈ core k, g.basis.after z = [g.start] := by
  have hb := Basis.ofGrammar_sound hg
  have hinv := hg.states_inv
  induction hx with
  | @kernel x hm =>
    obtain ⟨rfl, rfl⟩ := ItemSets.Path.eq_nil hinv hs hk hm hd
    refine ⟨.nil, _, hm, ?_⟩
    rw [Basis.after, Basis.rhs_zero]
    rfl
  | @demand z y p hz hn ht _ ih =>
    have hkind := h.kind_of_implied hg hk hz
    obtain rfl := hkind.eq_start hn ht
    rcases hkind.next?_start h hn with hd | ⟨hd, o, t, ho, hp⟩
    · exact ih hd
    · -- past its beginning, the item is in the kernel
      have hm : z ∈ core k := by
        cases hz with
        | kernel hm => exact hm
        | demand => contradiction
      obtain ⟨q, d⟩ := z
      obtain rfl : d = 2 := hd
      obtain ⟨hle, hspelled, -⟩ := ItemSets.Path.unfold hb hinv hs hk (.kernel hm)
      rw [rhs_of_production? hp, Operator.rhs_production] at hspelled
      refine ⟨?_, _, hm, after_operator hp 2⟩
      rcases steps with _ | ⟨⟨a, q⟩, _ | ⟨⟨b, q'⟩, steps⟩⟩
      · simp at hle
      · simp at hle
      · obtain ⟨rfl, rfl⟩ : b = g.start ∧ a = t := by simpa [spelled] using hspelled
        exact .operator ho

/-- Everything that holds of the lookaheads of the kernel holds of those of the closure. -/
theorem Infix.follows_of_kernel
    (hkernel : ∀ x ∈ core k, Follows g.basis k x endSymbol ∧
      (x.production ≠ 0 → ∀ o t, g.Operates ops o t → Follows g.basis k x t))
    {x : Item} (hx : Implied g.basis (core k) x) :
    Follows g.basis k x endSymbol ∧
      (x.production ≠ 0 → ∀ o t, g.Operates ops o t → Follows g.basis k x t) := by
  have hroot := h.exists_root hg hs hk hx
  cases hx with
  | kernel hm => exact hkernel x hm
  | @demand z y p hz hn ht hp =>
    obtain rfl := (h.kind_of_implied hg hk hz).eq_start hn ht
    obtain ⟨-, z, hz, ha⟩ := hroot rfl
    refine ⟨.inherit (hkernel z hz).1 ha ht hp (by simp), fun _ o t ho => ?_⟩
    -- the operator begins where the operand does
    obtain ⟨q, hq⟩ := ho.exists_production
    have hz := Implied.demand (.kernel hz) (Basis.next?_of_after ha) ht (h.mem_byLhs hq rfl)
    refine .first hz (after_operator hq 0) ht hp ?_
    rw [first_operator hg ho, TokenSet.contains_singleton, decide_eq_true_eq]

end

/-- The end of the input follows every item, and the operators follow every production. -/
theorem Infix.follows (hg : g.WellFormed) (h : g.Infix start ops)
    (hs : Path g.states.Edge steps) (hk : g.states.kernels[lastState steps]? = some k) {x : Item}
    (hx : Implied g.basis (core k) x) :
    Follows g.basis k x endSymbol ∧
      (x.production ≠ 0 → ∀ o t, g.Operates ops o t → Follows g.basis k x t) := by
  have hb := Basis.ofGrammar_sound hg
  have hinv := hg.states_inv
  induction hs generalizing k x with
  | nil =>
    refine h.follows_of_kernel hg .nil hk (fun x hm => ?_) hx
    obtain rfl := (hinv.mem_core_start hk).mp hm
    obtain ⟨k₀, hk₀, hc⟩ := hinv.start
    obtain rfl := Option.some.inj (hk.symm.trans hk₀)
    refine ⟨.mono hc (.kernel (List.mem_singleton_self _) ?_), fun hne => absurd rfl hne⟩
    rw [TokenSet.contains_singleton, decide_eq_true_eq]
  | @cons y t steps hs he ih =>
    refine h.follows_of_kernel hg (.cons hs he) hk (fun x hm => ?_) hx
    obtain ⟨k₁, k', hk₁, hk', -, hc⟩ := hinv.kernels_of_edge he
    obtain rfl := Option.some.inj (hk.symm.trans hk')
    rw [hc, Basis.mem_core_advanceOver_closure hb (hinv.kernels _ _ hk₁)] at hm
    obtain ⟨z, hz, hn, rfl⟩ := hm
    -- what follows the item goes with it over the transition
    have hadvance {a : Symbol} (ha : Follows g.basis k₁ z a) :
        Follows g.basis k ⟨z.production, z.dot + 1⟩ a := by
      have hstands := (ItemSets.stands_iff_follows hb hinv hk₁).mpr ha
      exact (ItemSets.stands_iff_follows hb hinv hk).mp
        (hstands.advance_edge hb hinv hg.states_settled hn he)
    obtain ⟨hend, hops⟩ := ih hk₁ hz
    exact ⟨hadvance hend, fun hne o t ho => hadvance (hops hne o t ho)⟩

end FlatGrammar

end Glr
