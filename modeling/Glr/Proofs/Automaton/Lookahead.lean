import Glr.Proofs.Automaton.Finite
import Glr.Proofs.Automaton.First
import Glr.Proofs.Automaton.Path

/-!
# Glr.Proofs.Automaton.Lookahead

Items with one of their lookaheads, as they move through the finished automaton.  States
were merged and grew while they were made; in the end all that counts is

```
[S' → . start, end]                       stands in state zero
[A → α . x β, a]  in q                    stands advanced over x in the state after q over x
[A → α . B β, a]  in q,   β a ⇒ c …       asks for  [B → . γ, c]  in q
```

for every token `c` that can come first in what `β` derives before an `a`.
-/

namespace Glr.Automaton

theorem Kernel.Covers.exists_mem {big small : Kernel} (h : big.Covers small) {i : LookItem}
    (hi : i ∈ small) : ∃ j ∈ big, j.item = i.item ∧ i.lookahead.subset j.lookahead = true := by
  obtain ⟨n, hn⟩ := List.getElem?_of_mem hi
  have hlt : n < big.length := by
    rw [length_eq_of_core_eq h.core]
    exact (List.getElem?_eq_some_iff.mp hn).1
  have hj := List.getElem?_eq_getElem hlt
  refine ⟨big[n], List.getElem_mem hlt, ?_, coversLookaheads_iff.mp h.lookaheads n _ _ hj hn⟩
  have hcore := congrArg (·[n]?) h.core
  simpa [Automaton.core, hj, hn] using hcore

theorem Basis.mem_advanceOver {b : Basis} {closure : List LookItem} {i : LookItem} {x : Symbol}
    (hi : i ∈ closure) (hn : b.next? i.item = some x) :
    ⟨⟨i.item.production, i.item.dot + 1⟩, i.lookahead⟩ ∈ b.advanceOver closure x := by
  rw [advanceOver, SortedList.mem_sort, List.mem_filterMap]
  exact ⟨i, hi, by simp [hn]⟩

theorem Basis.next?_eq_some_iff {b : Basis} {x : Item} {y : Symbol} :
    b.next? x = some y ↔ b.after x = y :: b.after ⟨x.production, x.dot + 1⟩ := by
  rw [next?, after, after, List.head?_drop]
  constructor
  · intro h
    obtain ⟨hlt, rfl⟩ := List.getElem?_eq_some_iff.mp h
    exact List.drop_eq_getElem_cons hlt
  · intro h
    rw [← List.head?_drop, h]
    rfl

theorem Basis.next?_of_after {b : Basis} {x : Item} {y : Symbol} {rest : List Symbol}
    (h : b.after x = y :: rest) : b.next? x = some y := by
  rw [next?, h]
  rfl

theorem Basis.after_succ {b : Basis} {x : Item} {y : Symbol} {rest : List Symbol}
    (h : b.after x = y :: rest) : b.after ⟨x.production, x.dot + 1⟩ = rest := by
  have hsplit := next?_eq_some_iff.mp (next?_of_after h)
  rw [h] at hsplit
  exact (List.cons.inj hsplit).2.symm

namespace ItemSets

/-- An item stands in a state with a token that may follow its production. -/
def Stands (b : Basis) (s : ItemSets) (q : StateId) (x : Item) (a : Symbol) : Prop :=
  ∃ k i, s.kernels[q]? = some k ∧ i ∈ b.closure k ∧ i.item = x ∧ i.lookahead.contains a = true

section

variable {b : Basis} {s : ItemSets} {q : StateId} {k : Kernel} {i : LookItem} {x : Item}
  {y a : Symbol}

/-- What stands in a kernel stands in its closure. -/
theorem Stands.of_kernel (hb : b.Sound) (h : Inv b s) (hk : s.kernels[q]? = some k) (hi : i ∈ k)
    (ha : i.lookahead.contains a = true) : Stands b s q i.item a := by
  have hgrows := (Basis.closure_result hb (h.kernels q k hk).tokens).grows
  obtain ⟨n, hn⟩ := List.getElem?_of_mem hi
  obtain ⟨j, hj, hitem, hsubset⟩ := hgrows n i (by simpa using hn)
  exact ⟨k, j, hk, by simpa using Array.mem_of_getElem? hj, hitem, TokenSet.subset_iff.mp hsubset a ha⟩

/-- The end of the input may follow the start symbol in state zero. -/
theorem stands_start (hb : b.Sound) (h : Inv b s) : Stands b s 0 ⟨0, 0⟩ endSymbol := by
  obtain ⟨k, hk, hc⟩ := h.start
  obtain ⟨i, hi, hitem, hsubset⟩ := hc.exists_mem (List.mem_singleton_self _)
  rw [show (⟨0, 0⟩ : Item) = i.item from hitem.symm]
  refine .of_kernel hb h hk hi (TokenSet.subset_iff.mp hsubset endSymbol ?_)
  rw [TokenSet.contains_singleton, decide_eq_true_eq]

/-- Over the symbol at its position, an item leads on to itself advanced. -/
theorem Stands.advance (hb : b.Sound) (h : Inv b s) (hsettled : ∀ q, Settled b s q)
    (hx : Stands b s q x a) (hn : b.next? x = some y) :
    ∃ t, s.Edge q y t ∧ Stands b s t ⟨x.production, x.dot + 1⟩ a := by
  obtain ⟨k, i, hk, hi, rfl, ha⟩ := hx
  obtain ⟨ts, t, k', hts, hm, hk', hc⟩ :=
    hsettled q k hk y (Basis.mem_nextSymbols.mpr ⟨i, hi, hn⟩)
  obtain ⟨j, hj, hitem, hsubset⟩ := hc.exists_mem (Basis.mem_advanceOver hi hn)
  refine ⟨t, ⟨ts, hts, hm⟩, ?_⟩
  rw [show (⟨i.item.production, i.item.dot + 1⟩ : Item) = j.item from hitem.symm]
  exact .of_kernel hb h hk' hj (TokenSet.subset_iff.mp hsubset a ha)

/-- There is only one way over a symbol. -/
theorem Stands.advance_edge (hb : b.Sound) (h : Inv b s) (hsettled : ∀ q, Settled b s q)
    (hx : Stands b s q x a) (hn : b.next? x = some y) {t : StateId} (he : s.Edge q y t) :
    Stands b s t ⟨x.production, x.dot + 1⟩ a := by
  obtain ⟨t', ⟨ts, hts, hm⟩, hstands⟩ := hx.advance hb h hsettled hn
  obtain ⟨ts', hts', hm'⟩ := he
  obtain rfl := Option.some.inj (hts.symm.trans hts')
  obtain rfl := h.single q ts y t t' hts hm' hm
  exact hstands

end

variable {g : FlatGrammar} {s : ItemSets} {q : StateId} {x : Item} {a : Symbol}

/-- Before a nonterminal, an item asks for the productions of the nonterminal, with what can
come first after it. -/
theorem Stands.demand (hg : g.WellFormed) (h : Inv (Basis.ofGrammar g) s)
    (hx : Stands (Basis.ofGrammar g) s q x a) {p : Nat} {prod : Production}
    (hp : g.productions[p]? = some prod) (hn : (Basis.ofGrammar g).next? x = some prod.lhs)
    {w rest : List Symbol} {c : Symbol}
    (hw : g.Derives ((Basis.ofGrammar g).after ⟨x.production, x.dot + 1⟩) w)
    (hc : (w ++ a :: rest).head? = some c) :
    Stands (Basis.ofGrammar g) s q ⟨p + 1, 0⟩ c := by
  have hb := Basis.ofGrammar_sound hg
  obtain ⟨k, i, hk, hi, rfl, ha⟩ := hx
  have hlhs := (hg.productions prod (Array.mem_of_getElem? hp)).lhs
  have hlt {p : Production} (hp : p ∈ g.productions) : p.lhs < g.symbols.size := by
    obtain ⟨info, hinfo, -⟩ := (hg.productions p hp).lhs
    exact (Array.getElem?_eq_some_iff.mp hinfo).1
  have hexpands : (Basis.ofGrammar g).expands i = some
      ((Basis.ofGrammar g).byLhs[prod.lhs]?.getD [], (FirstSets.ofGrammar g).firstOfAll i.lookahead
        ((Basis.ofGrammar g).after ⟨i.item.production, i.item.dot + 1⟩)) := by
    rw [Basis.expands, Basis.next?_eq_some_iff.mp hn]
    have hterm : (Basis.ofGrammar g).isTerminal prod.lhs = false := by
      rw [Basis.isTerminal_ofGrammar]
      exact FlatGrammar.isTerminal_of_isRule hlhs
    simp only [hterm, Bool.false_eq_true, if_false]
    rfl
  have hsatisfied := (Basis.closure_result hb (h.kernels q k hk).tokens).satisfied i (by simpa using hi)
  obtain ⟨j, hj, hitem, hsubset⟩ := hsatisfied _ _ hexpands (p + 1)
    (Basis.mem_byLhs_of_production hp (hlt (Array.mem_of_getElem? hp)))
  refine ⟨k, j, hk, by simpa using hj, hitem, TokenSet.subset_iff.mp hsubset c ?_⟩
  refine ((FirstSets.ofGrammar_closed fun p hp => hlt hp).firstOfAll hw).2 i.lookahead c ?_
  cases w with
  | nil =>
    obtain rfl : a = c := by simpa using hc
    exact .inr ⟨rfl, ha⟩
  | cons d w => exact .inl hc

end ItemSets

end Glr.Automaton
