import Glr.Proofs.Automaton.Closure
import Glr.Proofs.FlatGrammar.Derives
import Mathlib.Algebra.Order.BigOperators.Group.List
import Mathlib.Algebra.Order.Ring.Nat

/-!
# Glr.Proofs.Automaton.First

First sets are complete.  Rounds only add facts, and there are no more facts than
`FirstSets.bound`, so the rounds end where no production adds anything:

```
start  ≤  round start  ≤  round (round start)  ≤  …  =  round (…)
```

So a symbol that derives nothing is known to be nullable, and a token that stands first in
what a symbol derives is in the first set of the symbol.
-/

namespace Glr.Automaton.FirstSets

variable {g : FlatGrammar} {f f' f'' : FirstSets} {p : Production} {s : Symbol}

/-! ## Facts -/

/-- All facts about symbols stay. -/
structure Grows (f f' : FirstSets) : Prop where
  nullable_size : f'.nullable.size = f.nullable.size
  first_size : f'.first.size = f.first.size
  nullable : ∀ s, f.isNullable s = true → f'.isNullable s = true
  first : ∀ s, (f.firstOf s).subset (f'.firstOf s) = true

theorem Grows.refl (f : FirstSets) : f.Grows f :=
  ⟨rfl, rfl, fun _ h => h, fun _ => Closure.subset_refl _⟩

theorem Grows.trans (h : f.Grows f') (h' : f'.Grows f'') : f.Grows f'' where
  nullable_size := h'.nullable_size.trans h.nullable_size
  first_size := h'.first_size.trans h.first_size
  nullable := fun s hs => h'.nullable s (h.nullable s hs)
  first := fun s => Closure.subset_trans (h.first s) (h'.first s)

theorem subset_antisymm {a b : TokenSet} (h : a.subset b = true) (h' : b.subset a = true) :
    a = b := by
  simp only [TokenSet.subset, beq_iff_eq] at h h'
  rw [← h, Nat.or_comm, h']

theorem Grows.antisymm (h : f.Grows f') (h' : f'.Grows f) : f = f' := by
  obtain ⟨nullable, first⟩ := f
  obtain ⟨nullable', first'⟩ := f'
  congr 1
  · refine Array.ext h.nullable_size.symm fun i hi hi' => ?_
    have hnull := h.nullable i
    have hnull' := h'.nullable i
    simp only [isNullable, Array.getElem?_eq_getElem hi, Array.getElem?_eq_getElem hi',
      Option.getD_some] at hnull hnull'
    exact Bool.eq_iff_iff.mpr ⟨hnull, hnull'⟩
  · refine Array.ext h.first_size.symm fun i hi hi' => ?_
    have hfirst := subset_antisymm (h.first i) (h'.first i)
    simpa only [firstOf, Array.getElem?_eq_getElem hi, Array.getElem?_eq_getElem hi',
      Option.getD_some] using hfirst

/-! ## Rounds -/

theorem apply_grows (f : FirstSets) (p : Production) : f.Grows (f.apply p) where
  nullable_size := by
    unfold apply
    split <;> simp
  first_size := Array.size_modify ..
  nullable := by
    intro s hs
    unfold apply isNullable
    split
    · simp only [Array.getElem?_setIfInBounds]
      split
      · split
        · rfl
        · rename_i hlt
          rw [isNullable, Array.getElem?_eq_none (by omega)] at hs
          contradiction
      · exact hs
    · exact hs
  first := by
    intro s
    unfold apply firstOf
    simp only [Array.getElem?_modify]
    split
    · cases hi : f.first[s]? with
      | none => exact Closure.subset_refl _
      | some a => exact Closure.subset_union_right _ _
    · exact Closure.subset_refl _

theorem foldl_apply_grows (f : FirstSets) (ps : List Production) : f.Grows (ps.foldl apply f) := by
  induction ps generalizing f with
  | nil => exact .refl f
  | cons p ps ih => exact (apply_grows f p).trans (ih _)

theorem round_eq (g : FlatGrammar) (f : FirstSets) :
    round g f = g.productions.toList.foldl apply f := by
  rw [round, Array.foldl_toList]

theorem round_grows (g : FlatGrammar) (f : FirstSets) : f.Grows (round g f) := by
  rw [round_eq]
  exact foldl_apply_grows f _

theorem saturate_grows (g : FlatGrammar) (fuel : Nat) (f : FirstSets) :
    f.Grows (saturate g fuel f) := by
  induction fuel generalizing f with
  | zero => exact .refl f
  | succ fuel ih =>
    rw [saturate]
    by_cases h : round g f = f
    · simp only [h, if_true]
      exact .refl f
    · simp only [h, if_false]
      exact (round_grows g f).trans (ih _)

/-- Where a round adds nothing, no production does. -/
theorem apply_eq_self (h : round g f = f) (hp : p ∈ g.productions) : f.apply p = f := by
  rw [round_eq] at h
  replace hp : p ∈ g.productions.toList := by simpa using hp
  generalize g.productions.toList = ps at h hp
  induction ps with
  | nil => contradiction
  | cons q ps ih =>
    rw [List.foldl_cons] at h
    have hgrows := foldl_apply_grows (f.apply q) ps
    rw [h] at hgrows
    have hq : f.apply q = f := hgrows.antisymm (apply_grows f q)
    rw [hq] at h
    rcases List.mem_cons.mp hp with rfl | hp
    · exact hq
    · exact ih h hp

/-! ## The end of the rounds -/

/-- The facts about a symbol that are not known. -/
def unknown (g : FlatGrammar) (f : FirstSets) (s : Symbol) : Nat :=
  (if f.isNullable s then 0 else 1) + TokenSet.room g.symbols.size (f.firstOf s)

/-- The facts that are not known. -/
def potential (g : FlatGrammar) (f : FirstSets) : Nat :=
  ((List.range g.symbols.size).map (unknown g f)).sum

theorem potential_le (g : FlatGrammar) (f : FirstSets) : potential g f ≤ bound g := by
  have hle : ∀ n ∈ (List.range g.symbols.size).map (unknown g f), n ≤ g.symbols.size + 1 := by
    intro n hn
    obtain ⟨s, -, rfl⟩ := List.mem_map.mp hn
    have := TokenSet.room_le g.symbols.size (f.firstOf s)
    unfold unknown
    split <;> omega
  have hsum := List.sum_le_card_nsmul _ _ hle
  simpa [potential, bound] using hsum

/-- First sets of a grammar: one for every symbol, of tokens. -/
structure Fits (g : FlatGrammar) (f : FirstSets) : Prop where
  nullable_size : f.nullable.size = g.symbols.size
  first_size : f.first.size = g.symbols.size
  tokens : f.Tokens (Basis.ofGrammar g)

theorem Fits.round (h : f.Fits g) : (FirstSets.round g f).Fits g where
  nullable_size := (round_grows g f).nullable_size.trans h.nullable_size
  first_size := (round_grows g f).first_size.trans h.first_size
  tokens := h.tokens.round

theorem Fits.below (h : f.Fits g) (s : Symbol) : (f.firstOf s).Below g.symbols.size := by
  intro t ht
  have hterm := h.tokens s t ht
  rw [Basis.isTerminal_ofGrammar, FlatGrammar.isTerminal] at hterm
  cases hi : g.symbols[t]? with
  | none =>
    rw [hi] at hterm
    contradiction
  | some info => exact (Array.getElem?_eq_some_iff.mp hi).1

theorem union_of_subset {a b : TokenSet} (h : a.subset b = true) : a.union b = b :=
  beq_iff_eq.mp h

/-- New facts make fewer that are not known. -/
theorem Grows.potential_lt (h : f.Grows f') (hf : f.Fits g) (hf' : f'.Fits g) (hne : f' ≠ f) :
    potential g f' < potential g f := by
  have hnot : ¬f'.Grows f := fun h' => hne (h'.antisymm h)
  have hroom (s : Symbol) :
      TokenSet.room g.symbols.size (f'.firstOf s) ≤ TokenSet.room g.symbols.size (f.firstOf s) := by
    rw [← union_of_subset (h.first s)]
    exact TokenSet.room_union_le
  have hnull (s : Symbol) : (if f'.isNullable s then 0 else 1) ≤ if f.isNullable s then 0 else 1 := by
    by_cases hs : f.isNullable s
    · simp [hs, h.nullable s hs]
    · split <;> simp
  -- some symbol has a new fact
  have hnew : ∃ s, f'.isNullable s = true ∧ f.isNullable s = false ∨
      (f'.firstOf s).subset (f.firstOf s) = false := by
    by_contra hall
    refine hnot ⟨h.nullable_size.symm, h.first_size.symm, fun s hs => ?_, fun s => ?_⟩
    · by_contra hn
      exact hall ⟨s, .inl ⟨hs, by simpa using hn⟩⟩
    · by_contra hn
      exact hall ⟨s, .inr (by simpa using hn)⟩
  obtain ⟨s, hs⟩ := hnew
  refine List.sum_lt_sum _ _ (fun s _ => Nat.add_le_add (hnull s) (hroom s)) ⟨s, ?_, ?_⟩
  · rw [List.mem_range]
    by_contra hge
    rcases hs with ⟨hs, -⟩ | hs
    · rw [isNullable, Array.getElem?_eq_none (by rw [hf'.nullable_size]; omega)] at hs
      contradiction
    · rw [firstOf, firstOf, Array.getElem?_eq_none (by rw [hf'.first_size]; omega),
        Array.getElem?_eq_none (by rw [hf.first_size]; omega), Closure.subset_refl] at hs
      contradiction
  · rcases hs with ⟨hs, hs'⟩ | hs
    · refine Nat.add_lt_add_of_lt_of_le ?_ (hroom s)
      simp [hs, hs']
    · refine Nat.add_lt_add_of_le_of_lt (hnull s) ?_
      rw [← union_of_subset (h.first s)]
      exact TokenSet.room_union_lt (hf'.below s) hs

/-- With enough rounds nothing is added any more. -/
theorem round_saturate (fuel : Nat) (hf : f.Fits g) (hfuel : potential g f < fuel) :
    round g (saturate g fuel f) = saturate g fuel f := by
  induction fuel generalizing f with
  | zero => contradiction
  | succ fuel ih =>
    rw [saturate]
    by_cases h : round g f = f
    · simp only [h, if_true]
    · simp only [h, if_false]
      have hlt := (round_grows g f).potential_lt hf hf.round h
      exact ih hf.round (by omega)

theorem start_fits (g : FlatGrammar) : (start g).Fits g where
  nullable_size := by simp [start]
  first_size := by simp [start]
  tokens := start_tokens

/-! ## Completeness -/

/-- First sets to which no production adds anything. -/
structure Closed (g : FlatGrammar) (f : FirstSets) : Prop where
  token : ∀ s, g.isTerminal s = true → (f.firstOf s).contains s = true
  nullable : ∀ p ∈ g.productions, (∀ x ∈ p.rhs, f.isNullable x = true) → f.isNullable p.lhs = true
  first : ∀ p ∈ g.productions,
    (f.firstOfAll TokenSet.empty p.rhs).subset (f.firstOf p.lhs) = true

theorem firstOf_start (h : g.isTerminal s = true) : ((start g).firstOf s).contains s = true := by
  have hlt : s < g.symbols.size := by
    rw [FlatGrammar.isTerminal] at h
    cases hi : g.symbols[s]? with
    | none =>
      rw [hi] at h
      contradiction
    | some info => exact (Array.getElem?_eq_some_iff.mp hi).1
  simp [firstOf, start, hlt, h, TokenSet.contains_singleton]

/-- The first sets of a grammar are closed. -/
theorem ofGrammar_closed (hlhs : ∀ p ∈ g.productions, p.lhs < g.symbols.size) :
    (ofGrammar g).Closed g := by
  have hfits : (ofGrammar g).Fits g := by
    have hgrows := saturate_grows g (bound g + 1) (start g)
    exact ⟨hgrows.nullable_size.trans (start_fits g).nullable_size,
      hgrows.first_size.trans (start_fits g).first_size, ofGrammar_tokens⟩
  have hround : round g (ofGrammar g) = ofGrammar g :=
    round_saturate _ (start_fits g) (Nat.lt_succ_of_le (potential_le g _))
  refine ⟨fun s hs => ?_, fun p hp hall => ?_, fun p hp => ?_⟩
  · exact TokenSet.subset_iff.mp ((saturate_grows g _ (start g)).first s) s (firstOf_start hs)
  · rw [← apply_eq_self hround hp, isNullable, FirstSets.apply, if_pos (List.all_eq_true.mpr hall)]
    simp [hfits.nullable_size, hlhs p hp]
  · have happly := congrArg (fun f => f.firstOf p.lhs) (apply_eq_self hround hp)
    have hsize : p.lhs < (ofGrammar g).first.size := by
      rw [hfits.first_size]
      exact hlhs p hp
    simp only [firstOf, FirstSets.apply, Array.getElem?_modify, if_true,
      Array.getElem?_eq_getElem hsize, Option.map_some, Option.getD_some] at happly
    rw [firstOf, Array.getElem?_eq_getElem hsize, Option.getD_some, ← happly]
    exact Closure.subset_union_left _ _

/-- What some symbols turn into begins with a token of their first set, or with one that
follows if they turn into nothing.  Any symbols `T` may stay as they are. -/
theorem Closed.contains_firstOfAll (hf : f.Closed g) {T : Symbol → Prop} {xs w : List Symbol}
    (h : Glr.Derives T (· ∈ g.productions) xs w) :
    (w = [] → ∀ x ∈ xs, f.isNullable x = true) ∧
      ∀ follow a, w.head? = some a ∧ g.isTerminal a = true ∨ w = [] ∧ follow.contains a = true →
        (f.firstOfAll follow xs).contains a = true := by
  induction h with
  | nil => simp [FirstSets.firstOfAll]
  | @token x xs w _ _ _ =>
    refine ⟨by simp, fun follow a ha => ?_⟩
    obtain ⟨rfl, hx⟩ : x = a ∧ g.isTerminal a = true := by simpa using ha
    have hfirst := hf.token x hx
    rw [FirstSets.firstOfAll]
    split
    · rw [TokenSet.contains_union, hfirst, Bool.true_or]
    · exact hfirst
  | @rule p xs u w hp _ _ ihu ih =>
    obtain ⟨hnull, hfirst⟩ := ihu
    obtain ⟨hnull', hfirst'⟩ := ih
    have hlhs (hu : u = []) : f.isNullable p.lhs = true := hf.nullable p hp (hnull hu)
    refine ⟨fun huw => ?_, fun follow a ha => ?_⟩
    · obtain ⟨hu, hw⟩ := List.append_eq_nil_iff.mp huw
      intro x hx
      rcases List.mem_cons.mp hx with rfl | hx
      · exact hlhs hu
      · exact hnull' hw x hx
    · rw [FirstSets.firstOfAll]
      cases hu : u with
      | nil =>
        rw [hu, List.nil_append] at ha
        rw [if_pos (hlhs hu), TokenSet.contains_union, hfirst' follow a ha, Bool.or_true]
      | cons b u' =>
        obtain ⟨rfl, hterm⟩ : b = a ∧ g.isTerminal a = true := by simpa [hu] using ha
        have hb : (f.firstOf p.lhs).contains b = true :=
          TokenSet.subset_iff.mp (hf.first p hp) b
            (hfirst TokenSet.empty b (.inl ⟨by simp [hu], hterm⟩))
        split
        · rw [TokenSet.contains_union, hb, Bool.true_or]
        · exact hb

/-- What some symbols derive begins with a token of their first set, or with one that
follows if they derive nothing. -/
theorem Closed.firstOfAll (hf : f.Closed g) {xs w : List Symbol} (h : g.Derives xs w) :
    (w = [] → ∀ x ∈ xs, f.isNullable x = true) ∧
      ∀ follow a, w.head? = some a ∨ w = [] ∧ follow.contains a = true →
        (f.firstOfAll follow xs).contains a = true := by
  obtain ⟨hnull, hfirst⟩ := hf.contains_firstOfAll h
  refine ⟨hnull, fun follow a ha => hfirst follow a (ha.imp_left fun ha => ⟨ha, ?_⟩)⟩
  exact FlatGrammar.isTerminal_of_isToken (h.tokens a (List.mem_of_head? ha))

/-! ## Tokens -/

theorem apply_of_ne (f : FirstSets) (h : p.lhs ≠ s) :
    (f.apply p).isNullable s = f.isNullable s ∧ (f.apply p).firstOf s = f.firstOf s := by
  refine ⟨?_, ?_⟩
  · unfold apply isNullable
    split
    · simp only [Array.getElem?_setIfInBounds, if_neg h]
    · rfl
  · unfold apply firstOf
    simp only [Array.getElem?_modify, if_neg h]

/-- Of a symbol without productions nothing is learnt. -/
theorem ofGrammar_of_ne (h : ∀ p ∈ g.productions, p.lhs ≠ s) :
    (ofGrammar g).isNullable s = (start g).isNullable s ∧
      (ofGrammar g).firstOf s = (start g).firstOf s := by
  have hfold (ps : List Production) (hps : ∀ p ∈ ps, p.lhs ≠ s) (f : FirstSets) :
      (ps.foldl apply f).isNullable s = f.isNullable s ∧
        (ps.foldl apply f).firstOf s = f.firstOf s := by
    induction ps generalizing f with
    | nil => exact ⟨rfl, rfl⟩
    | cons p ps ih =>
      obtain ⟨hp, hps⟩ := List.forall_mem_cons.mp hps
      obtain ⟨hn, hf⟩ := ih hps (f.apply p)
      obtain ⟨hn', hf'⟩ := apply_of_ne f hp
      exact ⟨hn.trans hn', hf.trans hf'⟩
  have hsaturate (fuel : Nat) (f : FirstSets) :
      (saturate g fuel f).isNullable s = f.isNullable s ∧
        (saturate g fuel f).firstOf s = f.firstOf s := by
    induction fuel generalizing f with
    | zero => exact ⟨rfl, rfl⟩
    | succ fuel ih =>
      unfold saturate
      simp only
      split
      · exact ⟨rfl, rfl⟩
      · obtain ⟨hn, hf⟩ := ih (round g f)
        obtain ⟨hn', hf'⟩ := hfold g.productions.toList (fun p hp => h p (by simpa using hp)) f
        rw [← round_eq] at hn' hf'
        exact ⟨hn.trans hn', hf.trans hf'⟩
  exact hsaturate _ _

/-- Where a token comes first, nothing else does. -/
theorem firstOfAll_token (ht : g.isTerminal s = true) (h : ∀ p ∈ g.productions, p.lhs ≠ s)
    (follow : TokenSet) (rest : List Symbol) :
    (ofGrammar g).firstOfAll follow (s :: rest) = TokenSet.singleton s := by
  have hlt : s < g.symbols.size := by
    rw [FlatGrammar.isTerminal] at ht
    cases hi : g.symbols[s]? with
    | none => simp [hi] at ht
    | some info => exact (Array.getElem?_eq_some_iff.mp hi).1
  obtain ⟨hn, hf⟩ := ofGrammar_of_ne h
  rw [firstOfAll, hn, hf]
  simp [isNullable, firstOf, start, hlt, ht]

end Glr.Automaton.FirstSets
