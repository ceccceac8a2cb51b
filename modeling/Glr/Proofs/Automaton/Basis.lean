import Glr.Automaton.Closure
import Glr.Proofs.FlatGrammar.Flattened
import Mathlib.Algebra.Ring.Nat

/-!
# Glr.Proofs.Automaton.Basis

What the construction of the automaton looks up, for a well-formed grammar: the
productions by number and by left-hand side, the tokens and their bound, and
first sets, which hold nothing but tokens.
-/

namespace Glr

namespace TokenSet

/-! ## Bounded sets -/

/-- All elements are below a bound. -/
def Below (count : Nat) (a : TokenSet) : Prop := ∀ t, a.contains t = true → t < count

variable {count : Nat} {a b : TokenSet}

theorem Below.lt_two_pow (h : Below count a) : a < 2 ^ count := by
  refine Nat.lt_pow_two_of_testBit a fun i hi => ?_
  cases hc : a.testBit i with
  | false => rfl
  | true =>
    have := h i hc
    omega

/-- How many tokens below a bound are missing. -/
def room (count : Nat) (a : TokenSet) : Nat := (List.range count).countP fun t => !a.contains t

theorem room_le (count : Nat) (a : TokenSet) : room count a ≤ count := by
  have := List.countP_le_length (p := fun t => !a.contains t) (l := List.range count)
  rwa [List.length_range] at this

theorem room_union_le : room count (a.union b) ≤ room count a := by
  refine List.countP_mono_left fun t _ ht => ?_
  rw [contains_union] at ht
  cases ha : a.contains t with
  | false => rfl
  | true =>
    rw [ha] at ht
    contradiction

theorem countP_lt_countP {α : Type} {p q : α → Bool} {l : List α}
    (h : ∀ x ∈ l, p x = true → q x = true) {x : α} (hx : x ∈ l) (hp : p x = false)
    (hq : q x = true) : l.countP p < l.countP q := by
  obtain ⟨l₁, l₂, rfl⟩ := List.append_of_mem hx
  have h₁ : l₁.countP p ≤ l₁.countP q := List.countP_mono_left fun y hy => h y (by simp [hy])
  have h₂ : l₂.countP p ≤ l₂.countP q := List.countP_mono_left fun y hy => h y (by simp [hy])
  simp only [List.countP_append, List.countP_cons, hp, hq]
  simp only [Bool.false_eq_true, if_false, if_true]
  omega

/-- A set that gets new elements has less room. -/
theorem room_union_lt (hb : Below count b) (h : b.subset a = false) :
    room count (a.union b) < room count a := by
  have hn : ¬∀ t, b.contains t = true → a.contains t = true := by
    rw [← subset_iff, h]
    exact Bool.false_ne_true
  obtain ⟨t, ht⟩ := Classical.not_forall.mp hn
  obtain ⟨htb, hta⟩ := Classical.not_imp.mp ht
  refine countP_lt_countP (fun s _ hs => ?_) (List.mem_range.mpr (hb t htb)) ?_ (by simpa using hta)
  · rw [contains_union, Bool.not_or, Bool.and_eq_true] at hs
    exact hs.1
  · rw [contains_union, htb, Bool.or_true]
    rfl

end TokenSet

namespace Automaton

/-! ## Tokens -/

namespace Basis

theorem lt_countTerminals {g : FlatGrammar} {s : Symbol} (h : g.isTerminal s = true) :
    s < countTerminals g := by
  have hlt : s < g.symbols.size := by
    unfold FlatGrammar.isTerminal at h
    cases hs : g.symbols[s]? with
    | none =>
      rw [hs] at h
      contradiction
    | some info => exact (Array.getElem?_eq_some_iff.mp hs).1
  -- the fold never goes down, and comes past `s`
  have mono (l : List Symbol) (n : Nat) (hl : l.Pairwise (· < ·)) (hn : ∀ x ∈ l, n ≤ x) :
      (∀ x ∈ l, g.isTerminal x = true →
        x < l.foldl (fun n s => if g.isTerminal s then s + 1 else n) n)
      ∧ n ≤ l.foldl (fun n s => if g.isTerminal s then s + 1 else n) n := by
    induction l generalizing n with
    | nil => simp
    | cons x rest ih =>
      obtain ⟨hx, hrest⟩ := List.pairwise_cons.mp hl
      have hnx := hn x (by simp)
      rw [List.foldl_cons]
      cases ht : g.isTerminal x with
      | true =>
        obtain ⟨h₁, h₂⟩ := ih (x + 1) hrest fun y hy => hx y hy
        simp only [if_true]
        refine ⟨fun y hy hy' => ?_, by omega⟩
        rcases List.mem_cons.mp hy with rfl | hy
        · exact h₂
        · exact h₁ y hy hy'
      | false =>
        obtain ⟨h₁, h₂⟩ := ih n hrest fun y hy => hn y (by simp [hy])
        simp only [Bool.false_eq_true, if_false]
        refine ⟨fun y hy hy' => ?_, h₂⟩
        rcases List.mem_cons.mp hy with rfl | hy
        · rw [ht] at hy'
          contradiction
        · exact h₁ y hy hy'
  exact (mono (List.range g.symbols.size) 0 List.pairwise_lt_range (by simp)).1 s
    (List.mem_range.mpr hlt) h

variable {g : FlatGrammar} {s : Symbol}

/-- The tokens of the construction are those of the grammar. -/
theorem isTerminal_ofGrammar : (ofGrammar g).isTerminal s = g.isTerminal s := by
  unfold isTerminal
  show (decide (s < max 1 (countTerminals g)) && g.isTerminal s) = _
  cases ht : g.isTerminal s with
  | false => simp
  | true =>
    have hlt : s < max 1 (countTerminals g) :=
      Nat.lt_of_lt_of_le (lt_countTerminals ht) (Nat.le_max_right _ _)
    simp [hlt]

theorem isTerminal_lt {b : Basis} (h : b.isTerminal s = true) : s < b.terminalCount := by
  unfold isTerminal at h
  rw [Bool.and_eq_true, decide_eq_true_eq] at h
  exact h.1

/-- All elements of a set are tokens. -/
def Tokens (b : Basis) (a : TokenSet) : Prop := ∀ t, a.contains t = true → b.isTerminal t = true

section

variable {b : Basis} {a a' : TokenSet} {t : Symbol}

theorem tokens_empty : b.Tokens TokenSet.empty := by
  intro t ht
  rw [TokenSet.contains_empty] at ht
  contradiction

theorem tokens_singleton (h : b.isTerminal t = true) : b.Tokens (TokenSet.singleton t) := by
  intro s hs
  rw [TokenSet.contains_singleton, decide_eq_true_eq] at hs
  exact hs ▸ h

theorem Tokens.union (ha : b.Tokens a) (ha' : b.Tokens a') : b.Tokens (a.union a') := by
  intro t ht
  rw [TokenSet.contains_union, Bool.or_eq_true] at ht
  exact ht.elim (ha t) (ha' t)

theorem Tokens.insert (ha : b.Tokens a) (h : b.isTerminal t = true) : b.Tokens (a.insert t) :=
  ha.union (tokens_singleton h)

theorem Tokens.below (ha : b.Tokens a) : a.Below b.terminalCount :=
  fun t ht => isTerminal_lt (ha t ht)

end

/-! ## Productions -/

theorem rhs_zero : (ofGrammar g).rhs[0]? = some [g.start] := by
  show (#[[g.start]] ++ g.productions.map Production.rhs)[0]? = _
  rw [Array.getElem?_append_left (by simp)]
  rfl

theorem rhs_succ (p : Nat) :
    (ofGrammar g).rhs[p + 1]? = g.productions[p]?.map Production.rhs := by
  show (#[[g.start]] ++ g.productions.map Production.rhs)[p + 1]? = _
  rw [Array.getElem?_append_right (by simp)]
  simp

theorem size_rhs : (ofGrammar g).rhs.size = g.productions.size + 1 := by
  simp [ofGrammar]
  omega

theorem production?_succ (p : Nat) : (ofGrammar g).production? (p + 1) = g.productions[p]? := rfl

/-- Each production is listed at its left-hand side. -/
theorem mem_byLhs {q : Nat} (h : q ∈ (ofGrammar g).byLhs[s]?.getD []) :
    ∃ p, q = p + 1 ∧ ∃ prod, g.productions[p]? = some prod ∧ prod.lhs = s := by
  have key (l : List (Production × Nat)) (lists : Array (List Nat)) :
      q ∈ (l.foldl (fun lists p => lists.modify p.1.lhs (· ++ [p.2 + 1])) lists)[s]?.getD [] →
        q ∈ lists[s]?.getD [] ∨ ∃ e ∈ l, e.1.lhs = s ∧ q = e.2 + 1 := by
    induction l generalizing lists with
    | nil => exact .inl
    | cons e rest ih =>
      intro hq
      rw [List.foldl_cons] at hq
      rcases ih _ hq with hq | ⟨e', he', hq⟩
      · rw [Array.getElem?_modify] at hq
        split at hq
        · rename_i hs
          cases hl : lists[s]? with
          | none => simp [hl] at hq
          | some old =>
            simp only [hl, Option.map_some, Option.getD_some, List.mem_append,
              List.mem_singleton] at hq
            rcases hq with hq | hq
            · exact .inl (by simpa using hq)
            · exact .inr ⟨e, by simp, hs, hq⟩
        · exact .inl hq
      · exact .inr ⟨e', by simp [he'], hq⟩
  rcases key g.productions.toList.zipIdx (Array.replicate g.symbols.size []) h with h | h
  · rw [Array.getElem?_replicate] at h
    split at h <;> simp at h
  · obtain ⟨e, he, hs, hq⟩ := h
    refine ⟨e.2, hq, e.1, ?_, hs⟩
    have := List.mem_zipIdx_iff_getElem?.mp he
    simpa using this

/-- A production is listed, where its left-hand side is a symbol. -/
theorem mem_byLhs_of_production {p : Nat} {prod : Production} (h : g.productions[p]? = some prod)
    (hlt : prod.lhs < g.symbols.size) : p + 1 ∈ (ofGrammar g).byLhs[prod.lhs]?.getD [] := by
  have key (l : List (Production × Nat)) (lists : Array (List Nat))
      (hsize : lists.size = g.symbols.size)
      (h : p + 1 ∈ lists[prod.lhs]?.getD [] ∨ (prod, p) ∈ l) :
      p + 1 ∈ (l.foldl (fun lists p => lists.modify p.1.lhs (· ++ [p.2 + 1])) lists)[prod.lhs]?.getD
        [] := by
    induction l generalizing lists with
    | nil => exact h.resolve_right (by simp)
    | cons e rest ih =>
      rw [List.foldl_cons]
      refine ih _ (by rw [Array.size_modify, hsize]) ?_
      rw [List.mem_cons, or_left_comm] at h
      have hget := Array.getElem?_eq_getElem (show prod.lhs < lists.size by rw [hsize]; exact hlt)
      rcases h with rfl | h
      · left
        simp [Array.getElem?_modify, hget]
      · refine h.imp_left fun h => ?_
        rw [hget, Option.getD_some] at h
        rw [Array.getElem?_modify, hget]
        split <;> simp [h]
  refine key g.productions.toList.zipIdx _ Array.size_replicate (.inr ?_)
  rw [List.mem_zipIdx_iff_getElem?]
  simpa using h

end Basis

/-! ## First sets -/

namespace FirstSets

variable {g : FlatGrammar} {f : FirstSets} {b : Basis}

/-- Every first set is one of tokens. -/
def Tokens (b : Basis) (f : FirstSets) : Prop := ∀ s, b.Tokens (f.firstOf s)

theorem Tokens.firstOfAll (h : f.Tokens b) {follow : TokenSet} (hf : b.Tokens follow)
    (symbols : List Symbol) : b.Tokens (f.firstOfAll follow symbols) := by
  induction symbols with
  | nil => exact hf
  | cons s rest ih =>
    unfold FirstSets.firstOfAll
    split
    · exact (h s).union ih
    · exact h s

theorem Tokens.apply (h : f.Tokens b) (p : Production) : (f.apply p).Tokens b := by
  intro s
  unfold firstOf FirstSets.apply
  simp only [Array.getElem?_modify]
  have hs := h s
  unfold firstOf at hs
  split
  · cases hi : f.first[s]? with
    | none => exact Basis.tokens_empty
    | some t =>
      rw [hi] at hs
      exact (h.firstOfAll Basis.tokens_empty _).union hs
  · exact hs

theorem Tokens.round (h : f.Tokens b) : (round g f).Tokens b := by
  unfold FirstSets.round
  rw [← Array.foldl_toList]
  generalize g.productions.toList = ps
  induction ps generalizing f with
  | nil => exact h
  | cons p rest ih => exact ih (h.apply p)

theorem Tokens.saturate (h : f.Tokens b) (fuel : Nat) : (saturate g fuel f).Tokens b := by
  induction fuel generalizing f with
  | zero => exact h
  | succ fuel ih =>
    unfold FirstSets.saturate
    simp only
    split
    · exact h
    · exact ih h.round

theorem start_tokens : (start g).Tokens (Basis.ofGrammar g) := by
  intro s
  unfold firstOf start
  cases hs : (List.range g.symbols.size)[s]? with
  | none => simpa [hs] using Basis.tokens_empty
  | some x =>
    obtain ⟨hlt, rfl⟩ := List.getElem?_eq_some_iff.mp hs
    simp only [List.getElem?_toArray, List.getElem?_map, hs, Option.map_some, Option.getD_some]
    split
    · rename_i ht
      exact Basis.tokens_singleton (Basis.isTerminal_ofGrammar.trans ht)
    · exact Basis.tokens_empty

theorem ofGrammar_tokens : (ofGrammar g).Tokens (Basis.ofGrammar g) := start_tokens.saturate _

end FirstSets

/-! ## Soundness -/

/-- What the construction relies on. -/
structure Basis.Sound (b : Basis) : Prop where
  endToken : b.isTerminal endSymbol = true
  first : b.firstSets.Tokens b
  /-- What is listed at a symbol is a production, but not `S' → start`. -/
  byLhs : ∀ s : Symbol, ∀ p ∈ b.byLhs[s]?.getD [], 0 < p ∧ p < b.rhs.size

theorem Basis.ofGrammar_sound {g : FlatGrammar} (hg : g.WellFormed) :
    (Basis.ofGrammar g).Sound where
  endToken := by
    obtain ⟨info, hi, hk⟩ := hg.first
    rw [isTerminal_ofGrammar, FlatGrammar.isTerminal, hi]
    simp [hk, SymbolKind.isTerminal]
  first := FirstSets.ofGrammar_tokens
  byLhs := by
    intro s q hq
    obtain ⟨p, rfl, prod, hp, -⟩ := mem_byLhs hq
    have := (Array.getElem?_eq_some_iff.mp hp).1
    rw [size_rhs]
    omega

end Automaton

end Glr
