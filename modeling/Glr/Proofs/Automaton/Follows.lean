import Glr.Proofs.Automaton.First
import Glr.Proofs.Automaton.Lookahead

/-!
# Glr.Proofs.Automaton.Follows

The lookaheads of a closure, one by one.  A token follows a production that a kernel implies
where it can come first after it, or where it follows the production that asks for it and
nothing need come between:

```
[A → α . B β]  implied,  c ∈ first β                    ⟹  c follows [B → . γ]
a follows [A → α . B β],  every symbol of β nullable    ⟹  a follows [B → . γ]
```

Nothing in this joins two tokens, so the closure of a kernel with the lookaheads of two kernels
has the lookaheads of both closures and no more, and the same goes for the valid tokens.
-/

namespace Glr.Automaton

namespace Closure

variable {b : Basis} {Q : LookItem → Prop} {items : Array LookItem} {s s' : State}
  {follow : TokenSet} {p : Nat}

/-! ## What holds of every item of a closure -/

theorem Demanded.forall (h : Demanded follow p s s')
    (hunion : ∀ x l l', Q ⟨x, l⟩ → Q ⟨x, l'⟩ → Q ⟨x, l.union l'⟩)
    (hs : ∀ i ∈ s.items, Q i) (hp : Q ⟨⟨p, 0⟩, follow⟩) : ∀ i ∈ s'.items, Q i := by
  intro i hi
  obtain ⟨place, hplace⟩ := Array.getElem?_of_mem hi
  cases h with
  | has => exact hs i hi
  | widen place' old hold hitem =>
    replace hplace : (s.items.modify place' _)[place]? = some i := hplace
    rw [Array.getElem?_modify] at hplace
    split at hplace
    · rename_i he
      subst he
      rw [hold] at hplace
      obtain rfl := Option.some.inj hplace
      exact hunion _ _ _ (hs old (Array.mem_of_getElem? hold)) (hitem ▸ hp)
    · exact hs i (Array.mem_of_getElem? hplace)
  | add =>
    rcases Array.mem_push.mp hi with hi | rfl
    · exact hs i hi
    · exact hp

/-- What holds of some items and is passed on by demands holds of all that come up. -/
theorem run_forall
    (hunion : ∀ x l l', Q ⟨x, l⟩ → Q ⟨x, l'⟩ → Q ⟨x, l.union l'⟩)
    (hdemand : ∀ i ps follow, Q i → b.expands i = some (ps, follow) →
      ∀ p ∈ ps, Q ⟨⟨p, 0⟩, follow⟩)
    (fuel : Nat) {pending : List Nat} (h : ∀ i ∈ items, Q i) :
    ∀ i ∈ run b fuel pending items, Q i := by
  have hdemands {follow : TokenSet} (ps : List Nat) (hps : ∀ p ∈ ps, Q ⟨⟨p, 0⟩, follow⟩)
      (s : State) (hs : ∀ i ∈ s.items, Q i) : ∀ i ∈ (ps.foldl (demand follow) s).items, Q i := by
    induction ps generalizing s with
    | nil => exact hs
    | cons p ps ih =>
      exact ih (fun q hq => hps q (by simp [hq])) _ ((demanded follow p s).forall hunion hs (hps p (by simp)))
  have hvisits (places : List Nat) (s : State) (hs : ∀ i ∈ s.items, Q i) :
      ∀ i ∈ (places.foldl (visit b) s).items, Q i := by
    induction places generalizing s with
    | nil => exact hs
    | cons place places ih =>
      refine ih _ ?_
      unfold visit
      cases hi : s.items[place]? with
      | none => exact hs
      | some i =>
        cases he : b.expands i with
        | none => simpa [he] using hs
        | some d =>
          simp only [Option.bind_some, he]
          exact hdemands d.1 (hdemand i d.1 d.2 (hs i (Array.mem_of_getElem? hi)) he) s hs
  induction fuel generalizing pending items with
  | zero => exact h
  | succ fuel ih =>
    unfold run
    split
    · exact h
    · exact ih (hvisits pending ⟨items, #[]⟩ h)

end Closure

/-! ## What follows an item -/

/-- A token may follow the production of an item in the closure of a kernel. -/
inductive Follows (b : Basis) (k : Kernel) : Item → Symbol → Prop where
  | kernel {i : LookItem} {t : Symbol} (hi : i ∈ k) (ht : i.lookahead.contains t = true) :
      Follows b k i.item t
  | first {x : Item} {y : Symbol} {rest : List Symbol} {p : Nat} {t : Symbol}
      (hx : Implied b (core k) x) (ha : b.after x = y :: rest) (hy : b.isTerminal y = false)
      (hp : p ∈ b.byLhs[y]?.getD [])
      (ht : (b.firstSets.firstOfAll TokenSet.empty rest).contains t = true) :
      Follows b k ⟨p, 0⟩ t
  | inherit {x : Item} {y : Symbol} {rest : List Symbol} {p : Nat} {t : Symbol}
      (hx : Follows b k x t) (ha : b.after x = y :: rest) (hy : b.isTerminal y = false)
      (hp : p ∈ b.byLhs[y]?.getD []) (hn : ∀ z ∈ rest, b.firstSets.isNullable z = true) :
      Follows b k ⟨p, 0⟩ t

variable {b : Basis} {k k' : Kernel} {x : Item} {t : Symbol}

theorem Follows.implied (h : Follows b k x t) : Implied b (core k) x := by
  induction h with
  | kernel hi => exact .kernel (List.mem_map_of_mem hi)
  | first hx ha hy hp => exact .demand hx (Basis.next?_of_after ha) hy hp
  | inherit _ ha hy hp _ ih => exact .demand ih (Basis.next?_of_after ha) hy hp

/-- A token comes first after some symbols, or follows them where they are all nullable. -/
theorem FirstSets.contains_firstOfAll {f : FirstSets} {follow : TokenSet} {symbols : List Symbol} :
    (f.firstOfAll follow symbols).contains t = true ↔
      (f.firstOfAll TokenSet.empty symbols).contains t = true ∨
        (∀ z ∈ symbols, f.isNullable z = true) ∧ follow.contains t = true := by
  induction symbols with
  | nil => simp [firstOfAll, TokenSet.contains_empty]
  | cons z symbols ih =>
    unfold firstOfAll
    cases hz : f.isNullable z with
    | true => simp [TokenSet.contains_union, ih, hz, or_assoc]
    | false => simp [hz]

namespace Basis

theorem expands_eq_some_iff {i : LookItem} {ps : List Nat} {follow : TokenSet} :
    b.expands i = some (ps, follow) ↔ ∃ y rest, b.after i.item = y :: rest ∧
      b.isTerminal y = false ∧ ps = b.byLhs[y]?.getD [] ∧
      follow = b.firstSets.firstOfAll i.lookahead rest := by
  unfold expands
  cases ha : b.after i.item with
  | nil => simp
  | cons y rest =>
    cases hy : b.isTerminal y with
    | true => simp [hy]
    | false => simp [hy, and_comm, @eq_comm _ ps, @eq_comm _ follow]

/-- The lookaheads of a closure are the tokens that follow its items. -/
theorem exists_mem_closure_iff (hb : b.Sound) (hk : ∀ i ∈ k, b.Tokens i.lookahead) :
    (∃ i ∈ b.closure k, i.item = x ∧ i.lookahead.contains t = true) ↔ Follows b k x t := by
  constructor
  · rintro ⟨i, hi, rfl, ht⟩
    have hall : ∀ i ∈ (b.closure k).toArray, Implied b (core k) i.item ∧
        ∀ t, i.lookahead.contains t = true → Follows b k i.item t := by
      unfold closure
      rw [Array.toArray_toList]
      refine Closure.run_forall (Q := fun i => Implied b (core k) i.item ∧
          ∀ t, i.lookahead.contains t = true → Follows b k i.item t)
        (fun x l l' hl hl' => ⟨hl.1, fun t ht => ?_⟩) (fun i ps follow hi he p hp => ?_) _
        fun i hi => ?_
      · rw [TokenSet.contains_union, Bool.or_eq_true] at ht
        exact ht.elim (hl.2 t) (hl'.2 t)
      · obtain ⟨y, rest, ha, hy, rfl, rfl⟩ := expands_eq_some_iff.mp he
        refine ⟨.demand hi.1 (next?_of_after ha) hy hp, fun t ht => ?_⟩
        rcases FirstSets.contains_firstOfAll.mp ht with ht | ⟨hn, ht⟩
        · exact .first hi.1 ha hy hp ht
        · exact .inherit (hi.2 t ht) ha hy hp hn
      · have hi : i ∈ k := by simpa using hi
        exact ⟨.kernel (List.mem_map_of_mem hi), fun t ht => .kernel hi ht⟩
    exact (hall i (by simpa using hi)).2 t ht
  · have hresult := closure_result hb hk
    -- what an item of the closure asks for is there, with all that can follow it
    have hasked {i : LookItem} {y : Symbol} {rest : List Symbol} {p : Nat} {t : Symbol}
        (hi : i ∈ b.closure k) (ha : b.after i.item = y :: rest) (hy : b.isTerminal y = false)
        (hp : p ∈ b.byLhs[y]?.getD [])
        (ht : (b.firstSets.firstOfAll i.lookahead rest).contains t = true) :
        ∃ j ∈ b.closure k, j.item = ⟨p, 0⟩ ∧ j.lookahead.contains t = true := by
      obtain ⟨j, hj, hitem, hsubset⟩ := hresult.satisfied i (by simpa using hi) _ _
        (expands_eq_some_iff.mpr ⟨y, rest, ha, hy, rfl, rfl⟩) p hp
      exact ⟨j, by simpa using hj, hitem, TokenSet.subset_iff.mp hsubset t ht⟩
    intro h
    induction h with
    | kernel hi ht =>
      obtain ⟨n, hn⟩ := List.getElem?_of_mem hi
      obtain ⟨j, hj, hitem, hsubset⟩ := hresult.grows n _ (by simpa using hn)
      exact ⟨j, by simpa using Array.mem_of_getElem? hj, hitem,
        TokenSet.subset_iff.mp hsubset _ ht⟩
    | first hx ha hy hp ht =>
      obtain ⟨i, hi, rfl⟩ := (mem_closure_iff hb hk).mpr hx
      exact hasked hi ha hy hp (FirstSets.contains_firstOfAll.mpr (.inl ht))
    | inherit _ ha hy hp hn ih =>
      obtain ⟨i, hi, rfl, ht⟩ := ih
      exact hasked hi ha hy hp (FirstSets.contains_firstOfAll.mpr (.inr ⟨hn, ht⟩))

/-- The valid tokens are those at the position of an item, and those that follow an item at
its end. -/
theorem contains_validTerminals_iff (hb : b.Sound) (hk : ∀ i ∈ k, b.Tokens i.lookahead) :
    (b.validTerminals k).contains t = true ↔
      (b.isTerminal t = true ∧ ∃ x, Implied b (core k) x ∧ b.next? x = some t) ∨
        ∃ x, b.next? x = none ∧ Follows b k x t := by
  have key (l : List LookItem) (a : TokenSet) :
      TokenSet.contains (l.foldl b.addValid a) t = true ↔
      a.contains t = true ∨ ∃ i ∈ l, b.isTerminal t = true ∧ b.next? i.item = some t ∨
        b.next? i.item = none ∧ i.lookahead.contains t = true := by
    induction l generalizing a with
    | nil => simp
    | cons i rest ih =>
      rw [List.foldl_cons, ih, List.exists_mem_cons_iff, ← or_assoc, addValid]
      refine or_congr_left ?_
      cases hn : b.next? i.item with
      | none => simp [TokenSet.contains_union]
      | some s =>
        cases hs : b.isTerminal s with
        | true =>
          simp only [hs, if_true, TokenSet.contains_insert, Bool.or_eq_true, decide_eq_true_eq,
            Option.some.injEq, reduceCtorEq, false_and, or_false]
          exact or_congr_right ⟨fun he => ⟨he ▸ hs, he⟩, And.right⟩
        | false =>
          simp only [hs, Bool.false_eq_true, if_false, Option.some.injEq, reduceCtorEq, false_and,
            or_false]
          refine (or_iff_left ?_).symm
          rintro ⟨ht, rfl⟩
          rw [hs] at ht
          contradiction
  rw [validTerminals_eq, key, TokenSet.contains_empty]
  constructor
  · rintro (h | ⟨i, hi, ⟨ht, hn⟩ | ⟨hn, ht⟩⟩)
    · contradiction
    · exact .inl ⟨ht, i.item, (mem_closure_iff hb hk).mp ⟨i, hi, rfl⟩, hn⟩
    · exact .inr ⟨i.item, hn, (exists_mem_closure_iff hb hk).mp ⟨i, hi, rfl, ht⟩⟩
  · rintro (⟨ht, x, hx, hn⟩ | ⟨x, hn, hx⟩)
    · obtain ⟨i, hi, rfl⟩ := (mem_closure_iff hb hk).mpr hx
      exact .inr ⟨i, hi, .inl ⟨ht, hn⟩⟩
    · obtain ⟨i, hi, rfl, ht⟩ := (exists_mem_closure_iff hb hk).mpr hx
      exact .inr ⟨i, hi, .inr ⟨hn, ht⟩⟩

end Basis

/-- The tokens that an item stands before in a state are those that follow it there. -/
theorem ItemSets.stands_iff_follows {s : ItemSets} {q : StateId} (hb : b.Sound) (h : Inv b s)
    (hk : s.kernels[q]? = some k) : Stands b s q x t ↔ Follows b k x t := by
  rw [← Basis.exists_mem_closure_iff hb (h.kernels q k hk).tokens]
  constructor
  · rintro ⟨k', i, hk', hi⟩
    obtain rfl := Option.some.inj (hk.symm.trans hk')
    exact ⟨i, hi⟩
  · rintro ⟨i, hi⟩
    exact ⟨k, i, hk, hi⟩

/-! ## Kernels with more lookaheads -/

theorem Follows.mono (h : k.Covers k') (hx : Follows b k' x t) : Follows b k x t := by
  induction hx with
  | kernel hi ht =>
    obtain ⟨j, hj, hitem, hsubset⟩ := h.exists_mem hi
    rw [← hitem]
    exact .kernel hj (TokenSet.subset_iff.mp hsubset _ ht)
  | first hx ha hy hp ht => exact .first (h.core ▸ hx) ha hy hp ht
  | inherit _ ha hy hp hn ih => exact .inherit ih ha hy hp hn

/-- What follows in a merged kernel follows in one of the two. -/
theorem follows_merge_iff (h : core k = core k') :
    Follows b (mergeLookaheads k k') x t ↔ Follows b k x t ∨ Follows b k' x t := by
  have hcore := core_mergeLookaheads h
  obtain ⟨hleft, hright⟩ := covers_mergeLookaheads h
  refine ⟨fun hx => ?_, fun hx => hx.elim (.mono hleft) (.mono hright)⟩
  induction hx with
  | @kernel i t hi ht =>
    obtain ⟨n, hn⟩ := List.getElem?_of_mem hi
    rw [getElem?_mergeLookaheads, Option.bind_eq_some_iff] at hn
    obtain ⟨j, hj, hn⟩ := hn
    obtain ⟨j', hj', rfl⟩ := Option.map_eq_some_iff.mp hn
    have hitem : j'.item = j.item := by
      have hcore := congrArg (·[n]?) h
      simpa [core, hj, hj'] using hcore.symm
    rw [TokenSet.contains_union, Bool.or_eq_true] at ht
    rcases ht with ht | ht
    · exact .inl (Follows.kernel (i := j) (List.mem_of_getElem? hj) ht)
    · exact .inr (hitem ▸ Follows.kernel (i := j') (List.mem_of_getElem? hj') ht)
  | first hx ha hy hp ht => exact .inl (.first (hcore ▸ hx) ha hy hp ht)
  | inherit _ ha hy hp hn ih =>
    exact ih.imp (.inherit · ha hy hp hn) (.inherit · ha hy hp hn)

namespace Basis

theorem validTerminals_mono (hb : b.Sound) (hk : ∀ i ∈ k, b.Tokens i.lookahead)
    (hk' : ∀ i ∈ k', b.Tokens i.lookahead) (h : k.Covers k') :
    (b.validTerminals k').subset (b.validTerminals k) = true := by
  refine TokenSet.subset_iff.mpr fun t ht => ?_
  rw [contains_validTerminals_iff hb hk'] at ht
  rw [contains_validTerminals_iff hb hk, h.core]
  exact ht.imp_right fun ⟨x, hn, hx⟩ => ⟨x, hn, hx.mono h⟩

/-- The valid tokens of a merged kernel are those of the two kernels. -/
theorem validTerminals_merge (hb : b.Sound) (hk : ∀ i ∈ k, b.Tokens i.lookahead)
    (hk' : ∀ i ∈ k', b.Tokens i.lookahead) (h : core k = core k') :
    b.validTerminals (mergeLookaheads k k') = (b.validTerminals k).union (b.validTerminals k') := by
  obtain ⟨hleft, hright⟩ := covers_mergeLookaheads h
  have hmerged := tokens_mergeLookaheads hk hk'
  refine FirstSets.subset_antisymm (TokenSet.subset_iff.mpr fun t ht => ?_)
    (TokenSet.subset_iff.mpr fun t ht => ?_)
  · rw [contains_validTerminals_iff hb hmerged, core_mergeLookaheads h] at ht
    rw [TokenSet.contains_union, Bool.or_eq_true, contains_validTerminals_iff hb hk,
      contains_validTerminals_iff hb hk', ← h]
    rcases ht with ht | ⟨x, hn, hx⟩
    · exact .inl (.inl ht)
    · exact ((follows_merge_iff h).mp hx).imp (fun hx => .inr ⟨x, hn, hx⟩)
        fun hx => .inr ⟨x, hn, hx⟩
  · rw [TokenSet.contains_union, Bool.or_eq_true] at ht
    exact ht.elim
      (TokenSet.subset_iff.mp (validTerminals_mono hb hmerged hk hleft) t)
      (TokenSet.subset_iff.mp (validTerminals_mono hb hmerged hk' hright) t)

end Basis

end Glr.Automaton
