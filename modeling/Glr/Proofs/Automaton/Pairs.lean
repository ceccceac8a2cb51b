import Glr.Proofs.Automaton.Begins
import Glr.Proofs.Automaton.Follows
import Mathlib.Data.List.Nodup

/-!
# Glr.Proofs.Automaton.Pairs

The closure of a kernel, told by the grammar alone.  Its items are the least set that holds those of
the kernel and with `A → α . B β` every `B → . γ`; its lookaheads are the least set of pairs that
holds those of the kernel and

```
[A → α . B β, a],  b first in β a    ⟹  [B → . γ, b]
 A → α . B β,      b first in β      ⟹  [B → . γ, b]
```

The second rule adds something only where an item has no lookahead.  That comes about where `β`
has no first token and is not empty either, since none of what it turns into ends.
-/

namespace Glr

open Automaton

/-! ## Items and pairs -/

/-- The symbols after the position of an item; production zero is `S' → start`. -/
def FlatGrammar.after (g : FlatGrammar) (x : Item) : List Symbol :=
  match x.production with
  | 0 => [g.start].drop x.dot
  | p + 1 => ((g.productions[p]?.map Production.rhs).getD []).drop x.dot

/-- An item stands before the left-hand side of production `p`, and `β` comes after that. -/
def FlatGrammar.Demands (g : FlatGrammar) (x : Item) (p : Nat) (β : List Symbol) : Prop :=
  ∃ prod, g.productions[p]? = some prod ∧ g.isTerminal prod.lhs = false ∧
    g.after x = prod.lhs :: β

/-- The items that some items lead to. -/
inductive FlatGrammar.Closes (g : FlatGrammar) (items : List Item) : Item → Prop where
  | kernel {x : Item} (h : x ∈ items) : Closes g items x
  | start {x : Item} {p : Nat} {β : List Symbol} (h : Closes g items x) (hp : g.Demands x p β) :
      Closes g items ⟨p + 1, 0⟩

/-- The pairs of an item and a lookahead that a kernel leads to.  The items of `bare` pass on what
is first after the symbol that they stand before even if they have no lookahead. -/
inductive FlatGrammar.Looks (g : FlatGrammar) (k : Kernel) (bare : Item → Prop) :
    Item → Symbol → Prop where
  | kernel {i : LookItem} {a : Symbol} (hi : i ∈ k) (ha : i.lookahead.contains a = true) :
      Looks g k bare i.item a
  | behind {x : Item} {p : Nat} {β : List Symbol} {a b : Symbol} (h : Looks g k bare x a)
      (hp : g.Demands x p β) (hb : g.Begins (β ++ [a]) b) : Looks g k bare ⟨p + 1, 0⟩ b
  | bare {x : Item} {p : Nat} {β : List Symbol} {b : Symbol} (h : bare x)
      (hp : g.Demands x p β) (hb : g.Begins β b) : Looks g k bare ⟨p + 1, 0⟩ b

namespace Automaton

variable {g : FlatGrammar} {k k' : Kernel} {x : Item} {t : Symbol} {β : List Symbol} {p : Nat}

/-! ## What the construction looks up -/

theorem Basis.after_ofGrammar : (Basis.ofGrammar g).after x = g.after x := by
  unfold Basis.after FlatGrammar.after
  cases x.production with
  | zero => rw [Basis.rhs_zero, Option.getD_some]
  | succ p => rw [Basis.rhs_succ]

theorem demands_iff (hg : g.WellFormed) : g.Demands x p β ↔ ∃ y,
    (Basis.ofGrammar g).after x = y :: β ∧ (Basis.ofGrammar g).isTerminal y = false ∧
      p + 1 ∈ (Basis.ofGrammar g).byLhs[y]?.getD [] := by
  simp only [Basis.after_ofGrammar, Basis.isTerminal_ofGrammar]
  constructor
  · rintro ⟨prod, hprod, hterm, ha⟩
    obtain ⟨info, hinfo, -⟩ := (hg.productions prod (Array.mem_of_getElem? hprod)).lhs
    exact ⟨prod.lhs, ha, hterm,
      Basis.mem_byLhs_of_production hprod (Array.getElem?_eq_some_iff.mp hinfo).1⟩
  · rintro ⟨y, ha, hterm, hp⟩
    obtain ⟨q, hq, prod, hprod, rfl⟩ := Basis.mem_byLhs hp
    obtain rfl := Nat.succ.inj hq
    exact ⟨prod, hprod, hterm, ha⟩

theorem exists_demands (hg : g.WellFormed) {y : Symbol} {q : Nat}
    (ha : (Basis.ofGrammar g).after x = y :: β) (hy : (Basis.ofGrammar g).isTerminal y = false)
    (hq : q ∈ (Basis.ofGrammar g).byLhs[y]?.getD []) : ∃ p, q = p + 1 ∧ g.Demands x p β := by
  obtain ⟨p, rfl, -⟩ := Basis.mem_byLhs hq
  exact ⟨p, rfl, (demands_iff hg).mpr ⟨y, ha, hy, hq⟩⟩

/-! ## Items -/

theorem implied_iff_closes (hg : g.WellFormed) {items : List Item} :
    Implied (Basis.ofGrammar g) items x ↔ g.Closes items x := by
  constructor
  · intro h
    induction h with
    | kernel h => exact .kernel h
    | demand _ hn ht hp ih =>
      obtain ⟨p, rfl, hdemands⟩ := exists_demands hg (Basis.next?_eq_some_iff.mp hn) ht hp
      exact .start ih hdemands
  · intro h
    induction h with
    | kernel h => exact .kernel h
    | start _ hp ih =>
      obtain ⟨y, ha, hy, hp⟩ := (demands_iff hg).mp hp
      exact .demand ih (Basis.next?_of_after ha) hy hp

/-! ## Pairs -/

/-- A pair belongs to an item that the kernel leads to. -/
theorem closes_of_looks (h : g.Looks k (g.Closes (core k)) x t) : g.Closes (core k) x := by
  induction h with
  | kernel hi => exact .kernel (List.mem_map_of_mem hi)
  | behind _ hp _ ih => exact .start ih hp
  | bare h hp => exact .start h hp

theorem looks_iff_follows (hg : g.WellFormed)
    (hk : ∀ i ∈ k, (Basis.ofGrammar g).Tokens i.lookahead) :
    g.Looks k (g.Closes (core k)) x t ↔ Follows (Basis.ofGrammar g) k x t := by
  have hb := Basis.ofGrammar_sound hg
  have hsound := FirstSets.ofGrammar_sound g
  have hclosed := FirstSets.closed_of_wellFormed hg
  have hbegins {β : List Symbol} {t : Symbol} :
      ((Basis.ofGrammar g).firstSets.firstOfAll TokenSet.empty β).contains t = true ↔
        g.Begins β t := by
    rw [show (Basis.ofGrammar g).firstSets = FirstSets.ofGrammar g from rfl,
      hsound.contains_firstOfAll_iff hclosed, TokenSet.contains_empty]
    simp
  have hempty {β : List Symbol} :
      (∀ z ∈ β, (Basis.ofGrammar g).firstSets.isNullable z = true) ↔ g.Sentential β [] := by
    rw [FlatGrammar.sentential_nil_iff]
    exact forall₂_congr fun z _ => hsound.isNullable_iff hclosed
  have hterm {x : Item} {t : Symbol} (h : Follows (Basis.ofGrammar g) k x t) :
      g.isTerminal t = true := by
    obtain ⟨i, hi, -, ht⟩ := (Basis.exists_mem_closure_iff hb hk).mpr h
    rw [← Basis.isTerminal_ofGrammar]
    exact Basis.tokens_closure hb hk hi t ht
  have hself {a b : Symbol} (ha : g.isTerminal a = true) : g.Begins [a] b ↔ b = a := by
    refine FlatGrammar.begins_token_iff ha fun p hp hlhs => ?_
    rw [← hlhs, FlatGrammar.isTerminal_of_isRule (hg.productions p hp).lhs] at ha
    contradiction
  constructor
  · intro h
    induction h with
    | kernel hi ha => exact .kernel hi ha
    | behind _ hp hb ih =>
      obtain ⟨y, ha, hy, hp⟩ := (demands_iff hg).mp hp
      rw [FlatGrammar.begins_append_iff, hself (hterm ih)] at hb
      rcases hb with hb | ⟨hβ, rfl⟩
      · exact .first ih.implied ha hy hp (hbegins.mpr hb)
      · exact .inherit ih ha hy hp (hempty.mpr hβ)
    | bare h hp hb =>
      obtain ⟨y, ha, hy, hp⟩ := (demands_iff hg).mp hp
      exact .first ((implied_iff_closes hg).mpr h) ha hy hp (hbegins.mpr hb)
  · intro h
    induction h with
    | kernel hi ha => exact .kernel hi ha
    | first hx ha hy hp ht =>
      obtain ⟨p, rfl, hdemands⟩ := exists_demands hg ha hy hp
      exact .bare ((implied_iff_closes hg).mp hx) hdemands (hbegins.mp ht)
    | inherit hx ha hy hp hn ih =>
      obtain ⟨p, rfl, hdemands⟩ := exists_demands hg ha hy hp
      exact .behind ih hdemands
        (FlatGrammar.begins_append_iff.mpr (.inr ⟨hempty.mp hn, (hself (hterm hx)).mpr rfl⟩))

/-- What comes after the position of an item, the next symbol apart, stands in a production. -/
theorem exists_mem_rhs (h : g.Demands x p β) {y : Symbol} (hy : y ∈ β) :
    ∃ prod ∈ g.productions, y ∈ prod.rhs := by
  obtain ⟨prod, -, -, ha⟩ := h
  unfold FlatGrammar.after at ha
  split at ha
  · have hlength := congrArg List.length ha
    rw [List.length_drop, List.length_singleton, List.length_cons] at hlength
    have hpos := List.length_pos_of_mem hy
    omega
  · rename_i q _
    cases hq : g.productions[q]? with
    | none => simp [hq] at ha
    | some prod' =>
      rw [hq, Option.map_some, Option.getD_some] at ha
      refine ⟨prod', Array.mem_of_getElem? hq, List.mem_of_mem_drop (i := x.dot) ?_⟩
      rw [ha]
      exact List.mem_cons_of_mem _ hy

/-- Where every item of the kernel has a lookahead and every symbol can be empty or has a first
token, no item is without a lookahead. -/
theorem exists_looks (hlook : ∀ i ∈ k, ∃ a, i.lookahead.contains a = true)
    (hk : ∀ i ∈ k, (Basis.ofGrammar g).Tokens i.lookahead)
    (hfirst : ∀ prod ∈ g.productions, ∀ y ∈ prod.rhs, g.Sentential [y] [] ∨ ∃ t, g.Begins [y] t)
    (bare : Item → Prop) (h : g.Closes (core k) x) :
    ∃ t, g.isTerminal t = true ∧ g.Looks k bare x t := by
  have hbegins (β : List Symbol) (hβ : ∀ y ∈ β, g.Sentential [y] [] ∨ ∃ t, g.Begins [y] t)
      {a : Symbol} (ha : g.isTerminal a = true) : ∃ t, g.Begins (β ++ [a]) t := by
    induction β with
    | nil => exact ⟨a, ha, [], .refl⟩
    | cons y β ih =>
      rw [List.cons_append, ← List.singleton_append]
      obtain ⟨hy, hβ⟩ := List.forall_mem_cons.mp hβ
      obtain ⟨t, ht⟩ := ih hβ
      rcases hy with hy | ⟨t', ht'⟩
      · exact ⟨t, FlatGrammar.begins_append_iff.mpr (.inr ⟨hy, ht⟩)⟩
      · exact ⟨t', FlatGrammar.begins_append_iff.mpr (.inl ht')⟩
  induction h with
  | kernel h =>
    obtain ⟨i, hi, rfl⟩ := List.mem_map.mp h
    obtain ⟨a, ha⟩ := hlook i hi
    exact ⟨a, Basis.isTerminal_ofGrammar ▸ hk i hi a ha, .kernel hi ha⟩
  | @start x p β _ hp ih =>
    obtain ⟨a, ha, hx⟩ := ih
    obtain ⟨t, ht⟩ := hbegins β (fun y hy => by
      obtain ⟨prod, hprod, hmem⟩ := exists_mem_rhs hp hy
      exact hfirst prod hprod y hmem) ha
    exact ⟨t, ht.1, .behind hx hp ht⟩

/-- Then the second rule adds nothing. -/
theorem looks_iff_of_exists_looks
    (hall : ∀ x, g.Closes (core k) x → ∃ t, g.Looks k (fun _ => False) x t) :
    g.Looks k (g.Closes (core k)) x t ↔ g.Looks k (fun _ => False) x t := by
  constructor
  · intro h
    induction h with
    | kernel hi ha => exact .kernel hi ha
    | behind _ hp hb ih => exact .behind ih hp hb
    | bare h hp hb =>
      obtain ⟨a, ha⟩ := hall _ h
      exact .behind ha hp (FlatGrammar.begins_append_iff.mpr (.inl hb))
  · intro h
    induction h with
    | kernel hi ha => exact .kernel hi ha
    | behind _ hp hb ih => exact .behind ih hp hb
    | bare h => exact h.elim

/-! ## Closures -/

namespace Basis

variable {b : Basis} {i : LookItem}

/-- An item of a closure is there once, with all tokens that may follow it. -/
theorem contains_lookahead_iff (hb : b.Sound) (hk : ∀ i ∈ k, b.Tokens i.lookahead)
    (hn : (core k).Nodup) (hi : i ∈ b.closure k) :
    i.lookahead.contains t = true ↔ Follows b k i.item t := by
  rw [← exists_mem_closure_iff hb hk]
  constructor
  · exact fun ht => ⟨i, hi, rfl, ht⟩
  · rintro ⟨j, hj, hitem, ht⟩
    rwa [← List.inj_on_of_nodup_map (nodup_closure hb hk hn) hj hi hitem]

theorem lookahead_eq_of_merge (hb : b.Sound) (hk : ∀ i ∈ k, b.Tokens i.lookahead)
    (hk' : ∀ i ∈ k', b.Tokens i.lookahead) (hn : (core k).Nodup) (hc : core k = core k')
    {j j' : LookItem} (hi : i ∈ b.closure (mergeLookaheads k k')) (hj : j ∈ b.closure k)
    (hj' : j' ∈ b.closure k') (hitem : j.item = i.item) (hitem' : j'.item = i.item) :
    i.lookahead = j.lookahead.union j'.lookahead := by
  have hcore := core_mergeLookaheads hc
  have hkey (t : Symbol) : i.lookahead.contains t = true ↔
      (j.lookahead.union j'.lookahead).contains t = true := by
    rw [contains_lookahead_iff hb (tokens_mergeLookaheads hk hk') (hcore ▸ hn) hi,
      follows_merge_iff hc, TokenSet.contains_union, Bool.or_eq_true,
      contains_lookahead_iff hb hk hn hj, contains_lookahead_iff hb hk' (hc ▸ hn) hj', hitem,
      hitem']
  exact FirstSets.subset_antisymm (TokenSet.subset_iff.mpr fun t => (hkey t).mp)
    (TokenSet.subset_iff.mpr fun t => (hkey t).mpr)

/-- The closure of a merged kernel has the items of the two closures, each with the lookaheads
that it has in both. -/
theorem mem_closure_merge_iff (hb : b.Sound) (hk : ∀ i ∈ k, b.Tokens i.lookahead)
    (hk' : ∀ i ∈ k', b.Tokens i.lookahead) (hn : (core k).Nodup) (hc : core k = core k') :
    i ∈ b.closure (mergeLookaheads k k') ↔ ∃ j ∈ b.closure k, ∃ j' ∈ b.closure k',
      j.item = i.item ∧ j'.item = i.item ∧ i.lookahead = j.lookahead.union j'.lookahead := by
  have hmerged := tokens_mergeLookaheads hk hk'
  have hcore := core_mergeLookaheads hc
  constructor
  · intro hi
    have himplied : Implied b (core k) i.item :=
      hcore ▸ (mem_closure_iff hb hmerged).mp ⟨i, hi, rfl⟩
    obtain ⟨j, hj, hitem⟩ := (mem_closure_iff hb hk).mpr himplied
    obtain ⟨j', hj', hitem'⟩ := (mem_closure_iff hb hk').mpr (hc ▸ himplied)
    exact ⟨j, hj, j', hj', hitem, hitem',
      lookahead_eq_of_merge hb hk hk' hn hc hi hj hj' hitem hitem'⟩
  · rintro ⟨j, hj, j', hj', hitem, hitem', hlook⟩
    have himplied : Implied b (core k) i.item := (mem_closure_iff hb hk).mp ⟨j, hj, hitem⟩
    obtain ⟨m, hm, hmi⟩ := (mem_closure_iff hb hmerged).mpr (hcore.symm ▸ himplied)
    have hmlook := lookahead_eq_of_merge hb hk hk' hn hc hm hj hj' (hitem.trans hmi.symm)
      (hitem'.trans hmi.symm)
    obtain rfl : m = i := by
      obtain ⟨item, lookahead⟩ := m
      obtain ⟨item', lookahead'⟩ := i
      exact LookItem.mk.injEq .. ▸ ⟨hmi, hmlook.trans hlook.symm⟩
    exact hm

/-- What holds of the closure of a kernel, for a grammar that was made from rules.  Its rounds end.
It has the items that the kernel leads to, each of them once and with just the lookaheads of the
pairs that the kernel leads to; where every item of the kernel has a lookahead, and every symbol can
be empty or has a first token, those are the pairs that pass from item to item.  The closure and the
valid tokens of two kernels of the same items, merged, are those of the two kernels together. -/
theorem closure_exact {grammar : Grammar} (hg : FlatGrammar.ofGrammar grammar = .ok g)
    (hk : ∀ i ∈ k, (ofGrammar g).Tokens i.lookahead) (hn : (core k).Nodup) :
    let b := ofGrammar g
    (∃ n, ∀ fuel, n ≤ fuel →
      (Closure.run b fuel (List.range k.length) k.toArray).toList = b.closure k) ∧
    ((b.closure k).map LookItem.item).Nodup ∧
    (∀ x, (∃ i ∈ b.closure k, i.item = x) ↔ g.Closes (core k) x) ∧
    (∀ i ∈ b.closure k, ∀ t, i.lookahead.contains t = true ↔
      g.Looks k (g.Closes (core k)) i.item t) ∧
    ((∀ i ∈ k, ∃ a, i.lookahead.contains a = true) →
      (∀ p ∈ g.productions, ∀ x ∈ p.rhs, g.Sentential [x] [] ∨ ∃ t, g.Begins [x] t) →
      ∀ x t, g.Looks k (g.Closes (core k)) x t ↔ g.Looks k (fun _ => False) x t) ∧
    ∀ k' : Kernel, (∀ i ∈ k', b.Tokens i.lookahead) → core k = core k' →
      (∀ i, i ∈ b.closure (mergeLookaheads k k') ↔ ∃ j ∈ b.closure k, ∃ j' ∈ b.closure k',
        j.item = i.item ∧ j'.item = i.item ∧ i.lookahead = j.lookahead.union j'.lookahead) ∧
      b.validTerminals (mergeLookaheads k k') =
        (b.validTerminals k).union (b.validTerminals k') := by
  intro b
  have hwell := FlatGrammar.ofGrammar_wellFormed hg
  have hb : b.Sound := ofGrammar_sound hwell
  refine ⟨⟨(k.length + b.rhs.size) * (b.terminalCount + 1) + 1, fun fuel hfuel => ?_⟩,
    nodup_closure hb hk hn, fun x => ?_, fun i hi t => ?_, fun hlook hfirst x t => ?_,
    fun k' hk' hc => ⟨fun i => mem_closure_merge_iff hb hk hk' hn hc,
      validTerminals_merge hb hk hk' hc⟩⟩
  · obtain ⟨more, rfl⟩ := Nat.exists_eq_add_of_le hfuel
    rw [closure, Closure.run_add hb _ more (fun i hi => hk i (by simpa using hi))
      (Nat.lt_succ_of_le (potential_toArray_le b k))]
  · rw [mem_closure_iff hb hk, implied_iff_closes hwell]
  · rw [contains_lookahead_iff hb hk hn hi, looks_iff_follows hwell hk]
  · exact looks_iff_of_exists_looks fun y hy =>
      (exists_looks hlook hk hfirst _ hy).imp fun _ h => h.2

end Basis

end Automaton

/-- A rule that nothing but itself can be read for, behind one that can be read. -/
def Grammar.endless : Grammar :=
  { name := "endless", extras := some [] : Grammar }
    |>.addRule "s" (.seq [.sym "b", .sym "x"])
    |>.addRule "b" (.seq [.sym "c", .string "d"])
    |>.addRule "c" (.seq [.string "e", .string "f"])
    |>.addRule "x" (.sym "x")

namespace Automaton.Basis

/-- The rules are the symbols 4 to 7, in the order of their productions, and the token `d` is 1. -/
theorem exists_endless : ∃ g, FlatGrammar.ofGrammar .endless = .ok g ∧
    (∀ (p : Nat) prod, g.productions[p]? = some prod → prod.lhs = p + 4) ∧
    g.after ⟨0, 0⟩ = [4] ∧ g.after ⟨1, 0⟩ = [5, 7] ∧
    (FirstSets.ofGrammar g).firstOfAll (TokenSet.singleton 0) [7] = TokenSet.empty ∧
    (ofGrammar g).isTerminal 0 = true ∧
    (ofGrammar g).closure ItemSets.startKernel = [⟨⟨0, 0⟩, TokenSet.singleton 0⟩,
      ⟨⟨1, 0⟩, TokenSet.singleton 0⟩, ⟨⟨2, 0⟩, TokenSet.empty⟩, ⟨⟨3, 0⟩, TokenSet.singleton 1⟩] := by
  have hchecks : (FlatGrammar.ofGrammar .endless).toOption.any (fun g =>
      g.productions.toList.zipIdx.all (fun e => e.1.lhs == e.2 + 4) && g.after ⟨0, 0⟩ == [4] &&
        g.after ⟨1, 0⟩ == [5, 7] &&
        (FirstSets.ofGrammar g).firstOfAll (TokenSet.singleton 0) [7] == TokenSet.empty &&
        (ofGrammar g).isTerminal 0 &&
        decide ((ofGrammar g).closure ItemSets.startKernel = [⟨⟨0, 0⟩, TokenSet.singleton 0⟩,
          ⟨⟨1, 0⟩, TokenSet.singleton 0⟩, ⟨⟨2, 0⟩, TokenSet.empty⟩,
          ⟨⟨3, 0⟩, TokenSet.singleton 1⟩])) = true := by
    decide +kernel
  obtain ⟨g, hg, hchecks⟩ := exists_ok hchecks
  simp only [Bool.and_eq_true, beq_iff_eq, decide_eq_true_eq, List.all_eq_true] at hchecks
  obtain ⟨⟨⟨⟨⟨hlhs, hzero⟩, hone⟩, hfirst⟩, hterm⟩, hclosure⟩ := hchecks
  refine ⟨g, hg, fun p prod hp => ?_, hzero, hone, hfirst, hterm, hclosure⟩
  exact hlhs (prod, p) (by simpa [List.mem_zipIdx_iff_getElem?] using hp)

/-- The closure of the start gives a lookahead to `c → . e f` that no pair passes on to it, since
`b → . c d` has none. -/
theorem exists_unpaired_lookahead : ∃ g, FlatGrammar.ofGrammar .endless = .ok g ∧
    (∀ i ∈ ItemSets.startKernel, (ofGrammar g).Tokens i.lookahead) ∧
    (core ItemSets.startKernel).Nodup ∧
    ∃ i ∈ (ofGrammar g).closure ItemSets.startKernel, ∃ t, i.lookahead.contains t = true ∧
      ¬g.Looks ItemSets.startKernel (fun _ => False) i.item t := by
  obtain ⟨g, hg, hlhs, hzero, hone, hfirst, hterm, hclosure⟩ := exists_endless
  have hwell := FlatGrammar.ofGrammar_wellFormed hg
  have hnone (t : Symbol) : ¬(g.Begins [7] t ∨ g.Sentential [7] [] ∧
      TokenSet.contains (TokenSet.singleton 0) t = true) := by
    rw [← (FirstSets.ofGrammar_sound g).contains_firstOfAll_iff
      (FirstSets.closed_of_wellFormed hwell), hfirst, TokenSet.contains_empty]
    exact Bool.false_ne_true
  have hpairs {x : Item} {t : Symbol} (h : g.Looks ItemSets.startKernel (fun _ => False) x t) :
      x = ⟨0, 0⟩ ∨ x = ⟨1, 0⟩ := by
    induction h with
    | @kernel i a hi ha =>
      obtain rfl := List.mem_singleton.mp hi
      exact .inl rfl
    | @behind x p β a b _ hp hb ih =>
      obtain ⟨prod, hprod, -, ha⟩ := hp
      have hp := hlhs p prod hprod
      rcases ih with rfl | rfl
      · -- the start rule has one production
        rw [hzero, List.cons.injEq, hp] at ha
        obtain rfl : 0 = p := Nat.add_right_cancel ((Nat.zero_add 4).trans ha.1)
        exact .inr rfl
      · -- what stands behind `b` has no first token and does not end
        rw [hone, List.cons.injEq] at ha
        rw [← ha.2, FlatGrammar.begins_append_iff] at hb
        rcases hb with hb | ⟨hb, -⟩
        · exact absurd (.inl hb) (hnone b)
        · exact absurd (.inr ⟨hb, rfl⟩) (hnone 0)
    | bare h => exact h.elim
  refine ⟨g, hg, fun i hi => ?_, List.nodup_singleton (⟨0, 0⟩ : Item),
    ⟨⟨3, 0⟩, TokenSet.singleton 1⟩, by simp [hclosure], 1, rfl, fun h => ?_⟩
  · obtain rfl := List.mem_singleton.mp hi
    exact tokens_singleton hterm
  · exact absurd (hpairs h) (by decide)

/-- The items of the closure of the start, and the one lookahead of `c → . e f` in it. -/
theorem closure_exact_endless : ∃ g, FlatGrammar.ofGrammar .endless = .ok g ∧
    g.Closes [⟨0, 0⟩] ⟨3, 0⟩ ∧ ¬g.Closes [⟨0, 0⟩] ⟨4, 0⟩ ∧
    (∀ t, g.Looks ItemSets.startKernel (g.Closes [⟨0, 0⟩]) ⟨3, 0⟩ t ↔ t = 1) ∧
    (ofGrammar g).validTerminals (mergeLookaheads ItemSets.startKernel ItemSets.startKernel) =
      ((ofGrammar g).validTerminals ItemSets.startKernel).union
        ((ofGrammar g).validTerminals ItemSets.startKernel) := by
  obtain ⟨g, hg, -, -, -, -, hterm, hclosure⟩ := exists_endless
  have htokens : ∀ i ∈ ItemSets.startKernel, (ofGrammar g).Tokens i.lookahead := by
    intro i hi
    obtain rfl := List.mem_singleton.mp hi
    exact tokens_singleton hterm
  obtain ⟨-, -, hitems, hlooks, -, hmerge⟩ :=
    closure_exact hg htokens (List.nodup_singleton (⟨0, 0⟩ : Item))
  rw [hclosure] at hitems hlooks
  refine ⟨g, hg, (hitems ⟨3, 0⟩).mp ⟨⟨⟨3, 0⟩, TokenSet.singleton 1⟩, by simp, rfl⟩,
    fun h => ?_, fun t => ?_,
    (hmerge _ htokens rfl).2⟩
  · obtain ⟨i, hi, hitem⟩ := (hitems ⟨4, 0⟩).mpr h
    simp only [List.mem_cons, List.not_mem_nil, or_false] at hi
    rcases hi with rfl | rfl | rfl | rfl <;> exact absurd hitem (by decide)
  · have h := hlooks ⟨⟨3, 0⟩, TokenSet.singleton 1⟩ (by simp) t
    rw [TokenSet.contains_singleton, decide_eq_true_eq] at h
    exact h.symm.trans eq_comm

end Automaton.Basis

end Glr
