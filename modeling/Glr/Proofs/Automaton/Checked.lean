import Glr.Proofs.Automaton.Cells
import Glr.Proofs.Automaton.Lookahead
import Glr.Table.Generate

/-!
# Glr.Proofs.Automaton.Checked

The construction that checks its indices comes to what the construction without checks does,
where the start symbol is no token.  Each look-up is in range for a reason of its own:

```
first, nullable, productions by symbol    a symbol of a production is one of the grammar
right-hand sides                          an item has a place in its production
competing tokens                          valid tokens are tokens
states                                    what waits, and what has given items, has been made
productions less one                      an item before a token is not one of S' → start
```

The last one fails for a start symbol that is a token, and then there is no table.
-/

namespace Glr

namespace Automaton

/-! ## Loops that can fail -/

section

variable {α β γ : Type}

/-- A loop whose steps do not fail, while something holds, does not fail. -/
theorem foldlM_eq_some {m : β → α → Option β} {f : β → α → β} {P : β → Prop} {l : List α}
    (h : ∀ x, P x → ∀ a ∈ l, m x a = some (f x a) ∧ P (f x a)) {x : β} (hx : P x) :
    l.foldlM m x = some (l.foldl f x) ∧ P (l.foldl f x) := by
  induction l generalizing x with
  | nil => exact ⟨rfl, hx⟩
  | cons a l ih =>
    obtain ⟨ha, hP⟩ := h x hx a (by simp)
    rw [List.foldlM_cons, ha]
    exact ih (fun y hy b hb => h y hy b (by simp [hb])) hP

/-- A loop with a step that always fails fails. -/
theorem foldlM_eq_none {m : β → α → Option β} {l : List α} {a : α} (ha : a ∈ l)
    (h : ∀ x, m x a = none) (x : β) : l.foldlM m x = none := by
  induction l generalizing x with
  | nil => contradiction
  | cons b l ih =>
    rw [List.foldlM_cons]
    rcases List.mem_cons.mp ha with rfl | ha
    · rw [h x]
      rfl
    · cases m x b with
      | none => rfl
      | some y => exact ih ha y

theorem mapM_eq_some {m : α → Option γ} {f : α → γ} {l : List α}
    (h : ∀ a ∈ l, m a = some (f a)) : l.mapM m = some (l.map f) := by
  induction l with
  | nil => rfl
  | cons a l ih =>
    rw [List.mapM_cons, h a (by simp), ih fun b hb => h b (by simp [hb])]
    rfl

theorem anyM_eq_some {m : α → Option Bool} {f : α → Bool} {l : List α}
    (h : ∀ a ∈ l, m a = some (f a)) : l.anyM m = some (l.any f) := by
  induction l with
  | nil => rfl
  | cons a l ih =>
    rw [List.anyM, h a (by simp), List.any_cons]
    cases f a with
    | true => rfl
    | false => exact ih fun b hb => h b (by simp [hb])

theorem findM?_eq_some {m : α → Option Bool} {f : α → Bool} {l : List α}
    (h : ∀ a ∈ l, m a = some (f a)) : l.findM? m = some (l.find? f) := by
  induction l with
  | nil => rfl
  | cons a l ih =>
    rw [List.findM?, h a (by simp), List.find?_cons]
    cases f a with
    | true => rfl
    | false => exact ih fun b hb => h b (by simp [hb])

theorem modifyAt?_eq {xs : Array α} {i : Nat} (h : i < xs.size) (f : α → α) :
    modifyAt? xs i f = some (xs.modify i f) := if_pos h

end

/-! ## What is looked up -/

namespace FirstSets

variable {f : FirstSets} {g : FlatGrammar} {n : Nat} {p : Production}

/-- There are sets for `n` symbols. -/
structure Sized (n : Nat) (f : FirstSets) : Prop where
  nullable : f.nullable.size = n
  first : f.first.size = n

theorem firstOfAll?_eq (hf : f.Sized n) {symbols : List Symbol} (h : ∀ s ∈ symbols, s < n)
    (follow : TokenSet) : f.firstOfAll? follow symbols = some (f.firstOfAll follow symbols) := by
  induction symbols with
  | nil => rfl
  | cons s rest ih =>
    have hs := h s (by simp)
    rw [firstOfAll?, firstOfAll, ih fun t ht => h t (by simp [ht]), isNullable, firstOf,
      Array.getElem?_eq_getElem (by rw [hf.first]; exact hs),
      Array.getElem?_eq_getElem (by rw [hf.nullable]; exact hs)]
    simp only [Option.bind_eq_bind, Option.bind_some, Option.getD_some, Option.pure_def]
    split <;> rfl

theorem addNullable?_eq (hf : f.Sized n) (hlhs : p.lhs < n) :
    f.addNullable? p = some (f.apply p).nullable := by
  rw [addNullable?, apply]
  split
  · rw [modifyAt?_eq (by rw [hf.nullable]; exact hlhs)]
    refine congrArg some (Array.ext_getElem? fun i => ?_)
    rw [Array.getElem?_modify, Array.getElem?_setIfInBounds]
    split
    · rename_i he
      subst he
      rw [Array.getElem?_eq_getElem (by rw [hf.nullable]; exact hlhs)]
      simp [hf.nullable, hlhs]
    · rfl
  · rfl

theorem addProduction?_eq (hf : f.Sized n) (hlhs : p.lhs < n) (h : ∀ s ∈ p.rhs, s < n) :
    f.addProduction? p = some (f.apply p) := by
  have hfirst : modifyAt? f.first p.lhs (TokenSet.union (f.firstOfAll TokenSet.empty p.rhs)) = _ :=
    modifyAt?_eq (by rw [hf.first]; exact hlhs) _
  rw [addProduction?, firstOfAll?_eq hf h, addNullable?_eq hf hlhs]
  simp only [Option.bind_eq_bind, Option.bind_some, hfirst]
  rfl

theorem Sized.round (hf : f.Sized n) : (FirstSets.round g f).Sized n where
  nullable := (round_grows g f).nullable_size.trans hf.nullable
  first := (round_grows g f).first_size.trans hf.first

theorem round?_eq (hf : f.Sized n) (hg : ∀ p ∈ g.productions, p.lhs < n ∧ ∀ s ∈ p.rhs, s < n) :
    round? g f = some (round g f) := by
  rw [round?, round_eq]
  refine (foldlM_eq_some (P := Sized n) (fun f hf p hp => ?_) hf).1
  obtain ⟨hlhs, hrhs⟩ := hg p (by simpa using hp)
  refine ⟨addProduction?_eq hf hlhs hrhs, ?_, ?_⟩
  · exact (apply_grows f p).nullable_size.trans hf.nullable
  · exact (apply_grows f p).first_size.trans hf.first

theorem saturate?_eq (hf : f.Sized n) (hg : ∀ p ∈ g.productions, p.lhs < n ∧ ∀ s ∈ p.rhs, s < n)
    (fuel : Nat) : saturate? g fuel f = some (saturate g fuel f) := by
  induction fuel generalizing f with
  | zero => rfl
  | succ fuel ih =>
    rw [saturate?, saturate, round?_eq hf hg]
    simp only [Option.bind_eq_bind, Option.bind_some]
    split
    · rfl
    · exact ih hf.round

theorem start_sized (g : FlatGrammar) : (start g).Sized g.symbols.size :=
  ⟨(start_fits g).nullable_size, (start_fits g).first_size⟩

end FirstSets

namespace Basis

variable {b : Basis} {k : Kernel} {i : LookItem} {x : Item} {s : Symbol} {g : FlatGrammar}

/-- What is looked up is there. -/
structure Indexed (b : Basis) : Prop extends b.Sound where
  firstSets : b.firstSets.Sized b.grammar.symbols.size
  byLhs_size : b.byLhs.size = b.grammar.symbols.size
  overlaps_size : b.overlaps.size = b.terminalCount
  symbols : ∀ r ∈ b.rhs, ∀ s ∈ r, s < b.grammar.symbols.size
  start : b.rhs[0]? = some [b.grammar.start]
  productions : ∀ p r, b.rhs[p + 1]? = some r → ∃ q, b.production? (p + 1) = some q ∧ q.rhs = r

theorem size_overlaps (g : FlatGrammar) (count : Nat) :
    (Automaton.overlaps g count).size = count := by
  have key (pairs : List (Nat × Nat)) (sets : Array TokenSet) :
      (pairs.foldl (fun sets p => (sets.modify p.1 (TokenSet.insert · p.2)).modify p.2
        (TokenSet.insert · p.1)) sets).size = sets.size := by
    induction pairs generalizing sets with
    | nil => rfl
    | cons p pairs ih => rw [List.foldl_cons, ih, Array.size_modify, Array.size_modify]
  rw [Automaton.overlaps, key, Array.size_replicate]

theorem lt_of_isToken {symbols : Array SymbolInfo} (h : IsToken symbols s ∨ IsRule symbols s) :
    s < symbols.size := by
  rcases h with ⟨info, hi, -⟩ | ⟨info, hi, -⟩ <;> exact (Array.getElem?_eq_some_iff.mp hi).1

/-- The symbols of a production are symbols of the grammar. -/
theorem symbols_lt (hg : g.WellFormed) {p : Production} (hp : p ∈ g.productions) :
    p.lhs < g.symbols.size ∧ ∀ s ∈ p.rhs, s < g.symbols.size := by
  have hfits := hg.productions p hp
  refine ⟨lt_of_isToken (.inr hfits.lhs), fun s hs => ?_⟩
  obtain ⟨st, hst, rfl⟩ := List.mem_map.mp hs
  exact lt_of_isToken (hfits.steps st hst).1

/-- What a grammar without checks looks up is there. -/
theorem ofGrammar_indexed (hg : g.WellFormed) : (ofGrammar g).Indexed where
  toSound := ofGrammar_sound hg
  firstSets := by
    have hgrows := FirstSets.saturate_grows g (FirstSets.bound g + 1) (FirstSets.start g)
    have hstart := FirstSets.start_sized g
    exact ⟨hgrows.nullable_size.trans hstart.nullable, hgrows.first_size.trans hstart.first⟩
  byLhs_size := by
    have key (l : List (Production × Nat)) (lists : Array (List Nat)) :
        (l.foldl (fun lists p => lists.modify p.1.lhs (· ++ [p.2 + 1])) lists).size
          = lists.size := by
      induction l generalizing lists with
      | nil => rfl
      | cons p l ih => rw [List.foldl_cons, ih, Array.size_modify]
    exact (key _ _).trans Array.size_replicate
  overlaps_size := size_overlaps _ _
  symbols := by
    intro r hr s hs
    rcases Array.mem_append.mp (show r ∈ #[[g.start]] ++ g.productions.map Production.rhs from hr)
      with hr | hr
    · obtain rfl : r = [g.start] := by simpa using hr
      obtain rfl := List.mem_singleton.mp hs
      exact lt_of_isToken hg.start
    · obtain ⟨p, hp, rfl⟩ := Array.mem_map.mp hr
      exact (symbols_lt hg hp).2 s hs
  start := rhs_zero
  productions := by
    intro p r hr
    rw [rhs_succ, Option.map_eq_some_iff] at hr
    exact hr

/-- The checked look-ups of a grammar. -/
theorem ofGrammar?_eq (hg : g.WellFormed) : ofGrammar? g = some (ofGrammar g) := by
  have hbyLhs : g.productions.toList.zipIdx.foldlM
      (fun lists p => modifyAt? lists p.1.lhs (· ++ [p.2 + 1]))
      (Array.replicate g.symbols.size ([] : List Nat)) = some (ofGrammar g).byLhs := by
    refine (foldlM_eq_some (P := fun lists : Array (List Nat) => lists.size = g.symbols.size)
      (fun lists hlists p hp => ⟨modifyAt?_eq ?_ _, ?_⟩) Array.size_replicate).1
    · have hp := List.mem_of_getElem? (List.mem_zipIdx_iff_getElem?.mp hp)
      rw [hlists]
      exact (symbols_lt hg (by simpa using hp)).1
    · rw [Array.size_modify]
      exact hlists
  have hfirst : FirstSets.ofGrammar? g = some (FirstSets.ofGrammar g) :=
    FirstSets.saturate?_eq (FirstSets.start_sized g) (fun p hp => symbols_lt hg hp) _
  rw [ofGrammar?, hbyLhs, hfirst]
  rfl

/-! ## Closures -/

theorem after?_eq (hx : b.HasItem x) : b.after? x = some (b.after x) := by
  obtain ⟨r, hr, -⟩ := hx
  rw [after?, after, hr]
  rfl

theorem symbols_after (hb : b.Indexed) {rest : List Symbol} (ha : b.after x = s :: rest) :
    ∀ y ∈ s :: rest, y < b.grammar.symbols.size := by
  intro y hy
  rw [← ha, after] at hy
  cases hr : b.rhs[x.production]? with
  | none => simp [hr] at hy
  | some r =>
    rw [hr, Option.getD_some] at hy
    exact hb.symbols r (Array.mem_of_getElem? hr) y (List.mem_of_mem_drop hy)

theorem expands?_eq (hb : b.Indexed) (hi : b.HasItem i.item) :
    b.expands? i = some (b.expands i) := by
  rw [expands?, after?_eq hi, expands]
  simp only [Option.bind_eq_bind, Option.bind_some]
  cases ha : b.after i.item with
  | nil => rfl
  | cons s rest =>
    have hsymbols := symbols_after hb ha
    have hs := hsymbols s (by simp)
    rw [← hb.byLhs_size] at hs
    simp only [Array.getElem?_eq_getElem hs, Option.getD_some, Option.bind_some,
      FirstSets.firstOfAll?_eq hb.firstSets fun y (hy : y ∈ rest) => hsymbols y (by simp [hy])]
    split <;> rfl

end Basis

namespace Closure

variable {b : Basis} {k : Kernel} {s s' : State} {follow : TokenSet} {p : Nat}

/-- The places that grew are there. -/
def Placed (s : State) : Prop := ∀ place ∈ s.grown, place < s.items.size

theorem Demanded.placed (h : Demanded follow p s s') (hs : Placed s) : Placed s' := by
  cases h with
  | has => exact hs
  | widen place old hold =>
    intro place' hp
    have hlt := (Array.getElem?_eq_some_iff.mp hold).1
    simp only [Array.size_modify]
    rcases Array.mem_push.mp hp with hp | rfl
    · exact hs place' hp
    · exact hlt
  | add =>
    intro place' hp
    simp only [Array.size_push]
    rcases Array.mem_push.mp hp with hp | rfl
    · exact Nat.lt_succ_of_lt (hs place' hp)
    · exact Nat.lt_succ_self _

theorem visit_placed (hs : Placed s) (place : Nat) : Placed (visit b s place) := by
  have key (ps : List Nat) (follow : TokenSet) (s : State) (hs : Placed s) :
      Placed (ps.foldl (demand follow) s) := by
    induction ps generalizing s with
    | nil => exact hs
    | cons p ps ih => exact ih _ ((demanded follow p s).placed hs)
  unfold visit
  split
  · exact key _ _ s hs
  · exact hs

theorem Grows.size_le {old new : Array LookItem} (h : Grows old new) : old.size ≤ new.size := by
  by_contra hlt
  have hget := Array.getElem?_eq_getElem (show new.size < old.size by omega)
  obtain ⟨j, hj, -⟩ := h _ _ hget
  have := (Array.getElem?_eq_some_iff.mp hj).1
  omega

/-- What the items of a closure under construction are: implied by its kernel. -/
structure Within (b : Basis) (k : Kernel) (s : State) : Prop where
  tokens : Tokens b s.items
  implied : ∀ i ∈ s.items, Implied b (core k) i.item
  placed : Placed s

theorem visit?_eq (hb : b.Indexed) (hk : k.Sound b) (hs : Within b k s) {place : Nat}
    (hp : place < s.items.size) :
    visit? b s place = some (visit b s place) ∧ Within b k (visit b s place) := by
  obtain ⟨hprogress, -⟩ := visit_spec hb.toSound hs.tokens place
  refine ⟨?_, hprogress.tokens hs.tokens, hprogress.implied (core k) hs.implied,
    visit_placed hs.placed place⟩
  have hitem := Basis.Implied.hasItem hb.toSound hk (hs.implied _ (Array.getElem_mem hp))
  rw [visit?, visit, Array.getElem?_eq_getElem hp]
  simp only [Option.bind_eq_bind, Option.bind_some, Basis.expands?_eq hb hitem]
  cases b.expands s.items[place] <;> rfl

theorem run?_eq (hb : b.Indexed) (hk : k.Sound b) (fuel : Nat) {pending : List Nat}
    {items : Array LookItem} (ht : Tokens b items) (hi : ∀ i ∈ items, Implied b (core k) i.item)
    (hp : ∀ place ∈ pending, place < items.size) :
    run? b fuel pending items = some (run b fuel pending items) := by
  induction fuel generalizing pending items with
  | zero => rfl
  | succ fuel ih =>
    rw [run?, run]
    split
    · rfl
    · -- no item goes away while the places of a round are visited
      obtain ⟨hround, hwithin, -⟩ := foldlM_eq_some (m := visit? b) (f := visit b)
        (P := fun s => Within b k s ∧ items.size ≤ s.items.size) (l := pending) (x := ⟨items, #[]⟩)
        (fun s hs place hplace => by
          obtain ⟨heq, hwithin⟩ := visit?_eq hb hk hs.1 (Nat.lt_of_lt_of_le (hp place hplace) hs.2)
          obtain ⟨hprogress, -⟩ := visit_spec hb.toSound hs.1.tokens place
          exact ⟨heq, hwithin, Nat.le_trans hs.2 hprogress.grows.size_le⟩)
        ⟨⟨ht, hi, by simp [Placed]⟩, Nat.le_refl _⟩
      rw [hround]
      exact ih hwithin.tokens hwithin.implied fun place hplace =>
        hwithin.placed place (by simpa using hplace)

end Closure

namespace Basis

variable {b : Basis} {k : Kernel} {v w : TokenSet}

theorem closure?_eq (hb : b.Indexed) (hk : k.Sound b) : b.closure? k = some (b.closure k) := by
  rw [closure?, closure, Closure.run?_eq hb hk]
  · rfl
  · exact fun i hi => hk.tokens i (by simpa using hi)
  · exact fun i hi => .kernel (List.mem_map_of_mem (by simpa using hi))
  · intro place hplace
    simpa using hplace

theorem hasItem_closure (hb : b.Sound) (hk : k.Sound b) {i : LookItem} (hi : i ∈ b.closure k) :
    b.HasItem i.item := 
  Implied.hasItem hb hk ((mem_closure_iff hb hk.tokens).mp ⟨i, hi, rfl⟩)

theorem validTerminals?_eq (hb : b.Indexed) (hk : k.Sound b) :
    b.validTerminals? k = some (b.validTerminals k) := by
  rw [validTerminals?, closure?_eq hb hk]
  refine (foldlM_eq_some (P := fun _ => True) (fun valid _ i hi => ⟨?_, trivial⟩) trivial).1
  rw [addValid?, after?_eq (hasItem_closure hb.toSound hk hi), next?]
  simp only [Option.bind_eq_bind, Option.bind_some]
  cases b.after i.item <;> rfl

theorem clashes?_eq (hb : b.Indexed) : b.clashes? v w = some (b.clashes v w) := by
  rw [clashes?, clashes, anyM_eq_some fun t ht => ?_, List.any_filter]
  have ht := (TokenSet.mem_toList.mp (List.mem_filter.mp ht).1).1
  rw [← hb.overlaps_size] at ht
  rw [Array.getElem?_eq_getElem ht]
  rfl

theorem compatible?_eq (hb : b.Indexed) : b.compatible? v w = some (b.compatible v w) := by
  rw [compatible?, compatible, clashes?_eq hb, clashes?_eq hb]
  cases b.clashes v w <;> rfl

theorem successors?_eq (hb : b.Indexed) (hk : k.Sound b) :
    b.successors? k = some (b.successors k) := by
  rw [successors?, closure?_eq hb hk]
  simp only [Option.bind_eq_bind, Option.bind_some]
  rw [mapM_eq_some fun i hi => after?_eq (hasItem_closure hb.toSound hk hi)]
  rfl

end Basis

/-! ## States -/

namespace ItemSets

variable {b : Basis} {s s' : ItemSets} {i target : StateId} {k : Kernel} {x : Symbol}
  {valid : TokenSet}

/-- Every waiting state is there. -/
def Queued (s : ItemSets) : Prop := ∀ j, j ∈ s.front ∨ j ∈ s.back → j < s.kernels.size

theorem enqueue_queued (h : s.Queued) (hi : i < s.kernels.size) : (s.enqueue i).Queued := by
  intro j hj
  rw [kernels_enqueue]
  unfold enqueue at hj
  split at hj
  · exact h j hj
  · rcases hj with hj | hj
    · exact h j (.inl hj)
    · rcases List.mem_cons.mp hj with rfl | hj
      · exact hi
      · exact h j (.inr hj)

theorem merge_queued (h : s.Queued) (ht : target < s.kernels.size) :
    (s.merge target k valid).Queued := by
  unfold merge
  split
  · exact h
  · simp only
    split
    · exact enqueue_queued (by simpa [Queued] using h) (by simpa using ht)
    · simpa [Queued] using h

theorem create_queued (h : s.Queued) (k : Kernel) (valid : TokenSet) :
    (s.create k valid).Queued := by
  intro j hj
  simp only [create, Array.size_push, List.mem_cons] at hj ⊢
  rcases hj with hj | rfl | hj
  · exact Nat.lt_succ_of_lt (h j (.inl hj))
  · exact Nat.lt_succ_self _
  · exact Nat.lt_succ_of_lt (h j (.inr hj))

theorem arrive_queued (hs : Inv b s) (h : s.Queued) :
    (arrive b i s (x, k)).Queued := by
  unfold arrive
  simp only
  split
  · rename_i t hfind
    obtain ⟨old, hold, -⟩ := (hs.byCore _ _).mp (List.mem_of_find?_eq_some hfind)
    exact merge_queued h (Array.getElem?_eq_some_iff.mp hold).1
  · split
    · exact create_queued h k (b.validTerminals k)
    · exact create_queued (s := { s with splits := s.splits + 1 }) h k (b.validTerminals k)

theorem enqueue?_eq (hi : i < s.queued.size) : s.enqueue? i = some (s.enqueue i) := by
  rw [enqueue?, enqueue, Array.getElem?_eq_getElem hi, Option.getD_some]
  cases s.queued[i] <;> rfl

theorem connect?_eq (hi : i < s.transitions.size) :
    s.connect? i x target = some (s.connect i x target) := by
  rw [connect?, modifyAt?_eq hi]
  rfl

theorem merge?_eq (h : Inv b s) (ht : target < s.kernels.size) :
    s.merge? target k valid = some (s.merge target k valid) := by
  rw [merge?, merge, Array.getElem?_eq_getElem ht, modifyAt?_eq (by rw [h.valid_size]; exact ht)]
  simp only [Option.bind_eq_bind, Option.bind_some]
  split
  · exact enqueue?_eq (by rw [h.queued_size]; exact ht)
  · rfl

theorem size_transitions_merge : (s.merge target k valid).transitions.size = s.transitions.size := by
  unfold merge
  split
  · rfl
  · simp only
    split
    · rw [transitions_enqueue]
    · rfl

theorem arrive?_eq (hb : b.Indexed) (h : Inv b s) (hk : k.Sound b) (hi : i < s.kernels.size) :
    arrive? b i s (x, k) = some (arrive b i s (x, k)) := by
  rw [← h.transitions_size] at hi
  have hfind : (s.withCore k).findM? (fun j => do
        b.compatible? (← s.valid[j]?) (b.validTerminals k))
      = some ((s.withCore k).find? fun j =>
        b.compatible (s.valid[j]?.getD TokenSet.empty) (b.validTerminals k)) := by
    refine findM?_eq_some fun j hj => ?_
    obtain ⟨kj, hkj, -⟩ := (h.byCore _ _).mp hj
    have hlt := (Array.getElem?_eq_some_iff.mp hkj).1
    rw [← h.valid_size] at hlt
    rw [Array.getElem?_eq_getElem hlt]
    exact Basis.compatible?_eq hb
  unfold arrive? arrive
  simp only [Basis.validTerminals?_eq hb hk, Option.bind_eq_bind, Option.bind_some] at hfind ⊢
  rw [hfind]
  cases ht : (s.withCore k).find? fun j =>
      b.compatible (s.valid[j]?.getD TokenSet.empty) (b.validTerminals k) with
  | some target =>
    obtain ⟨old, hold, -⟩ := (h.byCore _ _).mp (List.mem_of_find?_eq_some ht)
    simp only [Option.bind_some, merge?_eq h (Array.getElem?_eq_some_iff.mp hold).1]
    exact connect?_eq (by rw [size_transitions_merge]; exact hi)
  | none =>
    refine connect?_eq ?_
    simp only [create, Array.size_push]
    split <;> exact Nat.lt_succ_of_lt hi

theorem foldl_arrive?_eq (hb : b.Indexed) (hk : k.Sound b) {ki : Kernel} (xs : List Symbol)
    (hxs : ∀ x ∈ xs, x ∈ b.nextSymbols (b.closure k)) (h : Inv b s) (hq : s.Queued)
    (hi : s.kernels[i]? = some ki) (hc : core ki = core k) :
    (xs.map fun x => (x, b.advanceOver (b.closure k) x)).foldlM (arrive? b i) s
        = some ((xs.map fun x => (x, b.advanceOver (b.closure k) x)).foldl (arrive b i) s) ∧
      ((xs.map fun x => (x, b.advanceOver (b.closure k) x)).foldl (arrive b i) s).Queued := by
  induction xs generalizing s ki with
  | nil => exact ⟨rfl, hq⟩
  | cons x xs ih =>
    have hx := Basis.sound_advanceOver hb.toSound hk x
    have harrived := arrive_spec hb.toSound h hi hk hc (hxs x (by simp))
    obtain ⟨ki', hki', hci⟩ := harrived.extends'.kernels i ki hi
    rw [List.map_cons, List.foldlM_cons, List.foldl_cons,
      arrive?_eq hb h hx (Array.getElem?_eq_some_iff.mp hi).1]
    exact ih (fun y hy => hxs y (by simp [hy])) harrived.inv (arrive_queued h hq) hki'
      (hci.core.trans hc)

theorem expand?_eq (hb : b.Indexed) (h : Stable b s) (hq : s.Queued)
    (hn : s.next? = some (i, s')) :
    s'.expand? b i = some (s'.expand b i) ∧ (s'.expand b i).Queued := by
  have h₁ := taken_inv h hn
  obtain ⟨hkernels, -, -, hqueued, -, -, -⟩ := next?_spec hn
  have hwaits : ∀ j, j = i ∨ j ∈ s'.front ∨ j ∈ s'.back → j ∈ s.front ∨ j ∈ s.back := by
    intro j hj
    unfold next? at hn
    split at hn
    · rename_i hf
      obtain ⟨rfl, rfl⟩ := Prod.mk.inj (Option.some.inj hn)
      rw [hf, List.mem_cons, or_assoc]
      exact hj
    · rename_i hf
      split at hn
      · rename_i hb
        obtain ⟨rfl, rfl⟩ := Prod.mk.inj (Option.some.inj hn)
        refine .inr (List.mem_reverse.mp ?_)
        rw [hb, List.mem_cons]
        simpa using hj
      · contradiction
  have hi : i < s.kernels.size := hq i (hwaits i (.inl rfl))
  have hq₁ : Queued { s' with queued := s'.queued.setIfInBounds i false } := fun j hj =>
    hkernels ▸ hq j (hwaits j (.inr hj))
  have hk : s'.kernels[i]? = some s.kernels[i] := by
    rw [hkernels]
    exact Array.getElem?_eq_getElem hi
  have hks := h.kernels i _ (Array.getElem?_eq_getElem hi)
  have hset : modifyAt? s'.queued i (fun _ => false) = some (s'.queued.setIfInBounds i false) := by
    rw [modifyAt?_eq (by rw [hqueued, h.queued_size]; exact hi)]
    refine congrArg some (Array.ext_getElem? fun j => ?_)
    rw [Array.getElem?_modify, Array.getElem?_setIfInBounds]
    split
    · rename_i he
      subst he
      rw [if_pos (by rw [hqueued, h.queued_size]; exact hi),
        Array.getElem?_eq_getElem (by rw [hqueued, h.queued_size]; exact hi)]
      rfl
    · rfl
  unfold expand? expand
  simp only [hset, hk, Option.bind_eq_bind, Option.bind_some, Basis.successors?_eq hb hks]
  exact foldl_arrive?_eq hb hks (b.nextSymbols (b.closure s.kernels[i])) (fun _ hx => hx) h₁ hq₁
    hk rfl

theorem run?_eq (hb : b.Indexed) (fuel : Nat) (h : Stable b s) (hq : s.Queued) :
    run? b fuel s = some (run b fuel s) := by
  induction fuel generalizing s with
  | zero => rfl
  | succ fuel ih =>
    unfold run? run
    cases hn : s.next? with
    | none => rfl
    | some p =>
      obtain ⟨i, s'⟩ := p
      obtain ⟨hexpand, hq'⟩ := expand?_eq hb h hq hn
      simp only [hexpand, Option.bind_eq_bind, Option.bind_some]
      exact ih (expand_stable hb.toSound h hn) hq'

/-- The states come up without an index out of range. -/
theorem ofBasis?_eq (hb : b.Indexed) : ofBasis? b = some (ofBasis b) := by
  have hr : 0 < b.rhs.size := (Array.getElem?_eq_some_iff.mp hb.start).1
  have hstable := initial_stable hb.toSound hr
  have hinitial : initial? b = some (initial b) := by
    rw [initial?, Basis.validTerminals?_eq hb (sound_startKernel hb.toSound hr)]
    rfl
  rw [ofBasis?, hinitial]
  refine run?_eq hb _ hstable ?_
  intro j hj
  obtain rfl : j = 0 := by simpa [initial] using hj
  exact Nat.one_pos

end ItemSets

/-! ## Entries -/

namespace Offers

variable {b : Basis} {k : Kernel} {o : Offers} {i : LookItem}

/-- An item before a token is one of a production of the grammar, where the start symbol is no
token. -/
theorem exists_production (hb : b.Indexed) (hs : b.isTerminal b.grammar.start = false)
    {s : Symbol} {rest : List Symbol} (ha : b.after i.item = s :: rest)
    (ht : b.isTerminal s = true) :
    ∃ p step, b.production? i.item.production = some p ∧ p.steps[i.item.dot]? = some step := by
  obtain ⟨⟨p, d⟩, l⟩ := i
  simp only [Basis.after] at ha ⊢
  cases hr : b.rhs[p]? with
  | none => simp [hr] at ha
  | some r =>
    rw [hr, Option.getD_some] at ha
    cases p with
    | zero =>
      -- the one symbol of `S' → start` is the start symbol
      obtain rfl := Option.some.inj (hr.symm.trans hb.start)
      have hm : s ∈ [b.grammar.start] := List.mem_of_mem_drop (by rw [ha]; exact List.mem_cons_self)
      obtain rfl := List.mem_singleton.mp hm
      rw [hs] at ht
      contradiction
    | succ p =>
      obtain ⟨q, hq, rfl⟩ := hb.productions p r hr
      have hlt : d < q.steps.length := by
        have hlen := congrArg List.length ha
        simp only [List.length_drop, Production.rhs, List.length_map, List.length_cons] at hlen
        omega
      exact ⟨q, _, hq, List.getElem?_eq_getElem hlt⟩

theorem addItem?_eq (hb : b.Indexed) (hs : b.isTerminal b.grammar.start = false)
    (hi : b.HasItem i.item) : addItem? b o i = some (addItem b o i) := by
  rw [addItem?, addItem, Basis.after?_eq hi, Basis.next?]
  simp only [Option.bind_eq_bind, Option.bind_some]
  cases ha : b.after i.item with
  | nil =>
    simp only [List.head?_nil]
    split <;> rfl
  | cons s rest =>
    simp only [List.head?_cons]
    split
    · rename_i ht
      obtain ⟨p, step, hp, hstep⟩ := exists_production hb hs ha ht
      simp only [hp, hstep, Option.bind_some]
      rfl
    · rfl

theorem ofKernel?_eq (hb : b.Indexed) (hs : b.isTerminal b.grammar.start = false)
    (hk : k.Sound b) : ofKernel? b k = some (ofKernel b k) := by
  rw [ofKernel?, Basis.closure?_eq hb hk]
  exact (foldlM_eq_some (P := fun _ => True) (fun o _ i hi =>
    ⟨addItem?_eq hb hs (Basis.hasItem_closure hb.toSound hk hi), trivial⟩) trivial).1

/-- There is no production for the shift of a start symbol that is a token. -/
theorem ofKernel?_eq_none (hb : b.Indexed) (hs : b.isTerminal b.grammar.start = true)
    (hk : k.Sound b) (hi : i ∈ b.closure k) (hitem : i.item = ⟨0, 0⟩) : ofKernel? b k = .none := by
  rw [ofKernel?, Basis.closure?_eq hb hk]
  refine foldlM_eq_none hi (fun o => ?_) none
  have hafter : b.after? i.item = some [b.grammar.start] := by
    rw [Basis.after?, hitem, hb.start]
    rfl
  simp only [addItem?, hafter, Option.bind_eq_bind, Option.bind_some, hs, if_true]
  rw [hitem]
  rfl

end Offers

namespace Cells

variable {b : Basis} {k : Kernel} {o : Offers} {state : StateId} {ts : List (Symbol × StateId)}
  {states : Nat} {c : Cells} {row : Array Nat} {s : Symbol}

theorem resolve?_eq {t : Symbol} {shift : Option ShiftChoice} {reduces : List Nat}
    (h : ∀ p ∈ reduces, ∃ q, b.production? p = some q) :
    b.resolve? state t shift reduces = some (b.resolve state t shift reduces) := by
  have hmap : reduces.mapM (fun p => (b.production? p).map fun q => (p, q))
      = some (reduces.filterMap fun p => (b.production? p).map fun q => (p, q)) := by
    induction reduces with
    | nil => rfl
    | cons p rest ih =>
      obtain ⟨q, hq⟩ := h p (by simp)
      rw [List.mapM_cons, List.filterMap_cons, ih fun p hp => h p (by simp [hp]), hq]
      rfl
  unfold Basis.resolve? Basis.resolve
  split
  · rw [hmap]
    rfl
  · -- one reduction alone needs no resolving
    rename_i hfew
    simp only [Bool.or_eq_true, decide_eq_true_eq, not_or, Bool.not_eq_true,
      Option.isSome_eq_false_iff, Option.isNone_iff_eq_none] at hfew
    obtain ⟨hlength, rfl⟩ := hfew
    match reduces, hlength, h with
    | [], _, _ => rfl
    | [p], _, h =>
      obtain ⟨q, hq⟩ := h p (by simp)
      simp [hq, settle, strongest]
    | _ :: _ :: _, hlength, _ => exact absurd (by simp) hlength

theorem actionsFor?_eq (hb : b.Indexed) {items : List LookItem} (h : Offers.From b items o)
    (hitems : ∀ i ∈ items, b.HasItem i.item) (t : Symbol) :
    actionsFor? b state ts o t = some (actionsFor b state ts o t) := by
  have hreduces : ∀ p ∈ (o.reduces.lookup t).getD [], ∃ q, b.production? p = some q := by
    intro p hp
    cases hl : o.reduces.lookup t with
    | none => simp [hl] at hp
    | some ps =>
      rw [hl, Option.getD_some] at hp
      obtain ⟨hne, i, hi, -, rfl, -⟩ := (h.reduces _ (mem_of_lookup hl)).2 p hp
      obtain ⟨r, hr, -⟩ := hitems i hi
      obtain ⟨p, hp⟩ := Nat.exists_eq_succ_of_ne_zero hne
      rw [hp] at hr ⊢
      obtain ⟨q, hq, -⟩ := hb.productions p r hr
      exact ⟨q, hq⟩
  unfold actionsFor? actionsFor
  simp only [resolve?_eq hreduces, Option.bind_eq_bind, Option.bind_some]
  rfl

theorem setEntry?_eq (hstate : state < states) (hs : s < b.grammar.symbols.size) (entry : Nat) :
    setEntry? b states state row s entry = some (row.setIfInBounds s entry) := by
  refine if_pos ?_
  have hmul := Nat.mul_le_mul_right b.grammar.symbols.size hstate
  rw [Nat.succ_mul] at hmul
  exact Nat.lt_of_lt_of_le (Nat.add_lt_add_left hs _) hmul

theorem addTerminal?_eq (hb : b.Indexed) {items : List LookItem} (h : Offers.From b items o)
    (hitems : ∀ i ∈ items, b.HasItem i.item) (hstate : state < states)
    (acc : Cells × Array Nat × List Symbol) {t : Symbol} (ht : t < b.grammar.symbols.size) :
    addTerminal? b states state ts o acc t = some (addTerminal b state ts o acc t) := by
  unfold addTerminal? addTerminal
  simp only [actionsFor?_eq hb h hitems, setEntry?_eq hstate ht, Option.bind_eq_bind,
    Option.bind_some]
  split <;> rfl

theorem addState?_eq (hb : b.Indexed) (hs : b.isTerminal b.grammar.start = false)
    (hk : k.Sound b) (hstate : state < states)
    (hts : ∀ e ∈ ts, e.1 < b.grammar.symbols.size) :
    addState? b states c state k ts = some (addState b c state k ts) := by
  have hfrom := Offers.ofKernel_from b k
  have hterminals : ∀ t ∈ (Offers.ofKernel b k).terminals, t < b.grammar.symbols.size := by
    intro t ht
    have hterm := Offers.isTerminal_of_mem_terminals hb.toSound
      (fun i hi => Basis.tokens_closure hb.toSound hk.tokens hi) hfrom ht
    rw [Basis.isTerminal, Bool.and_eq_true, FlatGrammar.isTerminal] at hterm
    cases hi : b.grammar.symbols[t]? with
    | none => simp [hi] at hterm
    | some info => exact (Array.getElem?_eq_some_iff.mp hi).1
  have htokens (acc : Cells × Array Nat × List Symbol) :=
    (foldlM_eq_some (P := fun _ => True) (x := acc) (l := (Offers.ofKernel b k).terminals)
      (m := addTerminal? b states state ts (Offers.ofKernel b k))
      (fun acc _ t ht => ⟨addTerminal?_eq hb hfrom
        (fun i hi => Basis.hasItem_closure hb.toSound hk hi) hstate acc (hterminals t ht),
        trivial⟩) trivial).1
  have hgotos (row : Array Nat) :=
    (foldlM_eq_some (P := fun _ => True) (x := row) (l := ts)
      (m := fun row t => if b.isTerminal t.1 then some row
        else setEntry? b states state row t.1 (t.2 + 1))
      (f := fun row t => if b.isTerminal t.1 then row else row.setIfInBounds t.1 (t.2 + 1))
      (fun row _ t ht => ⟨by
        simp only [setEntry?_eq hstate (hts t ht)]
        split <;> rfl, trivial⟩) trivial).1
  unfold addState? addState
  simp only [Offers.ofKernel?_eq hb hs hk, htokens, hgotos, Option.bind_eq_bind, Option.bind_some]
  rfl

/-- The rows come up without an index out of range, where the start symbol is no token. -/
theorem ofItemSets?_eq (hb : b.Indexed) (hs : b.isTerminal b.grammar.start = false)
    {s : ItemSets} (h : ItemSets.Inv b s) : ofItemSets? b s = some (ofItemSets b s) := by
  have hzip : s.kernels.toList.zipIdx
      = (s.kernels.zip s.transitions).toList.zipIdx.map fun e => (e.1.1, e.2) := by
    apply List.ext_getElem?
    intro i
    rw [List.getElem?_map, List.getElem?_zipIdx, List.getElem?_zipIdx, Array.getElem?_toList,
      Array.getElem?_toList]
    cases hk : s.kernels[i]? with
    | none =>
      have hle := Array.getElem?_eq_none_iff.mp hk
      rw [Array.getElem?_eq_none (by rw [Array.size_zip]; omega)]
      rfl
    | some k =>
      have hlt := (Array.getElem?_eq_some_iff.mp hk).1
      rw [← h.transitions_size] at hlt
      have hboth : (s.kernels.zip s.transitions)[i]? = some (k, s.transitions[i]) :=
        Array.getElem?_zip_eq_some.mpr ⟨hk, Array.getElem?_eq_getElem hlt⟩
      rw [hboth]
      rfl
  rw [ofItemSets?, ofItemSets, hzip, List.foldlM_map]
  refine (foldlM_eq_some (P := fun _ => True) (fun c _ e he => ⟨?_, trivial⟩) trivial).1
  obtain ⟨⟨k, ts⟩, i⟩ := e
  have he := List.mem_zipIdx_iff_getElem?.mp he
  rw [Array.getElem?_toList, Array.getElem?_zip_eq_some] at he
  obtain ⟨hk, hts⟩ := he
  simp only [hts, Option.bind_eq_bind, Option.bind_some]
  refine addState?_eq hb hs (h.kernels i k hk) (Array.getElem?_eq_some_iff.mp hk).1 fun e he => ?_
  have hnext := (h.transitions i k ts e.1 e.2 hk hts he).1
  obtain ⟨j, -, hn⟩ := Basis.mem_nextSymbols.mp hnext
  exact Basis.symbols_after hb (Basis.next?_eq_some_iff.mp hn) e.1 (by simp)

/-- Where the start symbol is a token, the row of state zero looks up a production that is not
there. -/
theorem ofItemSets?_eq_none (hb : b.Indexed) (hs : b.isTerminal b.grammar.start = true)
    {s : ItemSets} (h : ItemSets.Inv b s) : ofItemSets? b s = none := by
  obtain ⟨k, hk, hcovers⟩ := h.start
  have hks := h.kernels 0 k hk
  have hcore : (⟨0, 0⟩ : Item) ∈ core k := by
    rw [hcovers.core]
    exact List.mem_singleton_self _
  obtain ⟨i, hi, hitem⟩ := (Basis.mem_closure_iff hb.toSound hks.tokens).mpr (.kernel hcore)
  have hmem : (k, 0) ∈ s.kernels.toList.zipIdx :=
    List.mem_zipIdx_iff_getElem?.mpr (by simpa using hk)
  refine foldlM_eq_none hmem (fun c => ?_) initial
  cases s.transitions[0]? with
  | none => rfl
  | some ts =>
    simp only [Option.bind_eq_bind, Option.bind_some]
    rw [addState?, Offers.ofKernel?_eq_none hb hs hks hi hitem]
    rfl

end Cells

end Automaton

open Automaton in
/-- The table is the one of the construction without checks, or there is none: the start symbol is
a token then. -/
theorem FlatGrammar.table?_eq {g : FlatGrammar} (hg : g.WellFormed) (name : String) :
    g.table? name = if g.isTerminal g.start then none else some (g.table name) := by
  have hb := Basis.ofGrammar_indexed hg
  have hr : 0 < (Basis.ofGrammar g).rhs.size := (Array.getElem?_eq_some_iff.mp hb.start).1
  have hinv := (ItemSets.ofBasis_stable hb.toSound hr).toInv
  have hterm : (Basis.ofGrammar g).isTerminal g.start = g.isTerminal g.start :=
    Basis.isTerminal_ofGrammar
  unfold FlatGrammar.table? FlatGrammar.table
  simp only [Basis.ofGrammar?_eq hg, ItemSets.ofBasis?_eq hb, Option.bind_eq_bind,
    Option.bind_some]
  cases hs : g.isTerminal g.start with
  | true =>
    rw [Cells.ofItemSets?_eq_none hb (hterm.trans hs) hinv]
    rfl
  | false =>
    rw [Cells.ofItemSets?_eq hb (hterm.trans hs) hinv]
    rfl

end Glr
