import Glr.Automaton.Cells
import Glr.Proofs.Automaton.Kernel

/-!
# Glr.Proofs.Automaton.Offers

What a state offers comes from the items of its closure, and conflict resolution
only takes actions away: every action of a state for a token goes back to an item
that calls for it.
-/

namespace Glr.Automaton

/-- An altered list holds what it held before, but for the key. -/
theorem mem_alter {α : Type} {key t : Symbol} {v : α} {f : Option α → α} {l : List (Symbol × α)}
    (h : (t, v) ∈ alter key f l) :
    (t, v) ∈ l ∨ t = key ∧ (v = f none ∨ ∃ w, (key, w) ∈ l ∧ v = f (some w)) := by
  induction l with
  | nil =>
    obtain ⟨rfl, rfl⟩ := Prod.mk.inj (List.mem_singleton.mp h)
    exact .inr ⟨rfl, .inl rfl⟩
  | cons e es ih =>
    unfold alter at h
    split at h
    · rcases List.mem_cons.mp h with h | h
      · obtain ⟨rfl, rfl⟩ := Prod.mk.inj h
        exact .inr ⟨rfl, .inl rfl⟩
      · exact .inl h
    · split at h
      · rename_i he
        rcases List.mem_cons.mp h with h | h
        · obtain ⟨rfl, rfl⟩ := Prod.mk.inj h
          exact .inr ⟨rfl, .inr ⟨e.2, by simp [he], rfl⟩⟩
        · exact .inl (by simp [h])
      · rcases List.mem_cons.mp h with h | h
        · exact .inl (by simp [h])
        · rcases ih h with h | ⟨rfl, h | ⟨w, hw, h⟩⟩
          · exact .inl (by simp [h])
          · exact .inr ⟨rfl, .inl h⟩
          · exact .inr ⟨rfl, .inr ⟨w, by simp [hw], h⟩⟩

namespace Offers

variable {b : Basis} {o : Offers} {items : List LookItem} {i : LookItem}

/-- Everything offered goes back to some of the items. -/
structure From (b : Basis) (items : List LookItem) (o : Offers) : Prop where
  shifts : ∀ e ∈ o.shifts, b.isTerminal e.1 = true ∧ ∃ i ∈ items, b.next? i.item = some e.1 ∧
    i.item.production ≠ 0
  reduces : ∀ e ∈ o.reduces, e.2 ≠ [] ∧ ∀ p ∈ e.2, p ≠ 0 ∧ ∃ i ∈ items,
    b.next? i.item = .none ∧ i.item.production = p ∧ i.lookahead.contains e.1 = true
  accepts : o.accepts = true → ∃ i ∈ items, b.next? i.item = .none ∧ i.item.production = 0

theorem From.mono {more : List LookItem} (h : From b items o) (hs : ∀ i ∈ items, i ∈ more) :
    From b more o where
  shifts := by
    intro e he
    obtain ⟨ht, i, hi, hn⟩ := h.shifts e he
    exact ⟨ht, i, hs i hi, hn⟩
  reduces := by
    intro e he
    refine ⟨(h.reduces e he).1, fun p hp => ?_⟩
    obtain ⟨hp, i, hi, hn⟩ := (h.reduces e he).2 p hp
    exact ⟨hp, i, hs i hi, hn⟩
  accepts := by
    intro ha
    obtain ⟨i, hi, hn⟩ := h.accepts ha
    exact ⟨i, hs i hi, hn⟩

/-- A reduction for some tokens goes back to the item that it is for. -/
theorem From.addReduce (h : From b items o) (hi : i ∈ items) (hn : b.next? i.item = .none)
    (hp : i.item.production ≠ 0) (ts : List Symbol)
    (hts : ∀ t ∈ ts, i.lookahead.contains t = true) :
    From b items (o.addReduce i.item.production ts) := by
  refine ⟨h.shifts, ?_, h.accepts⟩
  unfold Offers.addReduce
  simp only
  have hreduces := h.reduces
  generalize o.reduces = rs at hreduces
  induction ts generalizing rs with
  | nil => exact hreduces
  | cons t ts ih =>
    refine ih (fun t' ht' => hts t' (by simp [ht'])) _ ?_
    rintro ⟨t', ps⟩ he
    rcases mem_alter he with he | ⟨rfl, rfl | ⟨ps', hps', rfl⟩⟩
    · exact hreduces (t', ps) he
    · refine ⟨by simp, fun p hmem => ?_⟩
      obtain rfl := List.mem_singleton.mp hmem
      exact ⟨hp, i, hi, hn, rfl, hts t' (by simp)⟩
    · refine ⟨by simp, fun p hmem => ?_⟩
      rcases List.mem_append.mp hmem with hmem | hmem
      · exact (hreduces (t', ps') hps').2 p hmem
      · obtain rfl := List.mem_singleton.mp hmem
        exact ⟨hp, i, hi, hn, rfl, hts t' (by simp)⟩

theorem From.addItem (h : From b items o) (hi : i ∈ items) : From b items (addItem b o i) := by
  unfold Offers.addItem
  cases hn : b.next? i.item with
  | some s =>
    simp only
    split
    · rename_i ht
      split
      · rename_i q hq
        refine ⟨?_, h.reduces, h.accepts⟩
        rintro ⟨t, v⟩ he
        rcases mem_alter he with he | ⟨rfl, -⟩
        · exact h.shifts (t, v) he
        · refine ⟨ht, i, hi, hn, fun hp => ?_⟩
          rw [hp] at hq
          contradiction
      · exact h
    · exact h
  | none =>
    simp only
    split
    · rename_i hp
      exact ⟨h.shifts, h.reduces, fun _ => ⟨i, hi, hn, hp⟩⟩
    · rename_i hp
      exact h.addReduce hi hn hp _ fun t ht => (TokenSet.mem_toList.mp ht).2

theorem ofKernel_from (b : Basis) (k : Kernel) : From b (b.closure k) (ofKernel b k) := by
  have key (l : List LookItem) (o : Offers) (hl : ∀ i ∈ l, i ∈ b.closure k)
      (ho : From b (b.closure k) o) : From b (b.closure k) (l.foldl (Offers.addItem b) o) := by
    induction l generalizing o with
    | nil => exact ho
    | cons i rest ih => exact ih _ (fun j hj => hl j (by simp [hj])) (ho.addItem (hl i (by simp)))
  exact key _ _ (fun _ hi => hi) ⟨by simp [none], by simp [none], by simp [none]⟩

/-- Something is offered for tokens only. -/
theorem isTerminal_of_mem_terminals (hb : b.Sound)
    (hitems : ∀ i ∈ items, b.Tokens i.lookahead) (h : From b items o) {t : Symbol}
    (ht : t ∈ o.terminals) : b.isTerminal t = true := by
  unfold terminals at ht
  simp only [mem_eraseReps, SortedList.mem_sort, List.mem_append, List.mem_map] at ht
  rcases ht with (⟨e, he, rfl⟩ | ⟨e, he, rfl⟩) | ht
  · exact (h.shifts e he).1
  · obtain ⟨hne, hall⟩ := h.reduces e he
    obtain ⟨p, hp⟩ := List.exists_mem_of_ne_nil _ hne
    obtain ⟨-, i, hi, -, -, hc⟩ := hall p hp
    exact hitems i hi e.1 hc
  · split at ht
    · obtain rfl := List.mem_singleton.mp ht
      exact hb.endToken
    · simp at ht

end Offers

/-! ## Actions -/

/-- What calls for an action on a token among some items. -/
inductive Calls (b : Basis) (items : List LookItem) (ts : List (Symbol × StateId)) (t : Symbol) :
    ParseAction → Prop where
  | shift {target : StateId} (ht : (t, target) ∈ ts)
      (hi : ∃ i ∈ items, b.next? i.item = some t ∧ i.item.production ≠ 0) : Calls b items ts t (.shift target)
  | reduce {p : Nat} {i : LookItem} (hi : i ∈ items) (hn : b.next? i.item = none)
      (hp : i.item.production = p + 1) (hq : (b.grammar.productions[p]?).isSome = true)
      (hl : i.lookahead.contains t = true) : Calls b items ts t (.reduce p)
  | accept {i : LookItem} (hi : i ∈ items) (hn : b.next? i.item = none)
      (hp : i.item.production = 0) (ht : t = endSymbol) : Calls b items ts t .accept

/-- Resolution keeps reductions only that took part. -/
theorem Basis.mem_of_mem_resolve {b : Basis} {state : StateId} {t : Symbol}
    {shift : Option ShiftChoice} {reduces : List Nat} {p : Nat}
    (h : p ∈ (b.resolve state t shift reduces).2.1) :
    p ∈ reduces ∧ (b.production? p).isSome = true := by
  have hsettle (rs : List (Nat × Production)) (r : Nat × Production)
      (hr : r ∈ (settle shift rs).2) : r ∈ rs := by
    unfold settle at hr
    cases shift with
    | none => exact (mem_strongest.mp hr).1
    | some s => exact (mem_strongest.mp (List.mem_filter.mp hr).1).1
  obtain ⟨r, hr, rfl⟩ := List.mem_map.mp h
  have hr := hsettle _ r hr
  obtain ⟨p, hp, hr⟩ := List.mem_filterMap.mp hr
  obtain ⟨q, hq, rfl⟩ := Option.map_eq_some_iff.mp hr
  exact ⟨hp, by simp [hq]⟩

/-- Every action of a state goes back to an item. -/
theorem Cells.calls_of_mem_actionsFor {b : Basis} {items : List LookItem} {state : StateId}
    {ts : List (Symbol × StateId)} {o : Offers} (h : Offers.From b items o) {t : Symbol}
    {action : ParseAction} (ha : action ∈ (Cells.actionsFor b state ts o t).1) :
    Calls b items ts t action := by
  unfold Cells.actionsFor at ha
  simp only [List.mem_append] at ha
  rcases ha with (ha | ha) | ha
  · split at ha
    · rename_i hc
      obtain rfl := List.mem_singleton.mp ha
      simp only [Bool.and_eq_true, beq_iff_eq] at hc
      obtain ⟨i, hi, hn, hp⟩ := h.accepts hc.1
      exact .accept hi hn hp hc.2
    · simp at ha
  · cases hshift : o.shifts.lookup t with
    | none => simp [hshift] at ha
    | some v =>
      cases htarget : ts.lookup t with
      | none => simp [hshift, htarget] at ha
      | some target =>
        simp only [hshift, htarget] at ha
        split at ha
        · obtain rfl := List.mem_singleton.mp ha
          exact .shift (mem_of_lookup htarget) (h.shifts _ (mem_of_lookup hshift)).2
        · simp at ha
  · obtain ⟨p, hp, rfl⟩ := List.mem_map.mp ha
    obtain ⟨hp, hq⟩ := Basis.mem_of_mem_resolve hp
    cases hl : o.reduces.lookup t with
    | none => simp [hl] at hp
    | some ps =>
      rw [hl, Option.getD_some] at hp
      obtain ⟨hne, i, hi, hn, rfl, hc⟩ := (h.reduces _ (mem_of_lookup hl)).2 p hp
      obtain ⟨q, hq'⟩ := Nat.exists_eq_succ_of_ne_zero hne
      rw [hq'] at hq ⊢
      exact .reduce hi hn hq' hq hc

end Glr.Automaton
