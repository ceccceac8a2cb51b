import Glr.Proofs.Automaton.Offers

/-!
# Glr.Proofs.Automaton.Conflict

What the items of a state offer for a token, and grammars in which no state is offered two
things for one token.  Resolution has nothing to decide there, and cannot leave nothing:
what is offered is what the table says.
-/

namespace Glr.Automaton

/-- What an item has its state do on a token. -/
inductive Offer where
  | shift
  | reduce (production : ProductionId)
  | accept
  deriving DecidableEq, Repr

/-- What an action does. -/
def Offer.ofAction : ParseAction → Offer
  | .shift _ => .shift
  | .reduce p => .reduce p
  | .accept => .accept

namespace Basis

variable (b : Basis)

/-- What an item offers for a token: to shift the token at its position, or at its end to
reduce its production. -/
def offer? (i : LookItem) (t : Symbol) : Option Offer :=
  match b.next? i.item with
  | some s => if b.isTerminal s ∧ s = t then some .shift else none
  | none =>
    match i.item.production with
    | 0 => if t = endSymbol then some .accept else none
    | p + 1 => if i.lookahead.contains t then some (.reduce p) else none

/-- What the closure of a kernel offers for a token. -/
def offers (k : Kernel) (t : Symbol) : List Offer := (b.closure k).filterMap (b.offer? · t)

end Basis

variable {b : Basis} {o : Offers} {i : LookItem} {items : List LookItem} {k : Kernel}
  {ts : List (Symbol × StateId)} {t : Symbol} {x : Offer}

/-- A shift is offered for the token at the position of the item. -/
theorem Basis.next?_of_offer_shift (h : b.offer? i t = some .shift) : b.next? i.item = some t := by
  unfold offer? at h
  cases hn : b.next? i.item with
  | some s =>
    simp only [hn] at h
    split at h
    · rename_i hs
      rw [hs.2]
    · contradiction
  | none =>
    simp only [hn] at h
    split at h <;> split at h <;> simp at h

/-- What calls for an action offers it. -/
theorem Calls.exists_offer (ht : b.isTerminal t = true) {action : ParseAction}
    (h : Calls b items ts t action) : ∃ i ∈ items, b.offer? i t = some (.ofAction action) := by
  cases h with
  | shift _ hi =>
    obtain ⟨i, hi, hn, -⟩ := hi
    exact ⟨i, hi, by simp [Basis.offer?, hn, ht, Offer.ofAction]⟩
  | @reduce p i hi hn hp _ hl => exact ⟨i, hi, by simp [Basis.offer?, hn, hp, hl, Offer.ofAction]⟩
  | @accept i hi hn hp he => exact ⟨i, hi, by simp [Basis.offer?, hn, hp, he, Offer.ofAction]⟩

/-! ## Nothing offered is lost -/

/-- Altering a list sets one key and keeps the others. -/
theorem mem_keys_alter {α : Type} {key : Symbol} {f : Option α → α} {l : List (Symbol × α)} :
    t ∈ (alter key f l).map Prod.fst ↔ t = key ∨ t ∈ l.map Prod.fst := by
  induction l with
  | nil => simp [alter]
  | cons e es ih =>
    unfold alter
    split
    · simp
    · split
      · rename_i he
        simp [he]
      · rw [List.map_cons, List.mem_cons, ih, List.map_cons, List.mem_cons, or_left_comm]

theorem exists_lookup {α : Type} {l : List (Symbol × α)} (h : t ∈ l.map Prod.fst) :
    ∃ v, l.lookup t = some v := by
  obtain ⟨e, he, rfl⟩ := List.mem_map.mp h
  exact Option.isSome_iff_exists.mp (List.lookup_isSome_iff.mpr ⟨e, he, beq_self_eq_true _⟩)

namespace Offers

/-- Something of this kind is offered for a token. -/
def Has (o : Offers) (t : Symbol) : Offer → Prop
  | .shift => t ∈ o.shifts.map Prod.fst
  | .reduce _ => t ∈ o.reduces.map Prod.fst
  | .accept => o.accepts = true ∧ t = endSymbol

theorem mem_keys_addReduce {p : Nat} {terminals : List Symbol} :
    t ∈ (o.addReduce p terminals).reduces.map Prod.fst ↔
      t ∈ terminals ∨ t ∈ o.reduces.map Prod.fst := by
  unfold addReduce
  simp only
  generalize o.reduces = rs
  induction terminals generalizing rs with
  | nil => simp
  | cons t' rest ih =>
    rw [List.foldl_cons, ih, mem_keys_alter, List.mem_cons, or_left_comm, or_assoc]

theorem Has.addItem (h : o.Has t x) : (addItem b o i).Has t x := by
  unfold Offers.addItem
  split
  · split
    · split
      · cases x with
        | shift => exact mem_keys_alter.mpr (.inr h)
        | reduce => exact h
        | accept => exact h
      · exact h
    · exact h
  · split
    · cases x with
      | shift => exact h
      | reduce => exact h
      | accept => exact ⟨rfl, h.2⟩
    · cases x with
      | shift => exact h
      | reduce => exact mem_keys_addReduce.mpr (.inr h)
      | accept => exact h

/-- What an item offers is there once the item has been added. -/
theorem has_addItem (h : b.offer? i t = some x) (hl : b.Tokens i.lookahead)
    (hp : x = .shift → (b.production? i.item.production).isSome = true) :
    (addItem b o i).Has t x := by
  unfold Basis.offer? at h
  unfold Offers.addItem
  cases hn : b.next? i.item with
  | some s =>
    simp only [hn] at h ⊢
    split at h
    · rename_i hs
      obtain ⟨hs, rfl⟩ := hs
      obtain rfl := Option.some.inj h
      obtain ⟨p, hp⟩ := Option.isSome_iff_exists.mp (hp rfl)
      simp only [hs, if_true, hp]
      exact mem_keys_alter.mpr (.inl rfl)
    · contradiction
  | none =>
    simp only [hn] at h ⊢
    split at h
    · rename_i hz
      split at h
      · rename_i he
        obtain rfl := Option.some.inj h
        rw [if_pos hz]
        exact ⟨rfl, he⟩
      · contradiction
    · rename_i p hz
      split at h
      · rename_i hc
        obtain rfl := Option.some.inj h
        rw [if_neg (by omega)]
        exact mem_keys_addReduce.mpr (.inl (TokenSet.mem_toList.mpr ⟨hl.below t hc, hc⟩))
      · contradiction

/-- What is offered in the closure of a kernel is offered in its state. -/
theorem ofKernel_has (hb : b.Sound) (hk : k.Sound b) (hi : i ∈ b.closure k)
    (h : b.offer? i t = some x)
    (hp : x = .shift → (b.production? i.item.production).isSome = true) :
    (ofKernel b k).Has t x := by
  have keeps (l : List LookItem) (o : Offers) (ho : o.Has t x) :
      (l.foldl (Offers.addItem b) o).Has t x := by
    induction l generalizing o with
    | nil => exact ho
    | cons j rest ih => exact ih _ ho.addItem
  obtain ⟨before, after, he⟩ := List.append_of_mem hi
  rw [ofKernel, he, List.foldl_append, List.foldl_cons]
  exact keeps after _ (has_addItem h (Basis.tokens_closure hb hk.tokens hi) hp)

theorem Has.mem_terminals (h : o.Has t x) : t ∈ o.terminals := by
  unfold terminals
  simp only [mem_eraseReps, SortedList.mem_sort, List.mem_append]
  cases x with
  | shift => exact .inl (.inl h)
  | reduce => exact .inl (.inr h)
  | accept =>
    obtain ⟨ha, rfl⟩ := h
    exact .inr (by simp [ha])

end Offers

/-! ## Something is left -/

/-- Among candidates for one token resolution keeps something. -/
theorem Basis.resolve_ne_none (state : StateId) (t : Symbol) {shift : Option ShiftChoice} {ps : List Nat}
    (h : shift.isSome = true ∨ ∃ p ∈ ps, (b.production? p).isSome = true) :
    shift.isSome = true ∧ (b.resolve state t shift ps).1 = true ∨
      (b.resolve state t shift ps).2.1 ≠ [] := by
  have hcandidates (h : ∃ p ∈ ps, (b.production? p).isSome = true) :
      (ps.filterMap fun p => (b.production? p).map fun q => (p, q)) ≠ [] := by
    obtain ⟨p, hp, hq⟩ := h
    obtain ⟨q, hq⟩ := Option.isSome_iff_exists.mp hq
    exact List.ne_nil_of_mem (List.mem_filterMap.mpr ⟨p, hp, by rw [hq]; rfl⟩)
  rcases settle_ne_none (h.imp_right hcandidates) with hs | hs
  · cases shift with
    | none => contradiction
    | some s => exact .inl ⟨rfl, hs⟩
  · exact .inr (by simpa [resolve] using hs)

/-- Where no shift is kept, a reduction is. -/
theorem Basis.kept_ne_nil (state : StateId) (t : Symbol) {shift : Option ShiftChoice} {ps : List Nat}
    (hshift : (match shift with
      | some s => if (b.resolve state t shift ps).1 then [ParseAction.shift s.target] else []
      | none => []) = [])
    (h : shift.isSome = true ∨ ∃ p ∈ ps, (b.production? p).isSome = true) :
    (b.resolve state t shift ps).2.1 ≠ [] := by
  rcases resolve_ne_none state t h with ⟨hs, hkeep⟩ | hne
  · obtain ⟨s, rfl⟩ := Option.isSome_iff_exists.mp hs
    simp [hkeep] at hshift
  · exact hne

/-- Where something is offered, the table has an action. -/
theorem Cells.actionsFor_ne_nil {state : StateId} (h : Offers.From b items o)
    (hitems : ∀ i ∈ items, i.item.production ≠ 0 → (b.production? i.item.production).isSome = true)
    (hx : o.Has t x) (hts : x = .shift → t ∈ ts.map Prod.fst) :
    (actionsFor b state ts o t).1 ≠ [] := by
  intro hnil
  simp only [actionsFor, List.append_eq_nil_iff, List.map_eq_nil_iff] at hnil
  obtain ⟨⟨haccept, hshift⟩, hkept⟩ := hnil
  cases x with
  | accept => simp [hx.1, hx.2] at haccept
  | shift =>
    obtain ⟨v, hv⟩ := exists_lookup hx
    obtain ⟨target, ht⟩ := exists_lookup (hts rfl)
    exact Basis.kept_ne_nil state t hshift (.inl (by rw [hv, ht]; rfl)) hkept
  | reduce p =>
    obtain ⟨ps, hps⟩ := exists_lookup hx
    obtain ⟨hne, hall⟩ := h.reduces _ (mem_of_lookup hps)
    obtain ⟨p, hp⟩ := List.exists_mem_of_ne_nil _ hne
    obtain ⟨hz, i, hi, -, rfl, -⟩ := hall p hp
    exact Basis.kept_ne_nil state t hshift (.inr ⟨_, by simpa [hps] using hp, hitems i hi hz⟩) hkept

end Glr.Automaton
