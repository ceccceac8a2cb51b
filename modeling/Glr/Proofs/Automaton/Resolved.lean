import Glr.Proofs.Automaton.Conflict

/-!
# Glr.Proofs.Automaton.Resolved

What the actions of a state say about its conflicts.  A state offers a shift with the highest
precedence of the steps that take the token, and every reduction whose item the token may
follow; of what resolution leaves,

```
reduce p   →   p does not lose against the shift
shift      →   the strongest reduction does not win against it
```

The reductions of the highest precedence are compared with the shift one by one,

```
            precedence     left          no            right
reduce      higher         equal         equal
shift                                    equal         equal, lower
```

and the shift stays unless one of them beats it.  As a reduction that beats the shift is kept
itself, something always stays, however the associativities are mixed.

* `Basis.mem_resolve_iff`, `Basis.resolve_shift_iff` — which reductions stay, and whether the shift;
* `Basis.resolve_leaves` — what stays is never nothing, and of one precedence.
-/

namespace Glr.Automaton

variable {b : Basis} {o : Offers} {i : LookItem} {k : Kernel} {t key : Symbol} {p : Nat}

/-! ## Lists sorted by keys -/

/-- The keys increase. -/
def Sorted {α : Type} (l : List (Symbol × α)) : Prop := l.Pairwise fun e e' => e.1 < e'.1

theorem Sorted.alter {α : Type} {f : Option α → α} {l : List (Symbol × α)} (h : Sorted l) :
    Sorted (alter key f l) := by
  induction l with
  | nil => exact List.pairwise_singleton _ _
  | cons e es ih =>
    obtain ⟨he, hes⟩ := List.pairwise_cons.mp h
    unfold Automaton.alter
    split
    · rename_i hlt
      refine List.pairwise_cons.mpr ⟨fun e' he' => ?_, h⟩
      rcases List.mem_cons.mp he' with rfl | he'
      · exact hlt
      · exact Nat.lt_trans hlt (he e' he')
    · split
      · rename_i hk
        exact List.pairwise_cons.mpr ⟨fun e' he' => hk ▸ he e' he', hes⟩
      · rename_i hlt hne
        refine List.pairwise_cons.mpr ⟨fun e' he' => ?_, ih hes⟩
        rcases mem_keys_alter.mp (List.mem_map_of_mem he') with hk | hk
        · exact hk ▸ Nat.lt_of_le_of_ne (Nat.le_of_not_lt hlt) (Ne.symm hne)
        · obtain ⟨e'', he'', hk⟩ := List.mem_map.mp hk
          exact hk ▸ he e'' he''

theorem lookup_alter_of_ne {α : Type} {f : Option α → α} {l : List (Symbol × α)} (h : t ≠ key) :
    (alter key f l).lookup t = l.lookup t := by
  have hne : (t == key) = false := by simpa using h
  induction l with
  | nil => simp [Automaton.alter, List.lookup_cons, hne]
  | cons e es ih =>
    obtain ⟨k, v⟩ := e
    unfold Automaton.alter
    split
    · rw [List.lookup_cons, hne]
    · split
      · rename_i hk
        obtain rfl : key = k := hk
        rw [List.lookup_cons, hne, List.lookup_cons, hne]
      · rw [List.lookup_cons, ih, List.lookup_cons]

/-- In a sorted list a key occurs once. -/
theorem Sorted.lookup_alter {α : Type} {f : Option α → α} {l : List (Symbol × α)}
    (h : Sorted l) : (Automaton.alter key f l).lookup key = some (f (l.lookup key)) := by
  induction l with
  | nil => simp [Automaton.alter]
  | cons e es ih =>
    obtain ⟨k, v⟩ := e
    obtain ⟨he, hes⟩ := List.pairwise_cons.mp h
    unfold Automaton.alter
    split
    · rename_i hlt
      have hnone : ((k, v) :: es).lookup key = none := by
        refine List.lookup_eq_none_iff.mpr fun e' he' => ?_
        have hlt' : key < e'.1 := by
          rcases List.mem_cons.mp he' with rfl | he'
          · exact hlt
          · exact Nat.lt_trans hlt (he e' he')
        simpa using Nat.ne_of_lt hlt'
      rw [hnone, List.lookup_cons_self]
    · split
      · rename_i hk
        obtain rfl : key = k := hk
        rw [List.lookup_cons_self, List.lookup_cons_self]
      · rename_i hne
        have hne : (key == k) = false := by simpa using hne
        rw [List.lookup_cons, hne, List.lookup_cons, hne]
        exact ih hes

/-! ## What is offered -/

namespace Offers

/-- All shifts of a token have this precedence. -/
theorem precedence_of_shift {c : Int} (hc : lowestPrecedence ≤ c)
    (h : ∀ i ∈ b.closure k, b.next? i.item = some t → ∀ q, b.production? i.item.production = some q →
      ((q.steps[i.item.dot]?).bind Step.precedence).getD 0 = c) :
    ∀ v, (t, v) ∈ (ofKernel b k).shifts → v.1 = c := by
  have hitem (o : Offers) (i : LookItem) (hi : i ∈ b.closure k)
      (ho : ∀ v, (t, v) ∈ o.shifts → v.1 = c) : ∀ v, (t, v) ∈ (addItem b o i).shifts → v.1 = c := by
    intro v hv
    unfold addItem at hv
    split at hv
    · rename_i s hn
      split at hv
      · split at hv
        · rename_i q hq
          rcases mem_alter hv with hv | ⟨rfl, hv⟩
          · exact ho v hv
          · have hstep := h i hi hn q hq
            rcases hv with rfl | ⟨w, hw, rfl⟩
            · rw [hstep]
              exact Int.max_eq_right hc
            · have hold := ho w hw
              obtain ⟨c', ls⟩ := w
              obtain rfl : c' = c := hold
              rw [hstep]
              exact Int.max_self c'
        · exact ho v hv
      · exact ho v hv
    · split at hv
      · exact ho v hv
      · exact ho v hv
  have key (items : List LookItem) (o : Offers) (hi : ∀ i ∈ items, i ∈ b.closure k)
      (ho : ∀ v, (t, v) ∈ o.shifts → v.1 = c) :
      ∀ v, (t, v) ∈ (items.foldl (addItem b) o).shifts → v.1 = c := by
    induction items generalizing o with
    | nil => exact ho
    | cons i items ih =>
      exact ih _ (fun j hj => hi j (by simp [hj])) (hitem o i (hi i (by simp)) ho)
  exact key _ _ (fun _ hi => hi) (by simp [none])

/-- A reduction is listed for a token. -/
def Lists (o : Offers) (t : Symbol) (p : Nat) : Prop := p ∈ (o.reduces.lookup t).getD []

/-- What is listed is complete in some item. -/
theorem From.of_lists {items : List LookItem} (h : From b items o) (hp : o.Lists t p) :
    p ≠ 0 ∧ ∃ i ∈ items, b.next? i.item = .none ∧ i.item.production = p := by
  unfold Lists at hp
  cases hl : o.reduces.lookup t with
  | none => simp [hl] at hp
  | some ps =>
    rw [hl, Option.getD_some] at hp
    obtain ⟨hne, i, hi, hn, he, -⟩ := (h.reduces _ (mem_of_lookup hl)).2 p hp
    exact ⟨hne, i, hi, hn, he⟩

theorem addReduce_lists {terminals : List Symbol} (hs : Sorted o.reduces) {q : Nat}
    (h : o.Lists t q ∨ t ∈ terminals ∧ q = p) : (o.addReduce p terminals).Lists t q := by
  unfold Lists addReduce at *
  simp only
  generalize o.reduces = rs at hs h
  induction terminals generalizing rs with
  | nil => exact h.resolve_right (by simp)
  | cons t' rest ih =>
    refine ih _ hs.alter ?_
    by_cases he : t = t'
    · subst he
      left
      rw [hs.lookup_alter, Option.getD_some, List.mem_append, List.mem_singleton]
      exact h.imp_right And.right
    · rw [lookup_alter_of_ne he]
      exact h.imp_right fun ⟨hm, hq⟩ => ⟨(List.mem_cons.mp hm).resolve_left he, hq⟩

theorem addItem_lists (hs : Sorted o.reduces) {q : Nat}
    (h : o.Lists t q ∨ b.next? i.item = .none ∧ i.item.production = q ∧ q ≠ 0 ∧
      t ∈ i.lookahead.toList b.terminalCount) : (addItem b o i).Lists t q := by
  unfold addItem
  split
  · rename_i s hn
    replace h := h.resolve_right (by rintro ⟨hn', -⟩; simp [hn] at hn')
    split
    · split
      · exact h
      · exact h
    · exact h
  · split
    · rename_i hz
      refine h.resolve_right ?_
      rintro ⟨-, hq, hne, -⟩
      exact hne (hq.symm.trans hz)
    · refine addReduce_lists hs (h.imp_right ?_)
      rintro ⟨-, hq, -, ht⟩
      exact ⟨ht, hq.symm⟩

theorem addItem_sorted (hs : Sorted o.reduces) : Sorted (addItem b o i).reduces := by
  have haddReduce (p : Nat) (ts : List Symbol) : Sorted (o.addReduce p ts).reduces := by
    unfold addReduce
    simp only
    generalize o.reduces = rs at hs
    induction ts generalizing rs with
    | nil => exact hs
    | cons t ts ih => exact ih _ hs.alter
  unfold addItem
  split
  · split
    · split
      · exact hs
      · exact hs
    · exact hs
  · split
    · exact hs
    · exact haddReduce _ _

/-- Every complete item of the closure is listed for the tokens that may follow it. -/
theorem ofKernel_lists (hb : b.Sound) (hk : k.Sound b) (hi : i ∈ b.closure k)
    (hn : b.next? i.item = .none) (hp : i.item.production ≠ 0)
    (ht : i.lookahead.contains t = true) : (ofKernel b k).Lists t i.item.production := by
  have hmem : t ∈ i.lookahead.toList b.terminalCount :=
    TokenSet.mem_toList.mpr ⟨(Basis.tokens_closure hb hk.tokens hi).below t ht, ht⟩
  have hfold (items : List LookItem) (o : Offers) (hs : Sorted o.reduces)
      (h : o.Lists t i.item.production ∨ i ∈ items) :
      (items.foldl (addItem b) o).Lists t i.item.production := by
    induction items generalizing o with
    | nil => exact h.resolve_right (by simp)
    | cons j items ih =>
      refine ih _ (addItem_sorted hs) ?_
      by_cases hj : o.Lists t i.item.production ∨ i = j
      · refine .inl (addItem_lists hs (hj.imp_right ?_))
        rintro rfl
        exact ⟨hn, rfl, hp, hmem⟩
      · obtain ⟨ho, hne⟩ := not_or.mp hj
        exact .inr ((List.mem_cons.mp (h.resolve_left ho)).resolve_left hne)
  exact hfold _ _ List.Pairwise.nil (.inr hi)

end Offers

/-! ## What is left -/

/-- A reduction of the production removes a shift of this precedence. -/
def Beats (q : Production) (precedence : Int) : Prop :=
  precedence < q.precedence ∨ q.precedence = precedence ∧ q.associativity = some .left

/-- A shift of this precedence removes a reduction of the production. -/
def Yields (q : Production) (precedence : Int) : Prop :=
  q.precedence < precedence ∨ q.precedence = precedence ∧ q.associativity = some .right

theorem verdict_eq_reduce_iff {q : Production} {c : Int} : verdict q c = .reduce ↔ Beats q c := by
  unfold verdict Beats
  split
  · simp [*]
  · split
    · grind
    · grind

theorem verdict_eq_shift_iff {q : Production} {c : Int} : verdict q c = .shift ↔ Yields q c := by
  unfold verdict Yields
  split
  · grind
  · split
    · simp [*]
    · grind

/-- A reduction that beats a shift does not yield to it. -/
theorem Beats.not_yields {q : Production} {c : Int} (h : Beats q c) : ¬Yields q c := by
  intro hy
  have hreduce := verdict_eq_reduce_iff.mpr h
  rw [verdict_eq_shift_iff.mpr hy] at hreduce
  contradiction

namespace Basis

variable {state : StateId} {shift : Option ShiftChoice} {ps : List Nat} {q : Production}

theorem mem_candidates :
    (p, q) ∈ ps.filterMap (fun p => (b.production? p).map fun q => (p, q)) ↔
      p ∈ ps ∧ b.production? p = some q := by
  rw [List.mem_filterMap]
  constructor
  · rintro ⟨p', hp, he⟩
    obtain ⟨q', hq, he⟩ := Option.map_eq_some_iff.mp he
    obtain ⟨rfl, rfl⟩ := Prod.mk.inj he
    exact ⟨hp, hq⟩
  · rintro ⟨hp, hq⟩
    exact ⟨p, hp, by rw [hq]; rfl⟩

/-- Production `p` of the ones given is `q`, and none of them has a higher precedence. -/
structure Highest (b : Basis) (ps : List Nat) (p : Nat) (q : Production) : Prop where
  mem : p ∈ ps
  production : b.production? p = some q
  precedence : ∀ p' ∈ ps, ∀ q', b.production? p' = some q' → q'.precedence ≤ q.precedence

theorem mem_strongest_candidates :
    (p, q) ∈ strongest (ps.filterMap fun p => (b.production? p).map fun q => (p, q)) ↔
      b.Highest ps p q := by
  rw [mem_strongest, mem_candidates]
  constructor
  · rintro ⟨⟨hp, hq⟩, hbest⟩
    exact ⟨hp, hq, fun p' hp' q' hq' => hbest (p', q') (mem_candidates.mpr ⟨hp', hq'⟩)⟩
  · rintro ⟨hp, hq, hbest⟩
    refine ⟨⟨hp, hq⟩, fun s hs => ?_⟩
    obtain ⟨hp', hq'⟩ := mem_candidates.mp hs
    exact hbest s.1 hp' s.2 hq'

/-- A reduction stays if none is stronger and the shift does not win. -/
theorem mem_resolve_iff :
    p ∈ (b.resolve state t shift ps).2.1 ↔
      ∃ q, b.Highest ps p q ∧ ∀ s, shift = some s → ¬Yields q s.precedence := by
  have hkept : p ∈ (b.resolve state t shift ps).2.1 ↔ ∃ q, (p, q) ∈ (settle shift
      (ps.filterMap fun p => (b.production? p).map fun q => (p, q))).2 := by
    simp [resolve]
  rw [hkept]
  refine exists_congr fun q => ?_
  rw [← mem_strongest_candidates]
  cases shift with
  | none => simp [settle]
  | some s => simp [settle, ← verdict_eq_shift_iff]

/-- The shift stays unless one of the strongest reductions wins. -/
theorem resolve_shift_iff :
    (b.resolve state t shift ps).1 = true ↔
      ∃ s, shift = some s ∧ ∀ p q, b.Highest ps p q → ¬Beats q s.precedence := by
  cases shift with
  | none => simp [resolve, settle]
  | some s => simp [resolve, settle, mem_strongest_candidates, ← verdict_eq_reduce_iff]

/-- A reduction that resolution keeps has not lost against the shift. -/
theorem verdict_of_mem_resolve (h : p ∈ (b.resolve state t shift ps).2.1) :
    ∃ q, b.production? p = some q ∧ ∀ s, shift = some s → verdict q s.precedence ≠ .shift := by
  obtain ⟨q, hq, hstays⟩ := mem_resolve_iff.mp h
  exact ⟨q, hq.production, fun s hs hverdict => hstays s hs (verdict_eq_shift_iff.mp hverdict)⟩

/-- No reduction of the highest precedence wins against a shift that resolution keeps. -/
theorem verdict_of_resolve {s : ShiftChoice} (h : (b.resolve state t (some s) ps).1 = true)
    (hq : b.Highest ps p q) : verdict q s.precedence ≠ .reduce := by
  obtain ⟨_, ⟨⟩, hstays⟩ := resolve_shift_iff.mp h
  exact fun hverdict => hstays p q hq (verdict_eq_reduce_iff.mp hverdict)

/-- The reductions that stay do so in their order. -/
theorem resolve_sublist : (b.resolve state t shift ps).2.1.Sublist ps := by
  have hcandidates : (ps.filterMap fun p => (b.production? p).map fun q => (p, q)).map Prod.fst =
      ps.filter fun p => (b.production? p).isSome := by
    induction ps with
    | nil => rfl
    | cons p ps ih =>
      cases hp : b.production? p with
      | none => simp [hp, ih]
      | some q => simp [hp, ih]
  have hstrongest (rs : List (Nat × Production)) : (strongest rs).Sublist rs := by
    unfold strongest
    split
    · exact List.nil_sublist _
    · exact List.filter_sublist
  have hsettle (rs : List (Nat × Production)) : (settle shift rs).2.Sublist rs := by
    cases shift with
    | none => exact hstrongest rs
    | some s => exact List.filter_sublist.trans (hstrongest rs)
  exact ((hsettle _).map Prod.fst).trans (hcandidates ▸ List.filter_sublist)

/-- Of a shift and some reductions, at least one in all, resolution leaves at least one.  The
reductions left all have the highest precedence given; the shift is only dropped for one of them
that beats it, and a reduction of the highest precedence only for a shift that it yields to. -/
theorem resolve_leaves {keepShift : Bool} {kept : List Nat} {events : List Log.Event}
    (hps : ∀ p ∈ ps, (b.production? p).isSome = true) (hsome : shift.isSome = true ∨ ps ≠ [])
    (hr : b.resolve state t shift ps = (keepShift, kept, events)) :
    (shift.isSome = true ∧ keepShift = true ∨ kept ≠ []) ∧
    kept.Sublist ps ∧
    (∀ p ∈ kept, ∃ q, b.Highest ps p q) ∧
    (∀ s, shift = some s → (keepShift = false ↔
      ∃ p ∈ kept, ∃ q, b.production? p = some q ∧ Beats q s.precedence)) ∧
    ∀ p q, b.Highest ps p q → (p ∉ kept ↔ ∃ s, shift = some s ∧ Yields q s.precedence) := by
  obtain rfl : (b.resolve state t shift ps).1 = keepShift := by rw [hr]
  obtain rfl : (b.resolve state t shift ps).2.1 = kept := by rw [hr]
  refine ⟨?_, resolve_sublist, fun p hp => ?_, fun s hs => ?_, fun p q hq => ?_⟩
  · have hoffered : shift.isSome = true ∨ ∃ p ∈ ps, (b.production? p).isSome = true :=
      hsome.imp_right fun hne => by
        obtain ⟨p, hp⟩ := List.exists_mem_of_ne_nil ps hne
        exact ⟨p, hp, hps p hp⟩
    exact resolve_ne_none state t hoffered
  · obtain ⟨q, hq, -⟩ := mem_resolve_iff.mp hp
    exact ⟨q, hq⟩
  · rw [← Bool.not_eq_true, resolve_shift_iff]
    subst hs
    constructor
    · -- the reduction that beats the shift does not yield to it
      intro hdropped
      simp only [Option.some.injEq, exists_eq_left', not_forall, not_not] at hdropped
      obtain ⟨p, q, hq, hbeats⟩ := hdropped
      refine ⟨p, mem_resolve_iff.mpr ⟨q, hq, ?_⟩, q, hq.production, hbeats⟩
      rintro _ ⟨⟩
      exact hbeats.not_yields
    · rintro ⟨p, hp, q, hq, hbeats⟩ ⟨s', ⟨⟩, hnone⟩
      obtain ⟨q', hq', -⟩ := mem_resolve_iff.mp hp
      obtain rfl : q' = q := Option.some.inj (hq'.production.symm.trans hq)
      exact hnone p q' hq' hbeats
  · rw [mem_resolve_iff]
    constructor
    · intro hdropped
      by_contra hnone
      exact hdropped ⟨q, hq, fun s hs hyields => hnone ⟨s, hs, hyields⟩⟩
    · rintro ⟨s, hs, hyields⟩ ⟨q', hq', hstays⟩
      obtain rfl : q' = q := Option.some.inj (hq'.production.symm.trans hq.production)
      exact hstays s hs hyields

/-- Four rules read `x - x`: three of precedence one, to the left, to the right and without
associativity, and one of precedence zero. -/
def differences : Basis :=
  let reads (lhs : Symbol) (precedence : Int) (associativity : Option Associativity) : Production :=
    ⟨lhs, [{ symbol := 2 }, { symbol := 1 }, { symbol := 2 }], precedence, associativity, 0⟩
  let rule (name : String) : SymbolInfo := ⟨name, true, true, .nonterminal⟩
  ofGrammar {
    symbols := #[⟨"end", false, false, .endOfInput⟩, ⟨"-", false, true, .terminal⟩,
      ⟨"x", true, true, .terminal⟩, rule "left", rule "right", rule "either", rule "weak"]
    owners := #[0, 1, 2, 3, 4, 5, 6]
    productions := #[reads 3 1 (some .left), reads 4 1 (some .right), reads 5 1 none,
      reads 6 0 (some .left)]
    start := 3
    lexRules := []
    extras := []
    externals := []
    fields := #[]
    word := none
    expectedConflicts := [] }

/-- In front of another `-` of precedence one, the rule to the left removes the shift, and the
shift the rule to the right. -/
theorem resolve_leaves_differences :
    differences.resolve 0 1 (some ⟨1, 1, [3]⟩) [1, 2, 3, 4] =
      (false, [1, 3], (differences.resolve 0 1 (some ⟨1, 1, [3]⟩) [1, 2, 3, 4]).2.2) ∧
    (∃ p ∈ [1, 3], ∃ q, differences.production? p = some q ∧ Beats q 1) ∧
    ∀ q, differences.Highest [1, 2, 3, 4] 2 q → Yields q 1 := by
  have hresolve : differences.resolve 0 1 (some ⟨1, 1, [3]⟩) [1, 2, 3, 4] =
      (false, [1, 3], (differences.resolve 0 1 (some ⟨1, 1, [3]⟩) [1, 2, 3, 4]).2.2) := rfl
  obtain ⟨-, -, -, hshift, hreduce⟩ := resolve_leaves (by decide) (by decide) hresolve
  refine ⟨hresolve, (hshift _ rfl).mp rfl, fun q hq => ?_⟩
  obtain ⟨_, ⟨⟩, hyields⟩ := (hreduce 2 q hq).mp (by decide)
  exact hyields

end Basis

namespace Cells

variable {state target : StateId} {ts : List (Symbol × StateId)} {v : Int × List Symbol}

/-- A reduction among the actions has not lost against the shift. -/
theorem verdict_of_reduce (h : .reduce p ∈ (actionsFor b state ts o t).1)
    (hv : o.shifts.lookup t = some v) (ht : ts.lookup t = some target) :
    ∃ q, b.production? (p + 1) = some q ∧ verdict q v.1 ≠ .shift := by
  unfold actionsFor at h
  simp only [hv, ht, List.mem_append] at h
  rcases h with (h | h) | h
  · split at h <;> simp at h
  · split at h <;> simp at h
  · obtain ⟨r, hr, he⟩ := List.mem_map.mp h
    have hr : r ∈ (b.resolve state t (some ⟨target, v.1, v.2⟩)
        ((o.reduces.lookup t).getD [])).2.1 := hr
    obtain ⟨q, hq, hverdict⟩ := Basis.verdict_of_mem_resolve hr
    obtain ⟨r, rfl⟩ : ∃ r', r = r' + 1 := Nat.exists_eq_succ_of_ne_zero fun hz => by
      rw [hz] at hq
      contradiction
    obtain rfl : r = p := by simpa using he
    exact ⟨q, hq, hverdict _ rfl⟩

/-- No reduction of the highest precedence wins against a shift among the actions. -/
theorem verdict_of_shift (h : .shift target ∈ (actionsFor b state ts o t).1) :
    ∃ v, (t, v) ∈ o.shifts ∧ ∀ p q, o.Lists t p → b.production? p = some q →
      (∀ p' q', o.Lists t p' → b.production? p' = some q' → q'.precedence ≤ q.precedence) →
        verdict q v.1 ≠ .reduce := by
  unfold actionsFor at h
  simp only [List.mem_append] at h
  rcases h with (h | h) | h
  · split at h <;> simp at h
  · cases hv : o.shifts.lookup t with
    | none => simp [hv] at h
    | some v =>
      cases ht : ts.lookup t with
      | none => simp [hv, ht] at h
      | some target' =>
        simp only [hv, ht] at h
        split at h
        · rename_i hkeep
          exact ⟨v, mem_of_lookup hv, fun p q hp hq hbest =>
            Basis.verdict_of_resolve hkeep ⟨hp, hq, fun p' hp' q' hq' => hbest p' q' hp' hq'⟩⟩
        · simp at h
  · obtain ⟨r, -, he⟩ := List.mem_map.mp h
    contradiction

end Cells

end Glr.Automaton
