import Glr.Language
import Glr.Proofs.Automaton.Checked
import Glr.Proofs.Automaton.Path

/-!
# Glr.Proofs.Language

What the languages of grammars have in common.  `Language.Sound` says how such a
language reads its table; what a parser relies on follows from it:

* the end of the input is never shifted, and only it is accepted;
* where a production is reduced, the path to the state ends with its right-hand
  side, and the state below goes on over its left-hand side;
* what is accepted is the start symbol alone.
-/

namespace Glr

open Automaton

namespace FlatGrammar

/-- What the construction of the states looks up. -/
abbrev basis (g : FlatGrammar) : Basis := Basis.ofGrammar g

/-- The states of the automaton. -/
abbrev states (g : FlatGrammar) : ItemSets := ItemSets.ofBasis g.basis

/-! ## Symbols -/

variable {g : FlatGrammar} {x : Symbol}

/-- What can stand in a right-hand side: a token other than the end of the input, or
a rule. -/
def Usable (g : FlatGrammar) (x : Symbol) : Prop := IsToken g.symbols x ∨ IsRule g.symbols x

theorem WellFormed.ne_end_of_usable (hg : g.WellFormed) (h : g.Usable x) : x ≠ endSymbol := by
  rintro rfl
  obtain ⟨info, hi, hk⟩ := hg.first
  rcases h with ⟨info', hi', hk'⟩ | ⟨info', hi', hk'⟩
  all_goals
    obtain rfl := Option.some.inj (hi.symm.trans hi')
    rw [hk] at hk'
    simp at hk'

theorem WellFormed.ne_end_of_shown (hg : g.WellFormed) (h : IsShown g.symbols x) :
    x ≠ endSymbol := by
  rintro rfl
  obtain ⟨info, hi, hk⟩ := hg.first
  obtain ⟨info', hi', -, hk'⟩ := h
  obtain rfl := Option.some.inj (hi.symm.trans hi')
  exact hk' hk

/-- Right-hand sides are made of usable symbols. -/
theorem WellFormed.usable_of_next? (hg : g.WellFormed) {i : Item}
    (h : g.basis.next? i = some x) : g.Usable x := by
  rw [Basis.next?, Basis.after, List.head?_drop] at h
  obtain ⟨p, d⟩ := i
  cases p with
  | zero =>
    rw [Basis.rhs_zero, Option.getD_some] at h
    obtain rfl := List.mem_singleton.mp (List.mem_of_getElem? h)
    exact hg.start
  | succ p =>
    rw [Basis.rhs_succ] at h
    cases hp : g.productions[p]? with
    | none => simp [hp] at h
    | some prod =>
      rw [hp] at h
      obtain ⟨st, hst, rfl⟩ := List.mem_map.mp (List.mem_of_getElem? h)
      exact ((hg.productions prod (Array.mem_of_getElem? hp)).steps st hst).symbol

theorem WellFormed.states_inv (hg : g.WellFormed) : ItemSets.Inv g.basis g.states :=
  (ItemSets.ofBasis_stable (Basis.ofGrammar_sound hg) (by rw [Basis.size_rhs]; omega)).toInv

theorem WellFormed.states_settled (hg : g.WellFormed) (i : StateId) :
    ItemSets.Settled g.basis g.states i :=
  ItemSets.ofBasis_settled (Basis.ofGrammar_sound hg) (by rw [Basis.size_rhs]; omega) i

end FlatGrammar

/-! ## Sound languages -/

/-- A state of the language goes on over a symbol to another state. -/
def Language.Edge (l : Language) (q : StateId) (x : Symbol) (t : StateId) : Prop :=
  if l.isNonterminal x then l.goto? q x = some t else .shift t ∈ l.actions q x

/-- The language has the table of a grammar. -/
structure Language.Sound (g : FlatGrammar) (l : Language) : Prop where
  grammar : g.WellFormed
  symbols : l.table.symbols = g.symbols
  productions : l.table.productions = g.productions.map Production.info
  startSymbol : l.table.startSymbol = g.start
  extras : l.table.extras = g.extras
  externals : l.table.externals = g.externals
  rules : ∀ r ∈ l.rules, r.1 ∈ g.lexRules
  /-- An action on a token goes back to an item of the state. -/
  calls : ∀ q x action, action ∈ l.actions q x → ∃ k ts,
    g.states.kernels[q]? = some k ∧
    g.states.transitions[q]? = some ts ∧
    Calls g.basis (g.basis.closure k) ts x action
  /-- The states after nonterminals are those of the automaton. -/
  gotos : ∀ q x t, l.goto? q x = some t → g.states.Edge q x t
  exists_goto : ∀ q x t, g.states.Edge q x t →
    g.isTerminal x = false → x < g.symbols.size → ∃ t', l.goto? q x = some t'

namespace Language.Sound

variable {g : FlatGrammar} {l : Language} {q t : StateId} {x : Symbol}
  {steps : List (Symbol × StateId)} {p : ProductionId}

theorem isNonterminal_iff (h : l.Sound g) :
    l.isNonterminal x = true ↔ ∃ info, g.symbols[x]? = some info ∧ info.kind.isTerminal = false := by
  rw [Language.isNonterminal, Language.info?, h.symbols]
  cases g.symbols[x]? <;> simp

theorem isNonterminal_eq_false (h : l.Sound g) (hx : g.isTerminal x = true) :
    l.isNonterminal x = false := by
  rw [Language.isNonterminal, Language.info?, h.symbols]
  rw [FlatGrammar.isTerminal] at hx
  cases hi : g.symbols[x]? with
  | none => rfl
  | some info =>
    rw [hi] at hx
    simpa using hx

theorem isNonterminal_of_isRule (h : l.Sound g) (hx : IsRule g.symbols x) :
    l.isNonterminal x = true := by
  obtain ⟨info, hi, hk⟩ := hx
  refine h.isNonterminal_iff.mpr ⟨info, hi, ?_⟩
  rcases hk with hk | hk <;> simp [hk, SymbolKind.isTerminal]

theorem isVisible_of_isShown (h : l.Sound g) (hx : IsShown g.symbols x) : l.isVisible x = true := by
  obtain ⟨info, hi, hv, -⟩ := hx
  rw [Language.isVisible, Language.info?, h.symbols, hi]
  simp [hv]

theorem production?_eq (h : l.Sound g) : l.production? p = g.productions[p]?.map Production.info := by
  rw [Language.production?, h.productions, Array.getElem?_map]

/-- The edges of the language are those of its automaton. -/
theorem edge (h : l.Sound g) (he : l.Edge q x t) :
    g.states.Edge q x t := by
  unfold Language.Edge at he
  split at he
  · exact h.gotos q x t he
  · obtain ⟨k, ts, -, hts, hc⟩ := h.calls q x _ he
    cases hc with
    | shift ht _ => exact ⟨ts, hts, ht⟩

/-! ## What a parser relies on -/

/-- What is shifted is a token of the grammar. -/
theorem isToken_of_shift (h : l.Sound g) (ha : .shift t ∈ l.actions q x) : IsToken g.symbols x := by
  obtain ⟨k, ts, -, -, hc⟩ := h.calls q x _ ha
  cases hc with
  | shift _ hi =>
    obtain ⟨i, -, hn, -⟩ := hi
    rcases h.grammar.usable_of_next? hn with hx | hx
    · exact hx
    · rw [Language.actions, if_pos (h.isNonterminal_of_isRule hx)] at ha
      contradiction

/-- The end of the input is not shifted. -/
theorem ne_end_of_shift (h : l.Sound g) (ha : .shift t ∈ l.actions q x) : x ≠ endSymbol := by
  obtain ⟨k, ts, -, -, hc⟩ := h.calls q x _ ha
  cases hc with
  | shift _ hi =>
    obtain ⟨i, -, hn, -⟩ := hi
    exact h.grammar.ne_end_of_usable (h.grammar.usable_of_next? hn)

/-- Only the end of the input is accepted. -/
theorem eq_end_of_accept (h : l.Sound g) (ha : .accept ∈ l.actions q x) : x = endSymbol := by
  obtain ⟨k, ts, -, -, hc⟩ := h.calls q x _ ha
  cases hc with
  | accept _ _ _ ht => exact ht

/-- A complete item stands at the end of its production. -/
theorem dot_eq_of_next?_eq_none {b : Basis} {i : Item} (hi : b.HasItem i)
    (hn : b.next? i = none) : i.dot = (b.rhs[i.production]?.getD []).length := by
  obtain ⟨r, hr, hd⟩ := hi
  rw [Basis.next?, Basis.after, hr, Option.getD_some, List.head?_drop,
    List.getElem?_eq_none_iff] at hn
  rw [hr, Option.getD_some]
  omega

section

variable (h : l.Sound g) (hp : Path l.Edge steps)

include h

theorem inv : ItemSets.Inv g.basis g.states := h.grammar.states_inv

theorem settled (i : StateId) : ItemSets.Settled g.basis g.states i := h.grammar.states_settled i

include hp

/-- The production of a complete item stands at the end of the path, and is asked
for below. -/
theorem complete {k : Kernel} {i : LookItem}
    (hk : g.states.kernels[lastState steps]? = some k)
    (hi : i ∈ g.basis.closure k) (hn : g.basis.next? i.item = none) :
    let rhs := g.basis.rhs[i.item.production]?.getD []
    rhs.length ≤ steps.length ∧ spelled (steps.take rhs.length) = rhs ∧
      (i.item.production = 0 ∧ steps.drop rhs.length = [] ∨
        ∃ y t, i.item.production ∈ g.basis.byLhs[y]?.getD [] ∧
          g.basis.isTerminal y = false ∧
          g.states.Edge (lastState (steps.drop rhs.length)) y t) := by
  intro rhs
  have hb := Basis.ofGrammar_sound h.grammar
  have hks := h.inv.kernels _ _ hk
  have hx := (Basis.mem_closure_iff hb hks.tokens).mp ⟨i, hi, rfl⟩
  have hd : i.item.dot = rhs.length := dot_eq_of_next?_eq_none (Basis.Implied.hasItem hb hks hx) hn
  have hitem : i.item = ⟨i.item.production, rhs.length⟩ := by rw [← hd]
  rw [hitem] at hx
  have hp' := hp.mono fun _ _ _ => h.edge
  obtain ⟨hle, hspelled, k', hk', hx'⟩ := ItemSets.Path.unfold hb h.inv hp' hk hx
  refine ⟨hle, by rw [hspelled]; exact List.take_length, ?_⟩
  exact ItemSets.Path.edge_lhs hb h.inv h.settled (hp'.drop rhs.length) hk' hx'

/-- A reduction takes the right-hand side of its production off the path and goes on
from there. -/
theorem reduce {a : Symbol} (ha : .reduce p ∈ l.actions (lastState steps) a) :
    ∃ prod, g.productions[p]? = some prod ∧ prod.rhs.length ≤ steps.length ∧
      spelled (steps.take prod.rhs.length) = prod.rhs ∧
      ∃ t, l.goto? (lastState (steps.drop prod.rhs.length)) prod.lhs = some t := by
  obtain ⟨k, ts, hk, hts, hc⟩ := h.calls _ a _ ha
  cases hc with
  | reduce hi hn hprod hq hl =>
    obtain ⟨prod, hprod'⟩ := Option.isSome_iff_exists.mp hq
    obtain ⟨hle, hspelled, hrest⟩ := h.complete hp hk hi hn
    have hrhs : g.basis.rhs[p + 1]? = some prod.rhs := by
      rw [Basis.rhs_succ]
      exact congrArg (Option.map Production.rhs) hprod'
    rw [hprod, hrhs, Option.getD_some] at hle hspelled hrest
    refine ⟨prod, hprod', hle, hspelled, ?_⟩
    rcases hrest with ⟨he, -⟩ | ⟨y, t, hm, ht, he⟩
    · contradiction
    · obtain ⟨p', hp', prod', hget, rfl⟩ := Basis.mem_byLhs hm
      obtain rfl := Nat.succ.inj hp'
      obtain rfl := Option.some.inj (hprod'.symm.trans hget)
      have hlhs := (h.grammar.productions prod (Array.mem_of_getElem? hget)).lhs
      have hlt : prod.lhs < g.symbols.size := by
        obtain ⟨info, hinfo, -⟩ := hlhs
        exact (Array.getElem?_eq_some_iff.mp hinfo).1
      exact h.exists_goto _ _ t he (FlatGrammar.isTerminal_of_isRule hlhs) hlt

omit hp in
/-- The start symbol leads on from state zero only as a nonterminal. -/
theorem isNonterminal_start (he : l.Edge 0 g.start t) : l.isNonterminal g.start = true := by
  unfold Language.Edge at he
  split at he
  · assumption
  · rename_i hn
    obtain ⟨k, ts, hk, -, hc⟩ := h.calls 0 _ _ he
    have hb := Basis.ofGrammar_sound h.grammar
    cases hc with
    | shift _ hi =>
      obtain ⟨i, hi, -, hp⟩ := hi
      have himplied := (Basis.mem_closure_iff hb (h.inv.kernels _ _ hk).tokens).mp ⟨i, hi, rfl⟩
      -- were it a token, state zero would ask for no production
      have hzero {x : Item} (hx : Implied g.basis (core k) x) : x = ⟨0, 0⟩ := by
        induction hx with
        | kernel hm => exact (h.inv.mem_core_start hk).mp hm
        | @demand z y p _ hnext ht _ ih =>
          rw [ih, Basis.next?, Basis.after, Basis.rhs_zero] at hnext
          obtain rfl : g.start = y := by simpa using hnext
          rcases h.grammar.start with hs | hs
          · rw [Basis.isTerminal_ofGrammar, FlatGrammar.isTerminal_of_isToken hs] at ht
            contradiction
          · exact absurd (h.isNonterminal_of_isRule hs) hn
      exact absurd (congrArg Item.production (hzero himplied)) hp

/-- What is accepted is the start symbol alone, and it is a nonterminal. -/
theorem accept {a : Symbol} (ha : .accept ∈ l.actions (lastState steps) a) :
    l.isNonterminal g.start = true ∧ ∃ t, steps = [(g.start, t)] := by
  obtain ⟨k, ts, hk, hts, hc⟩ := h.calls _ a _ ha
  cases hc with
  | accept hi hn hprod _ =>
    obtain ⟨hle, hspelled, hrest⟩ := h.complete hp hk hi hn
    rw [hprod, Basis.rhs_zero, Option.getD_some] at hle hspelled hrest
    rcases hrest with ⟨-, he⟩ | ⟨y, t, hm, -⟩
    · cases steps with
      | nil => simp at hle
      | cons s rest =>
        obtain ⟨x, t⟩ := s
        obtain rfl : rest = [] := by simpa using he
        obtain rfl : x = g.start := by simpa [spelled] using hspelled
        cases hp with
        | cons _ hedge => exact ⟨h.isNonterminal_start hedge, t, rfl⟩
    · have := ((Basis.ofGrammar_sound h.grammar).byLhs _ _ hm).1
      omega

end

end Language.Sound

/-! ## The languages of grammars -/

namespace Language

variable {g : FlatGrammar} {l : Language} {q : StateId} {x : Symbol}

/-- Every state has a row. -/
theorem exists_row (hg : g.WellFormed) (hq : q < g.states.kernels.size) :
    ∃ k ts row, g.states.kernels[q]? = some k ∧ g.states.transitions[q]? = some ts
      ∧ Cells.Row g.basis (Cells.ofItemSets g.basis g.states) q k ts row
      ∧ ∀ x < g.symbols.size,
        (Cells.ofItemSets g.basis g.states).entries[q * g.symbols.size + x]? = row[x]? := by
  have hinv := hg.states_inv
  have hk := Array.getElem?_eq_getElem hq
  have hts := Array.getElem?_eq_getElem (show q < g.states.transitions.size by
    rw [hinv.transitions_size]
    exact hq)
  obtain ⟨row, hrow, hget⟩ := (Cells.ofItemSets_rows (Basis.ofGrammar_sound hg) hinv).rows q _ _ (by
    rw [Array.getElem?_toList, Array.getElem?_zip_eq_some]
    exact ⟨hk, hts⟩)
  have hwidth : row.size = g.symbols.size := hrow.size
  exact ⟨_, _, row, hk, hts, hrow, fun x hx => hget x (hwidth ▸ hx)⟩

theorem size_entries (hg : g.WellFormed) : (Cells.ofItemSets g.basis g.states).entries.size
    = g.states.kernels.size * g.symbols.size := by
  have hinv := hg.states_inv
  rw [(Cells.ofItemSets_rows (Basis.ofGrammar_sound hg) hinv).size, Array.length_toList,
    Array.size_zip, hinv.transitions_size, Nat.min_self]
  rfl

/-- A language reads the table of a grammar as its rows say; where there is no row,
there are no entries. -/
theorem row_of_table {name : String} (hg : g.WellFormed) (hl : l.table = (g.table name).1)
    (q : StateId) :
    (∃ k ts row, g.states.kernels[q]? = some k ∧ g.states.transitions[q]? = some ts
      ∧ Cells.Row g.basis (Cells.ofItemSets g.basis g.states) q k ts row
      ∧ ∀ x, l.cell q x = row[x]?.getD 0)
    ∨ g.states.transitions[q]? = none ∧ ∀ x, l.cell q x = 0 := by
  have hsymbols : l.table.symbols = g.symbols := by rw [hl]; rfl
  have hentries : l.table.entries = (Cells.ofItemSets g.basis g.states).entries := by rw [hl]; rfl
  have hcell (x : Symbol) : l.cell q x = if x < g.symbols.size then
      (Cells.ofItemSets g.basis g.states).entries[q * g.symbols.size + x]?.getD 0 else 0 := by
    rw [Language.cell, hsymbols, hentries]
  rcases Nat.lt_or_ge q g.states.kernels.size with hq | hq
  · obtain ⟨k, ts, row, hk, hts, hrow, hget⟩ := exists_row hg hq
    refine .inl ⟨k, ts, row, hk, hts, hrow, fun x => ?_⟩
    have hwidth : row.size = g.symbols.size := hrow.size
    rw [hcell]
    split
    · rename_i hx
      rw [hget x hx]
    · rename_i hx
      rw [Array.getElem?_eq_none (show row.size ≤ x by rw [hwidth]; exact Nat.le_of_not_lt hx), Option.getD_none]
  · right
    refine ⟨Array.getElem?_eq_none (by rw [hg.states_inv.transitions_size]; exact hq), fun x => ?_⟩
    rw [hcell]
    split
    · have hsize := size_entries hg
      have hmul := Nat.mul_le_mul_right g.symbols.size hq
      rw [Array.getElem?_eq_none (by omega), Option.getD_none]
    · rfl

/-- The actions of a state on a token are what resolution leaves of the offers of its
closure. -/
theorem actions_of_table {name : String} (hg : g.WellFormed) (hl : l.table = (g.table name).1)
    {k : Kernel} {ts : List (Symbol × StateId)} (hk : g.states.kernels[q]? = some k)
    (hts : g.states.transitions[q]? = some ts) (hx : g.isTerminal x = true) :
    l.actions q x = if x ∈ (Offers.ofKernel g.basis k).terminals then
      (Cells.actionsFor g.basis q ts (Offers.ofKernel g.basis k) x).1 else [] := by
  have hsymbols : l.table.symbols = g.symbols := by rw [hl]; rfl
  have hlists : l.table.actionLists = (Cells.ofItemSets g.basis g.states).actionLists := by
    rw [hl]
    rfl
  have hlt : x < g.symbols.size := by
    rw [FlatGrammar.isTerminal] at hx
    cases hi : g.symbols[x]? with
    | none => simp [hi] at hx
    | some info => exact (Array.getElem?_eq_some_iff.mp hi).1
  have hn : l.isNonterminal x = false := by
    rw [Language.isNonterminal, Language.info?, hsymbols, Array.getElem?_eq_getElem hlt]
    rw [FlatGrammar.isTerminal, Array.getElem?_eq_getElem hlt] at hx
    simpa using hx
  rw [Language.actions, if_neg (by simp [hn]), hlists]
  rcases row_of_table hg hl q with ⟨k', ts', row, hk', hts', hrow, hcell⟩ | ⟨hnone, -⟩
  · obtain rfl := Option.some.inj (hk.symm.trans hk')
    obtain rfl := Option.some.inj (hts.symm.trans hts')
    rw [hcell, hrow.actions x (by rw [hrow.size]; exact hlt)
      (by rw [Basis.isTerminal_ofGrammar]; exact hx), Option.getD_some]
  · rw [hnone] at hts
    contradiction

/-- The language of the table of a well-formed grammar is sound. -/
theorem sound_of_table {name : String} (hg : g.WellFormed) (hl : l.table = (g.table name).1)
    (hr : ∀ r ∈ l.rules, r.1 ∈ g.lexRules) : l.Sound g := by
  have hsymbols : l.table.symbols = g.symbols := by rw [hl]; rfl
  have hlists : l.table.actionLists = (Cells.ofItemSets g.basis g.states).actionLists := by
    rw [hl]
    rfl
  have hempty : (Cells.ofItemSets g.basis g.states).actionLists[0]? = some [] :=
    (Cells.ofItemSets_rows (Basis.ofGrammar_sound hg) hg.states_inv).empty
  have hrow := row_of_table hg hl
  refine
    { grammar := hg
      symbols := hsymbols
      productions := by rw [hl]; rfl
      startSymbol := by rw [hl]; rfl
      extras := by rw [hl]; rfl
      externals := by rw [hl]; rfl
      rules := hr
      calls := ?_
      gotos := ?_
      exists_goto := ?_ }
  · intro q x action ha
    rw [Language.actions] at ha
    split at ha
    · simp at ha
    · rename_i hn
      rcases hrow q with ⟨k, ts, row, hk, hts, hrow, hcell⟩ | ⟨hnone, hcell⟩
      · refine ⟨k, ts, hk, hts, ?_⟩
        rcases Nat.lt_or_ge x g.symbols.size with hx | hx
        · have ht : g.isTerminal x = true := by
            rw [FlatGrammar.isTerminal, Array.getElem?_eq_getElem hx]
            rw [Language.isNonterminal, Language.info?, hsymbols,
              Array.getElem?_eq_getElem hx] at hn
            simpa using hn
          have hactions := actions_of_table hg hl hk hts ht
          rw [Language.actions, if_neg hn] at hactions
          rw [hactions] at ha
          split at ha
          · exact Cells.calls_of_mem_actionsFor (Offers.ofKernel_from g.basis k) ha
          · simp at ha
        · have hwidth : row.size = g.symbols.size := hrow.size
          have hout : row[x]? = none := Array.getElem?_eq_none (by omega)
          rw [hlists, hcell, hout, Option.getD_none, hempty] at ha
          simp at ha
      · rw [hlists, hcell, hempty] at ha
        simp at ha
  · intro q x t ht
    rw [Language.goto?] at ht
    split at ht
    · rename_i hn
      obtain ⟨info, hi, hkind⟩ : ∃ info, g.symbols[x]? = some info ∧ info.kind.isTerminal = false := by
        rw [Language.isNonterminal, Language.info?, hsymbols] at hn
        cases hi : g.symbols[x]? with
        | none => simp [hi] at hn
        | some info => exact ⟨info, rfl, by simpa [hi] using hn⟩
      rcases hrow q with ⟨k, ts, row, hk, hts, hrow, hcell⟩ | ⟨hnone, hcell⟩
      · have hwidth : row.size = g.symbols.size := hrow.size
        have hx : x < row.size := by
          rw [hwidth]
          exact (Array.getElem?_eq_some_iff.mp hi).1
        have hterm : g.basis.isTerminal x = false := by
          rw [Basis.isTerminal_ofGrammar, FlatGrammar.isTerminal, hi]
          exact hkind
        rw [hcell] at ht
        rcases hrow.gotos x hx hterm with ⟨t', hm, hget⟩ | ⟨-, hget⟩
        · rw [hget] at ht
          obtain rfl : t' = t := by simpa using ht
          exact ⟨ts, hts, hm⟩
        · rw [hget] at ht
          simp at ht
      · rw [hcell] at ht
        simp at ht
    · contradiction
  · intro q x t he hterm hx
    obtain ⟨ts, hts, hm⟩ := he
    have hn : l.isNonterminal x = true := by
      rw [Language.isNonterminal, Language.info?, hsymbols, Array.getElem?_eq_getElem hx]
      rw [FlatGrammar.isTerminal, Array.getElem?_eq_getElem hx] at hterm
      simpa using hterm
    rw [Language.goto?, if_pos hn]
    rcases hrow q with ⟨k, ts', row, hk, hts', hrow, hcell⟩ | ⟨hnone, hcell⟩
    · obtain rfl := Option.some.inj (hts.symm.trans hts')
      have hwidth : row.size = g.symbols.size := hrow.size
      rw [hcell]
      rcases hrow.gotos x (by rw [hwidth]; exact hx)
        (by rw [Basis.isTerminal_ofGrammar]; exact hterm) with ⟨t', -, hget⟩ | ⟨hno, -⟩
      · rw [hget]
        exact ⟨t', rfl⟩
      · exact absurd hm (hno t)
    · rw [hnone] at hts
      contradiction

theorem mem_of_mapM_ok {α β ε : Type} {f : α → Except ε β} {xs : List α} {ys : List β}
    (h : xs.mapM f = .ok ys) {y : β} (hy : y ∈ ys) : ∃ x ∈ xs, f x = .ok y := by
  induction xs generalizing ys with
  | nil =>
    obtain rfl : [] = ys := Except.ok.inj h
    simp at hy
  | cons x xs ih =>
    rw [List.mapM_cons] at h
    cases hx : f x with
    | error e =>
      rw [hx] at h
      contradiction
    | ok z =>
      cases hxs : xs.mapM f with
      | error e =>
        rw [hx, hxs] at h
        contradiction
      | ok zs =>
        rw [hx, hxs] at h
        obtain rfl : z :: zs = ys := Except.ok.inj h
        rcases List.mem_cons.mp hy with rfl | hy
        · exact ⟨x, by simp, hx⟩
        · obtain ⟨x', hx', he⟩ := ih hxs hy
          exact ⟨x', by simp [hx'], he⟩

theorem error_of_mapM {α β ε : Type} {f : α → Except ε β} {xs : List α} {e : ε}
    (h : xs.mapM f = .error e) : ∃ x ∈ xs, f x = .error e := by
  induction xs with
  | nil => contradiction
  | cons x xs ih =>
    rw [List.mapM_cons] at h
    cases hx : f x with
    | error e' =>
      rw [hx] at h
      exact ⟨x, by simp, hx.trans (congrArg Except.error (Except.error.inj h))⟩
    | ok y =>
      cases hxs : xs.mapM f with
      | error e' =>
        rw [hx, hxs] at h
        obtain ⟨x', hx', he⟩ := ih (hxs.trans (congrArg Except.error (Except.error.inj h)))
        exact ⟨x', by simp [hx'], he⟩
      | ok ys =>
        rw [hx, hxs] at h
        contradiction

theorem ofTable_spec {handle : Nat} {t : Table} {scanner : Option Scanner}
    (h : ofTable handle t scanner = .ok l) :
    l.table = t ∧ l.valid = t.lexStates.map List.toArray ∧ l.scanner = scanner ∧
      ∀ r ∈ l.rules, r.1 ∈ t.lexRules := by
  unfold ofTable at h
  simp only at h
  split at h
  · contradiction
  · split at h
    · contradiction
    · split at h
      · contradiction
      · cases hm : t.lexRules.mapM (compileRule t) with
        | error e =>
          rw [hm] at h
          contradiction
        | ok rules =>
          rw [hm] at h
          obtain rfl := Except.ok.inj h
          refine ⟨rfl, rfl, rfl, fun r hr => ?_⟩
          obtain ⟨rule, hrule, hc⟩ := mem_of_mapM_ok hm hr
          have : r.1 = rule := by
            unfold compileRule at hc
            split at hc
            · rw [← Except.ok.inj hc]
            · split at hc
              · rw [← Except.ok.inj hc]
              · contradiction
          rw [this]
          exact hrule

/-- The table that is generated of a grammar is the one of its flat form, the start symbol of
which is no token. -/
theorem table_of_generate {grammar : Grammar} {t : Table} (h : grammar.generate.1 = .ok t) :
    ∃ g, FlatGrammar.ofGrammar grammar = .ok g ∧ g.WellFormed ∧
      g.isTerminal g.start = false ∧ t = (g.table grammar.name).1 := by
  unfold Grammar.generate at h
  split at h
  · contradiction
  · cases hf : FlatGrammar.ofGrammar grammar with
    | error e =>
      simp only [hf] at h
      contradiction
    | ok flat =>
      have hwf := FlatGrammar.ofGrammar_wellFormed hf
      simp only [hf, FlatGrammar.table?_eq hwf] at h
      split at h
      · contradiction
      · rename_i hsome
        split at hsome
        · contradiction
        · rename_i hstart
          have hsome := congrArg Prod.fst (Option.some.inj hsome)
          split at h
          · contradiction
          · exact ⟨flat, rfl, hwf, by simpa using hstart,
              (hsome.trans (Except.ok.inj h)).symm⟩

/-- The language of a grammar has the table of its flat form, the start symbol of which is no
token. -/
theorem ofGrammar_table {handle : Nat} {grammar : Grammar} {scanner : Option Scanner}
    (h : ofGrammar handle grammar scanner = .ok l) :
    ∃ g, FlatGrammar.ofGrammar grammar = .ok g ∧ g.isTerminal g.start = false ∧
      l.table = (g.table grammar.name).1 ∧ l.Sound g := by
  unfold ofGrammar at h
  cases ht : grammar.generate.1 with
  | error e =>
    rw [ht] at h
    contradiction
  | ok t =>
    rw [ht] at h
    cases hl : ofTable handle t scanner with
    | error e =>
      simp only [hl] at h
      contradiction
    | ok l' =>
      simp only [hl] at h
      obtain rfl := Except.ok.inj h
      obtain ⟨htable, -, -, hrules⟩ := ofTable_spec hl
      obtain ⟨flat, hflat, hwf, hstart, rfl⟩ := table_of_generate ht
      exact ⟨flat, hflat, hstart, htable, sound_of_table hwf htable hrules⟩

/-- Every language of a grammar is sound, whatever its scanner is. -/
theorem ofGrammar_sound {handle : Nat} {grammar : Grammar} {scanner : Option Scanner}
    (h : ofGrammar handle grammar scanner = .ok l) :
    ∃ g, FlatGrammar.ofGrammar grammar = .ok g ∧ l.Sound g := by
  obtain ⟨g, hg, -, -, hsound⟩ := ofGrammar_table h
  exact ⟨g, hg, hsound⟩

/-- A lexical state beyond those of the table has no tokens. -/
theorem validTokens_eq_empty {handle : Nat} {grammar : Grammar} {scanner : Option Scanner}
    (h : ofGrammar handle grammar scanner = .ok l) {lexState : Nat}
    (hs : l.table.lexStates.size ≤ lexState) : l.validTokens lexState = #[] := by
  unfold ofGrammar at h
  split at h
  · contradiction
  · split at h
    · contradiction
    · rename_i hl
      obtain rfl := Except.ok.inj h
      obtain ⟨htable, hvalid, -, -⟩ := ofTable_spec hl
      rw [validTokens, hvalid, Array.getElem?_eq_none (by rwa [Array.size_map, ← htable])]
      rfl

end Language

end Glr
