import Glr.Proofs.Automaton.Checked
import Glr.Proofs.Automaton.Lists
import Glr.Proofs.FlatGrammar.Names
import Glr.Proofs.FlatGrammar.Safe
import Glr.Proofs.Language

/-!
# Glr.Proofs.Table

What holds of every table that is generated, and that nothing is missing to load it:

* its dimensions agree, and its lists are numbered without gaps or repetitions;
* what actions and gotos lead to is there: states, productions, left-hand sides;
* the end of the input is not shifted;
* the lexical state of a state is sorted and lists just the tokens with actions.

Every index that flattening and the construction of the table look up is in range, with one
exception, where generation is given up: where the start symbol is a token, the item `S' → . start`
asks for a shift, and the precedence of the shift is looked up in a production that this item
does not have.  That a start rule must be no token is checked, but by the rule alone; an external
with the name of the start rule takes its place.
-/

namespace Glr

open Automaton

namespace Table

/-- The entry of a symbol in a state. -/
def entry (t : Table) (q : StateId) (x : Symbol) : Nat :=
  t.entries[q * t.symbols.size + x]?.getD 0

/-- Whether a symbol is a token, the end of the input among them. -/
def IsTerminal (t : Table) (x : Symbol) : Prop :=
  ∃ info, t.symbols[x]? = some info ∧ info.kind.isTerminal = true

/-- The table can be read without a miss. -/
structure WellFormed (t : Table) : Prop where
  entries_size : t.entries.size = t.stateCount * t.symbols.size
  stateLexStates_size : t.stateLexStates.size = t.stateCount
  /-- The entry of a token numbers a list of actions. -/
  entry_lt : ∀ q < t.stateCount, ∀ x, t.IsTerminal x → t.entry q x < t.actionLists.size
  first_list : t.actionLists[0]? = some []
  other_lists : ∀ (i : Nat) acts, i ≠ 0 → t.actionLists[i]? = some acts → acts ≠ []
  lists_nodup : t.actionLists.toList.Nodup
  shift : ∀ acts ∈ t.actionLists, ∀ s, .shift s ∈ acts → s < t.stateCount
  goto : ∀ q < t.stateCount, ∀ x < t.symbols.size, ¬t.IsTerminal x →
    ∀ s, t.entry q x = s + 1 → s < t.stateCount
  reduce : ∀ acts ∈ t.actionLists, ∀ p, .reduce p ∈ acts → ∃ prod, t.productions[p]? = some prod ∧
    prod.fields.length = prod.labels.length ∧ IsRule t.symbols prod.lhs
  /-- The end of the input is a token that is not shifted. -/
  endSymbol : t.IsTerminal endSymbol ∧ ∀ q < t.stateCount, ∀ acts,
    t.actionLists[t.entry q endSymbol]? = some acts → ∀ s, .shift s ∉ acts
  /-- The lexical state of a state lists the tokens that it has actions for. -/
  lexState : ∀ q < t.stateCount, ∃ id valid, t.stateLexStates[q]? = some id ∧
    t.lexStates[id]? = some valid ∧ valid.Pairwise (· < ·) ∧
    ∀ x, x ∈ valid ↔ t.IsTerminal x ∧ t.entry q x ≠ 0

end Table

/-! ## The table of a flat grammar -/

section

variable {g : FlatGrammar} {name : String} {q : StateId} {x : Symbol} {acts : List ParseAction}

theorem FlatGrammar.isTerminal_table :
    (g.table name).1.IsTerminal x ↔ g.isTerminal x = true := by
  unfold FlatGrammar.isTerminal
  show (∃ info, g.symbols[x]? = some info ∧ info.kind.isTerminal = true) ↔ _
  cases g.symbols[x]? <;> simp

/-- A list of actions that is not empty belongs to a state and a token. -/
theorem FlatGrammar.calls_of_mem_actionLists (h : acts ∈ (g.table name).1.actionLists)
    {action : ParseAction} (ha : action ∈ acts) :
    ∃ (q : StateId) (k : Kernel) (ts : List (Symbol × StateId)) (x : Symbol),
      g.states.kernels[q]? = some k ∧ g.states.transitions[q]? = some ts ∧
      Calls g.basis (g.basis.closure k) ts x action := by
  rcases (Cells.ofItemSets_listed g.basis g.states).lists.origin acts h with
    rfl | ⟨q, k, ts, x, hq, rfl⟩
  · simp at ha
  · rw [Array.getElem?_toList, Array.getElem?_zip_eq_some] at hq
    exact ⟨q, k, ts, x, hq.1, hq.2,
      Cells.calls_of_mem_actionsFor (Offers.ofKernel_from g.basis k) ha⟩

/-- The state that an entry is shifted to exists. -/
theorem FlatGrammar.WellFormed.lt_of_transition (hg : g.WellFormed)
    {ts : List (Symbol × StateId)} {s : StateId} (hts : g.states.transitions[q]? = some ts)
    (hs : (x, s) ∈ ts) : s < g.states.kernels.size := by
  have hq : q < g.states.kernels.size := by
    rw [← hg.states_inv.transitions_size]
    exact (Array.getElem?_eq_some_iff.mp hts).1
  obtain ⟨-, k', hk', -⟩ :=
    hg.states_inv.transitions q _ ts x s (Array.getElem?_eq_getElem hq) hts hs
  exact (Array.getElem?_eq_some_iff.mp hk').1

/-- A state reads the entry of a token as the list of what is offered for it. -/
theorem FlatGrammar.WellFormed.exists_entry (hg : g.WellFormed) (name : String)
    (hq : q < g.states.kernels.size) :
    ∃ k ts, g.states.kernels[q]? = some k ∧ g.states.transitions[q]? = some ts ∧
      (∀ x, g.isTerminal x = true →
        (g.table name).1.actionLists[(g.table name).1.entry q x]? =
          some (if x ∈ (Offers.ofKernel g.basis k).terminals then
            (Cells.actionsFor g.basis q ts (Offers.ofKernel g.basis k) x).1 else [])) ∧
      ∀ x < g.symbols.size, g.isTerminal x = false → ∀ s, (g.table name).1.entry q x = s + 1 →
        (x, s) ∈ ts := by
  obtain ⟨k, ts, row, hk, hts, hrow, hget⟩ := Language.exists_row hg hq
  have hwidth : row.size = g.symbols.size := hrow.size
  have hentry (x : Symbol) (hx : x < g.symbols.size) :
      (g.table name).1.entry q x = row[x]?.getD 0 := congrArg (·.getD 0) (hget x hx)
  refine ⟨k, ts, hk, hts, fun x ht => ?_, fun x hx ht s hs => ?_⟩
  · have hx : x < g.symbols.size := by
      have hterminal : (g.table name).1.IsTerminal x := FlatGrammar.isTerminal_table.mpr ht
      obtain ⟨info, hi, -⟩ := hterminal
      exact (Array.getElem?_eq_some_iff.mp hi).1
    rw [hentry x hx]
    exact hrow.actions x (hwidth ▸ hx) (by rw [Basis.isTerminal_ofGrammar]; exact ht)
  · rw [hentry x hx] at hs
    rcases hrow.gotos x (hwidth ▸ hx) (by rw [Basis.isTerminal_ofGrammar]; exact ht) with
      ⟨t, ht, hr⟩ | ⟨-, hr⟩
    · rw [hr, Option.getD_some] at hs
      exact Nat.succ.inj hs ▸ ht
    · rw [hr] at hs
      contradiction

/-- The table of a well-formed grammar is well formed. -/
theorem FlatGrammar.WellFormed.table (hg : g.WellFormed) : (g.table name).1.WellFormed := by
  have hb := Basis.ofGrammar_sound hg
  have hlisted := Cells.ofItemSets_listed g.basis g.states
  have hstates : (g.states.kernels.zip g.states.transitions).toList.length
      = g.states.kernels.size := by
    rw [Array.length_toList, Array.size_zip, hg.states_inv.transitions_size, Nat.min_self]
  have hfirst : (g.table name).1.actionLists[0]? = some [] :=
    (Cells.ofItemSets_rows hb hg.states_inv).empty
  have hother (i : Nat) acts (hi : i ≠ 0)
      (ha : (g.table name).1.actionLists[i]? = some acts) : acts ≠ [] := by
    rintro rfl
    have hlt : i < (g.table name).1.actionLists.toList.length := by
      simpa using (Array.getElem?_eq_some_iff.mp ha).1
    refine hi ((List.getElem?_inj hlt hlisted.lists.nodup).mp ?_)
    rw [Array.getElem?_toList, Array.getElem?_toList]
    exact ha.trans hfirst.symm
  have hend : g.isTerminal endSymbol = true := by
    rw [← Basis.isTerminal_ofGrammar]
    exact hb.endToken
  refine
    { entries_size := Language.size_entries hg
      stateLexStates_size := hlisted.size.trans hstates
      entry_lt := fun q hq x hx => ?_
      first_list := hfirst
      other_lists := hother
      lists_nodup := hlisted.lists.nodup
      shift := fun acts ha s hs => ?_
      goto := fun q hq x hx ht s hs => ?_
      reduce := fun acts ha p hp => ?_
      endSymbol := ⟨FlatGrammar.isTerminal_table.mpr hend, fun q hq acts ha s hs => ?_⟩
      lexState := fun q hq => ?_ }
  · obtain ⟨k, ts, -, -, hread, -⟩ := hg.exists_entry name hq
    exact (Array.getElem?_eq_some_iff.mp (hread x (FlatGrammar.isTerminal_table.mp hx))).1
  · obtain ⟨q, k, ts, x, -, hts, hc⟩ := FlatGrammar.calls_of_mem_actionLists ha hs
    cases hc with
    | shift ht _ => exact hg.lt_of_transition hts ht
  · obtain ⟨k, ts, -, hts, -, hread⟩ := hg.exists_entry name hq
    refine hg.lt_of_transition hts (hread x hx ?_ s hs)
    simpa using mt FlatGrammar.isTerminal_table.mpr ht
  · obtain ⟨q, k, ts, x, -, -, hc⟩ := FlatGrammar.calls_of_mem_actionLists ha hp
    cases hc with
    | reduce hi hn hprod hq hl =>
      obtain ⟨prod, hprod⟩ := Option.isSome_iff_exists.mp hq
      have hget : (g.table name).1.productions[p]? = some prod.info := by
        show (g.productions.map Production.info)[p]? = _
        rw [Array.getElem?_map]
        exact congrArg (Option.map Production.info) hprod
      exact ⟨prod.info, hget, by simp [Production.info],
        (hg.productions prod (Array.mem_of_getElem? hprod)).lhs⟩
  · obtain ⟨k, ts, -, -, hread, -⟩ := hg.exists_entry name hq
    rw [hread _ hend] at ha
    obtain rfl := Option.some.inj ha
    split at hs
    · cases Cells.calls_of_mem_actionsFor (Offers.ofKernel_from g.basis k) hs with
      | shift _ hi =>
        obtain ⟨i, -, hn, -⟩ := hi
        exact hg.ne_end_of_usable (hg.usable_of_next? hn) rfl
    · simp at hs
  · obtain ⟨k, ts, hk, hts, hread, -⟩ := hg.exists_entry name hq
    obtain ⟨id, hid, hvalid⟩ := hlisted.tokens q k ts (by
      rw [Array.getElem?_toList, Array.getElem?_zip_eq_some]
      exact ⟨hk, hts⟩)
    refine ⟨id, _, hid, hvalid, (Offers.pairwise_terminals _).filter _, fun x => ?_⟩
    rw [Cells.mem_tokensFor, FlatGrammar.isTerminal_table]
    constructor
    · rintro ⟨hx, hne⟩
      have ht := Offers.isTerminal_of_mem_terminals hb
        (fun i hi => Basis.tokens_closure hb (hg.states_inv.kernels q k hk).tokens hi)
        (Offers.ofKernel_from g.basis k) hx
      rw [Basis.isTerminal_ofGrammar] at ht
      refine ⟨ht, fun hz => hne ?_⟩
      have hl := hread x ht
      rw [hz, hfirst, if_pos hx] at hl
      exact (Option.some.inj hl).symm
    · rintro ⟨ht, hz⟩
      have hne := hother _ _ hz (hread x ht)
      split at hne
      · exact ⟨‹_›, hne⟩
      · exact absurd rfl hne

/-- Loading a well-formed table of the right version fails only for want of a scanner or for a
pattern that is none. -/
theorem Language.error_of_ofTable {t : Table} (h : t.WellFormed) (hv : t.version = tableVersion)
    {handle : Nat} {scanner : Option Scanner} {e : LoadError}
    (he : ofTable handle t scanner = .error e) :
    (∃ name, e = .missingScanner name) ∨ ∃ token, e = .invalidPattern token := by
  unfold ofTable at he
  simp only at he
  rw [if_neg (by simp [hv]), if_neg (by simp [h.entries_size, h.stateLexStates_size])] at he
  split at he
  · exact .inl ⟨t.name, (Except.error.inj he).symm⟩
  · cases hm : t.lexRules.mapM (compileRule t) with
    | ok rules =>
      rw [hm] at he
      contradiction
    | error e' =>
      rw [hm] at he
      obtain rfl := Except.error.inj he
      obtain ⟨rule, -, hc⟩ := error_of_mapM hm
      unfold compileRule at hc
      split at hc
      · contradiction
      · split at hc
        · contradiction
        · exact .inr ⟨_, (Except.error.inj hc).symm⟩

end

/-! ## The tables of grammars -/

/-- Every table that is generated is well formed, and where it is not loaded, there is no scanner
for its externals or a pattern of it is none. -/
theorem Grammar.generate_wellFormed {grammar : Grammar} {t : Table}
    (h : grammar.generate.1 = .ok t) : t.WellFormed ∧
      ∀ handle scanner e, Language.ofTable handle t scanner = .error e →
        (∃ name, e = .missingScanner name) ∨ ∃ token, e = .invalidPattern token := by
  obtain ⟨g, -, hg, -, rfl⟩ := Language.table_of_generate h
  exact ⟨hg.table, fun _ _ _ he => Language.error_of_ofTable hg.table rfl he⟩

/-- A token of a scanner between two lists of another token. -/
def Grammar.scanned : Grammar :=
  { name := "scanned", externals := some [.sym "cut"] : Grammar }
    |>.addRule "s" (.seq [.many (.string "a"), .sym "cut", .sym "_t"])
    |>.addRule "_t" (.choice [.blank, .seq [.sym "_t", .string "a"]])

set_option maxRecDepth 10000 in
theorem Grammar.generate_wellFormed_scanned : ∃ t, Grammar.scanned.generate.1 = .ok t ∧
    t.WellFormed ∧ t.stateCount = 10 ∧ t.lexStates = #[[1, 2], [0, 2], [0]] ∧
    Language.ofTable 0 t none = .error (.missingScanner "scanned") := by
  have h : Grammar.scanned.generate.1.toOption.any (fun t => t.stateCount == 10
      && t.lexStates == #[[1, 2], [0, 2], [0]] && t.version == tableVersion
      && !t.externals.isEmpty && t.name == "scanned") = true := by
    decide +kernel
  obtain ⟨t, ht, hp⟩ := exists_ok h
  simp only [Bool.and_eq_true, beq_iff_eq] at hp
  obtain ⟨⟨⟨⟨hstates, hlex⟩, hversion⟩, hexternals⟩, hname⟩ := hp
  obtain ⟨hwf, -⟩ := Grammar.generate_wellFormed ht
  refine ⟨t, ht, hwf, hstates, hlex, ?_⟩
  simp [Language.ofTable, hversion, hwf.entries_size, hwf.stateLexStates_size, hexternals, hname]

/-! ## When generation is given up -/

/-- Generation is given up just for the grammars that pass all checks and have an external with
the name of the start rule. -/
theorem Grammar.generate_eq_panic_iff (g : Grammar) :
    g.generate.1 = .error .panic ↔ (∃ checks, g.validate = .ok checks) ∧
      (∃ flat, FlatGrammar.ofGrammar g = .ok flat) ∧ g.StartsExternal := by
  unfold generate
  cases hv : g.validate with
  | error e => simp
  | ok checks =>
    cases hf : FlatGrammar.ofGrammar g with
    | error e =>
      have he : e ≠ .panic := by
        rintro rfl
        exact FlatGrammar.ofGrammar_ne_panic g hf
      simp [he]
    | ok flat =>
      have hstart := FlatGrammar.isTerminal_start_iff hf
      simp only [FlatGrammar.table?_eq (FlatGrammar.ofGrammar_wellFormed hf)]
      cases ht : flat.isTerminal flat.start with
      | true => simp [hstart.mp ht]
      | false =>
        have hnot : ¬g.StartsExternal := fun hx => Bool.false_ne_true (ht.symm.trans (hstart.mpr hx))
        simp only [Bool.false_eq_true, if_false]
        split <;> simp [hnot]

/-- A start rule `s` that matches `a`, and an external token `s`. -/
def Grammar.startsExternal : Grammar :=
  { name := "g", externals := some [.sym "s"] : Grammar } |>.addRule "s" (.seq [.string "a"])

set_option maxRecDepth 10000 in
example : Grammar.startsExternal.generate.1 = .error .panic := by decide +kernel

end Glr
