import Glr.Proofs.Automaton.Conflict
import Glr.Proofs.Automaton.Lookahead
import Glr.Proofs.Language
import Mathlib.Logic.Relation

/-!
# Glr.Proofs.Recognition

The automaton on its own, without a lexer and without recovery: it takes the one action
that a state has on the next token, until it accepts.  Where no state has two things to do
on one token, it accepts just what the start symbol derives:

* what it has read is what the path to its state derives, whatever its actions are;
* a derivation leads it through its productions, each item with the token that comes after
  it among its lookaheads.
-/

namespace Glr

open Automaton

/-! ## Running the automaton -/

/-- The states that the automaton is in, the last one first, and what is still to come. -/
structure Config where
  stack : List StateId
  input : List Symbol

/-- The state on top; at the bottom is state zero. -/
def Config.state (c : Config) : StateId := c.stack.headD 0

namespace Language

/-- What the automaton does next. -/
def action? (l : Language) (c : Config) : Option ParseAction :=
  c.input.head?.bind fun x => (l.actions c.state x).head?

/-- A move of the automaton; it is stuck or done where there is none. -/
def move? (l : Language) (c : Config) : Option Config :=
  match l.action? c with
  | some (.shift t) => some ⟨t :: c.stack, c.input.tail⟩
  | some (.reduce p) =>
    match l.production? p with
    | some info =>
      if info.childCount ≤ c.stack.length then
        let below := c.stack.drop info.childCount
        (l.goto? (below.headD 0) info.lhs).map fun t => ⟨t :: below, c.input⟩
      else none
    | none => none
  | some .accept | none => none

/-- Some moves of the automaton. -/
def Moves (l : Language) : Config → Config → Prop :=
  Relation.ReflTransGen fun c c' => l.move? c = some c'

/-- From state zero, the automaton comes to accept the tokens and the end of the input. -/
def Accepts (l : Language) (w : List Symbol) : Prop :=
  ∃ c, l.Moves ⟨[], w ++ [endSymbol]⟩ c ∧ l.action? c = some .accept

end Language

/-- In no state do the items offer different things for one token. -/
def FlatGrammar.ConflictFree (g : FlatGrammar) : Prop :=
  ∀ k ∈ g.states.kernels.toList, ∀ t ∈ List.range g.basis.terminalCount,
    ∀ o ∈ g.basis.offers k t, ∀ o' ∈ g.basis.offers k t, o = o'

instance (g : FlatGrammar) : Decidable g.ConflictFree :=
  inferInstanceAs (Decidable (∀ k ∈ g.states.kernels.toList, ∀ t ∈ List.range g.basis.terminalCount,
    ∀ o ∈ g.basis.offers k t, ∀ o' ∈ g.basis.offers k t, o = o'))

variable {g : FlatGrammar} {l : Language} {c c' : Config} {w : List Symbol} {q t : StateId}
  {x : Item} {a y : Symbol}

/-! ## What is read is derived -/

theorem lastState_eq_headD (steps : List (Symbol × StateId)) :
    lastState steps = (steps.map Prod.snd).headD 0 := by
  cases steps <;> rfl

theorem spelled_cons (y : Symbol) (t : StateId) (steps : List (Symbol × StateId)) :
    spelled ((y, t) :: steps) = spelled steps ++ [y] := by
  simp [spelled]

theorem spelled_take_drop (n : Nat) (steps : List (Symbol × StateId)) :
    spelled steps = spelled (steps.drop n) ++ spelled (steps.take n) := by
  rw [spelled, spelled, spelled, ← List.reverse_append, ← List.map_append, List.take_append_drop]

/-- The path to the state derives what has been read. -/
def Config.Read (g : FlatGrammar) (l : Language) (w : List Symbol) (c : Config) : Prop :=
  ∃ steps read, Path l.Edge steps ∧ steps.map Prod.snd = c.stack ∧ w = read ++ c.input ∧
    g.Derives (spelled steps) read

theorem Config.Read.start (w : List Symbol) : Config.Read g l w ⟨[], w⟩ :=
  ⟨[], [], .nil, rfl, rfl, .nil⟩

theorem Language.action?_eq_some {action : ParseAction} (h : l.action? c = some action) :
    ∃ a rest, c.input = a :: rest ∧ action ∈ l.actions c.state a := by
  rw [action?, Option.bind_eq_some_iff] at h
  obtain ⟨a, ha, h⟩ := h
  obtain ⟨rest, hrest⟩ := List.head?_eq_some_iff.mp ha
  exact ⟨a, rest, hrest, List.mem_of_head? h⟩

/-- A move keeps to what is derived. -/
theorem Config.Read.move (hg : l.Sound g) (h : c.Read g l w) (hm : l.move? c = some c') :
    c'.Read g l w := by
  obtain ⟨steps, read, hp, hstack, rfl, hread⟩ := h
  have hstate : lastState steps = c.state := by rw [lastState_eq_headD, hstack, Config.state]
  unfold Language.move? at hm
  split at hm
  · rename_i t ha
    obtain rfl := Option.some.inj hm
    obtain ⟨a, rest, hinput, ha⟩ := Language.action?_eq_some ha
    have htoken := hg.isToken_of_shift ha
    have hedge : l.Edge (lastState steps) a t := by
      rw [Language.Edge, if_neg]
      · rwa [hstate]
      · rw [hg.isNonterminal_eq_false (FlatGrammar.isTerminal_of_isToken htoken)]
        simp
    refine ⟨(a, t) :: steps, read ++ [a], .cons hp hedge, by simp [hstack], by simp [hinput], ?_⟩
    rw [spelled_cons]
    exact hread.append (.token htoken .nil)
  · rename_i p ha
    obtain ⟨a, rest, hinput, ha⟩ := Language.action?_eq_some ha
    rw [← hstate] at ha
    obtain ⟨prod, hprod, hle, hspelled, -⟩ := hg.reduce hp ha
    have hinfo : l.production? p = some prod.info := by rw [hg.production?_eq, hprod]; rfl
    have hcount : prod.info.childCount = prod.rhs.length := by
      simp [ProductionInfo.childCount, Production.info, Production.rhs]
    simp only [hinfo] at hm
    split at hm
    · obtain ⟨t, ht, rfl⟩ := Option.map_eq_some_iff.mp hm
      rw [hcount] at ht ⊢
      have hbelow : (steps.drop prod.rhs.length).map Prod.snd = c.stack.drop prod.rhs.length := by
        rw [List.map_drop, hstack]
      have hedge : l.Edge (lastState (steps.drop prod.rhs.length)) prod.lhs t := by
        have hrule := (hg.grammar.productions prod (Array.mem_of_getElem? hprod)).lhs
        rw [Language.Edge, if_pos (hg.isNonterminal_of_isRule hrule), lastState_eq_headD, hbelow]
        exact ht
      refine ⟨(prod.lhs, t) :: steps.drop prod.rhs.length, read, .cons (hp.drop _) hedge, ?_, rfl, ?_⟩
      · rw [List.map_cons, hbelow]
      · rw [spelled_take_drop prod.rhs.length, hspelled] at hread
        obtain ⟨u, v, rfl, hu, hv⟩ := Derives.append_iff.mp hread
        rw [spelled_cons]
        exact hu.append (Derives.singleton_iff.mpr
          (.inr ⟨prod, Array.mem_of_getElem? hprod, rfl, hv⟩))
    · contradiction
  · contradiction
  · contradiction

theorem Config.Read.moves (hg : l.Sound g) (h : c.Read g l w) (hm : l.Moves c c') :
    c'.Read g l w := by
  induction hm with
  | refl => exact h
  | tail _ hmove ih => exact ih.move hg hmove

/-- What is accepted is derived from the start symbol. -/
theorem Language.Accepts.derives (hg : l.Sound g) (hw : ∀ y ∈ w, IsToken g.symbols y)
    (h : l.Accepts w) : g.Derives [g.start] w := by
  obtain ⟨c, hm, ha⟩ := h
  obtain ⟨steps, read, hp, hstack, hinput, hread⟩ := (Config.Read.start _).moves hg hm
  obtain ⟨a, rest, hc, ha⟩ := Language.action?_eq_some ha
  rw [Config.state, ← hstack, ← lastState_eq_headD] at ha
  obtain ⟨-, t, rfl⟩ := hg.accept hp ha
  obtain rfl := hg.eq_end_of_accept ha
  rw [hc] at hinput
  rw [show spelled [(g.start, t)] = [g.start] from rfl] at hread
  -- the end of the input is none of the tokens, so all of them have been read
  have hend : endSymbol ∉ w := fun hmem => hg.grammar.ne_end_of_usable (.inl (hw _ hmem)) rfl
  rcases List.append_eq_append_iff.mp hinput with ⟨more, rfl, hmore⟩ | ⟨more, rfl, hmore⟩
  · obtain rfl : more = [] := by cases more <;> simp_all
    simpa using hread
  · cases more with
    | nil => simpa using hread
    | cons y more =>
      obtain ⟨rfl, -⟩ := List.cons.inj hmore
      simp at hend

/-! ## What is derived is read -/

theorem Language.move?_shift {stack : List StateId} {input : List Symbol}
    (h : (l.actions (stack.headD 0) a).head? = some (.shift t)) :
    l.move? ⟨stack, a :: input⟩ = some ⟨t :: stack, input⟩ := by
  have haction : l.action? ⟨stack, a :: input⟩ = some (.shift t) := h
  rw [move?, haction]
  rfl

theorem Language.move?_reduce {ts stack : List StateId} {input : List Symbol} {p : ProductionId}
    {info : ProductionInfo} (h : (l.actions ((ts ++ stack).headD 0) a).head? = some (.reduce p))
    (hp : l.production? p = some info) (hcount : info.childCount = ts.length)
    (hgoto : l.goto? (stack.headD 0) info.lhs = some t) :
    l.move? ⟨ts ++ stack, a :: input⟩ = some ⟨t :: stack, a :: input⟩ := by
  have haction : l.action? ⟨ts ++ stack, a :: input⟩ = some (.reduce p) := h
  rw [move?, haction]
  simp only [hp, hcount]
  rw [if_pos (by simp), List.drop_left, hgoto]
  rfl

theorem Language.production?_of_table {name : String} (hl : l.table = (g.table name).1)
    (p : ProductionId) : l.production? p = g.productions[p]?.map Production.info := by
  rw [production?, hl]
  exact Array.getElem?_map

/-- Items belong to productions. -/
theorem FlatGrammar.WellFormed.exists_production (hg : g.WellFormed) {k : Kernel} {i : LookItem}
    (hk : g.states.kernels[q]? = some k) (hi : i ∈ g.basis.closure k)
    (hp : i.item.production ≠ 0) : (g.basis.production? i.item.production).isSome = true := by
  have hb := Basis.ofGrammar_sound hg
  have hks := hg.states_inv.kernels q k hk
  obtain ⟨r, hr, -⟩ := Basis.Implied.hasItem hb hks ((Basis.mem_closure_iff hb hks.tokens).mp ⟨i, hi, rfl⟩)
  obtain ⟨p, hp⟩ := Nat.exists_eq_succ_of_ne_zero hp
  rw [hp, Nat.succ_eq_add_one, Basis.rhs_succ] at hr
  rw [hp, Nat.succ_eq_add_one, Basis.production?_succ]
  obtain ⟨prod, hprod, -⟩ := Option.map_eq_some_iff.mp hr
  rw [hprod]
  rfl

theorem FlatGrammar.WellFormed.exists_transitions (hg : g.WellFormed) {k : Kernel}
    (hk : g.states.kernels[q]? = some k) : ∃ ts, g.states.transitions[q]? = some ts := by
  have hlt : q < g.states.transitions.size := by
    rw [hg.states_inv.transitions_size]
    exact (Array.getElem?_eq_some_iff.mp hk).1
  exact ⟨_, Array.getElem?_eq_getElem hlt⟩

section

variable {name : String} (hg : g.WellFormed) (hl : l.table = (g.table name).1)
  (hs : g.isTerminal g.start = false) (hc : g.ConflictFree)

include hg hl hs hc

omit hc in
/-- Where an item offers something, its state has an action. -/
theorem Language.actions_ne_nil {k : Kernel} {i : LookItem} {o : Offer} {a : Symbol}
    (hk : g.states.kernels[q]? = some k) (hi : i ∈ g.basis.closure k)
    (ha : g.isTerminal a = true) (ho : g.basis.offer? i a = some o) : l.actions q a ≠ [] := by
  have hb := Basis.ofGrammar_sound hg
  have hks := hg.states_inv.kernels q k hk
  obtain ⟨ts, hts⟩ := hg.exists_transitions hk
  -- a token is shifted only by productions, and the state goes on over it
  have hshift (h : o = .shift) : g.basis.next? i.item = some a :=
    Basis.next?_of_offer_shift (h ▸ ho)
  have hproduction (h : o = .shift) : (g.basis.production? i.item.production).isSome = true := by
    refine hg.exists_production hk hi fun hz => ?_
    have hn := hshift h
    rw [Basis.next?, Basis.after, hz, Basis.rhs_zero, Option.getD_some, List.head?_drop] at hn
    obtain rfl : a = g.start := by simpa using List.mem_of_getElem? hn
    rw [ha] at hs
    contradiction
  have hkey (h : o = .shift) : a ∈ ts.map Prod.fst := by
    obtain ⟨ts', t, -, hts', hm, -⟩ :=
      hg.states_settled q k hk a (Basis.mem_nextSymbols.mpr ⟨i, hi, hshift h⟩)
    obtain rfl := Option.some.inj (hts.symm.trans hts')
    exact List.mem_map_of_mem hm
  have hhas := Offers.ofKernel_has hb hks hi ho hproduction
  rw [actions_of_table hg hl hk hts ha, if_pos hhas.mem_terminals]
  exact Cells.actionsFor_ne_nil (Offers.ofKernel_from g.basis k)
    (fun j hj hp => hg.exists_production hk hj hp) hhas hkey

/-- What an item offers is the action of its state. -/
theorem Language.exists_action {k : Kernel} {i : LookItem} {o : Offer} {a : Symbol}
    (hk : g.states.kernels[q]? = some k) (hi : i ∈ g.basis.closure k)
    (ha : g.isTerminal a = true) (ho : g.basis.offer? i a = some o) :
    ∃ action, (l.actions q a).head? = some action ∧ Offer.ofAction action = o := by
  have hterm : g.basis.isTerminal a = true := Basis.isTerminal_ofGrammar.trans ha
  obtain ⟨action, rest, hcons⟩ :=
    List.exists_cons_of_ne_nil (actions_ne_nil hg hl hs hk hi ha ho)
  have hmem : action ∈ l.actions q a := by simp [hcons]
  obtain ⟨k', ts, hk', -, hcalls⟩ := (sound_of_table (l := { l with rules := [] }) hg hl
    (by simp)).calls q a action hmem
  obtain rfl := Option.some.inj (hk.symm.trans hk')
  obtain ⟨j, hj, hoffer⟩ := hcalls.exists_offer hterm
  refine ⟨action, by rw [hcons]; rfl, ?_⟩
  exact hc k (Array.mem_toList_iff.mpr (Array.mem_of_getElem? hk)) a
    (List.mem_range.mpr (Basis.isTerminal_lt hterm)) _ (List.mem_filterMap.mpr ⟨j, hj, hoffer⟩) _
    (List.mem_filterMap.mpr ⟨i, hi, ho⟩)

/-- A token that an item has next is shifted to where the item is advanced. -/
theorem Language.exists_shift (hx : g.states.Stands g.basis q x a) {y : Symbol}
    (hy : IsToken g.symbols y) (hn : g.basis.next? x = some y) :
    ∃ t, (l.actions q y).head? = some (.shift t) ∧
      g.states.Stands g.basis t ⟨x.production, x.dot + 1⟩ a := by
  have hb := Basis.ofGrammar_sound hg
  obtain ⟨t, ⟨ts, hts, hm⟩, hstands⟩ := hx.advance hb hg.states_inv hg.states_settled hn
  obtain ⟨k, i, hk, hi, rfl, -⟩ := hx
  have hterm := FlatGrammar.isTerminal_of_isToken hy
  have hoffer : g.basis.offer? i y = some .shift := by
    simp [Basis.offer?, hn, Basis.isTerminal_ofGrammar, hterm]
  obtain ⟨action, haction, hof⟩ := exists_action hg hl hs hc hk hi hterm hoffer
  cases action with
  | reduce => contradiction
  | accept => contradiction
  | shift t' =>
    obtain ⟨k', ts', -, hts', hcalls⟩ := (sound_of_table (l := { l with rules := [] }) hg hl
      (by simp)).calls q y _ (List.mem_of_head? haction)
    obtain rfl := Option.some.inj (hts.symm.trans hts')
    cases hcalls with
    | shift hm' _ =>
      obtain rfl := hg.states_inv.single q ts y t t' hts hm hm'
      exact ⟨t, haction, hstands⟩

/-- At the end of its production an item has the production reduced. -/
theorem Language.reduce_of_stands {p : Nat} {prod : Production}
    (hp : g.productions[p]? = some prod)
    (hx : g.states.Stands g.basis q ⟨p + 1, prod.rhs.length⟩ a) (ha : g.isTerminal a = true) :
    (l.actions q a).head? = some (.reduce p) := by
  obtain ⟨k, i, hk, hi, hitem, hl'⟩ := hx
  have hn : g.basis.next? i.item = none := by
    rw [hitem, Basis.next?, Basis.after, Basis.rhs_succ, hp]
    simp
  have hoffer : g.basis.offer? i a = some (.reduce p) := by
    rw [Basis.offer?, hn, hitem]
    simp [hl']
  obtain ⟨action, haction, hof⟩ := exists_action hg hl hs hc hk hi ha hoffer
  cases action with
  | reduce p' =>
    obtain rfl := Offer.reduce.inj hof
    exact haction
  | shift => contradiction
  | accept => contradiction

/-- Past the start symbol, the end of the input is accepted. -/
theorem Language.accept_of_stands (hx : g.states.Stands g.basis q ⟨0, 1⟩ endSymbol) :
    (l.actions q endSymbol).head? = some .accept := by
  obtain ⟨k, i, hk, hi, hitem, -⟩ := hx
  have hterm : g.isTerminal endSymbol = true :=
    Basis.isTerminal_ofGrammar.symm.trans (Basis.ofGrammar_sound hg).endToken
  have hn : g.basis.next? i.item = none := by
    rw [hitem, Basis.next?, Basis.after, Basis.rhs_zero]
    rfl
  have hoffer : g.basis.offer? i endSymbol = some .accept := by
    rw [Basis.offer?, hn, hitem]
    simp
  obtain ⟨action, haction, hof⟩ := exists_action hg hl hs hc hk hi hterm hoffer
  cases action with
  | accept => exact haction
  | shift => contradiction
  | reduce => contradiction

omit hs hc in
/-- A nonterminal that an item has next leads to where the item is advanced. -/
theorem Language.goto_of_stands {prod : Production} (hp : prod ∈ g.productions)
    (hx : g.states.Stands g.basis q x a) (hn : g.basis.next? x = some prod.lhs) :
    ∃ t, l.goto? q prod.lhs = some t ∧
      g.states.Stands g.basis t ⟨x.production, x.dot + 1⟩ a := by
  have hsound := sound_of_table (l := { l with rules := [] }) hg hl (by simp)
  obtain ⟨t, hedge, hstands⟩ :=
    hx.advance (Basis.ofGrammar_sound hg) hg.states_inv hg.states_settled hn
  have hrule := (hg.productions prod hp).lhs
  have hlt : prod.lhs < g.symbols.size := by
    obtain ⟨info, hinfo, -⟩ := hrule
    exact (Array.getElem?_eq_some_iff.mp hinfo).1
  obtain ⟨t', ht'⟩ := hsound.exists_goto q _ t hedge (FlatGrammar.isTerminal_of_isRule hrule) hlt
  obtain ⟨ts, hts, hm⟩ := hedge
  obtain ⟨ts', hts', hm'⟩ := hsound.gotos q _ t' ht'
  obtain rfl := Option.some.inj (hts.symm.trans hts')
  obtain rfl := hg.states_inv.single q ts _ t t' hts hm hm'
  exact ⟨t, ht', hstands⟩

/-- What an item has next leads the automaton through all that it derives, where the rest of
the production and then a lookahead of the item come after it. -/
theorem Language.moves_of_derives {xs u : List Symbol} (h : g.Derives xs u) :
    ∀ (stack : List StateId) (rest : List Symbol) {x : Item} {a : Symbol} {ys v : List Symbol},
      g.states.Stands g.basis (stack.headD 0) x a → g.isTerminal a = true →
      g.basis.after x = xs ++ ys → g.Derives ys v →
      ∃ ts, ts.length = xs.length ∧
        l.Moves ⟨stack, u ++ (v ++ a :: rest)⟩ ⟨ts ++ stack, v ++ a :: rest⟩ ∧
        g.states.Stands g.basis ((ts ++ stack).headD 0) ⟨x.production, x.dot + xs.length⟩ a := by
  induction h with
  | nil =>
    intro stack rest x a ys v hx _ _ _
    exact ⟨[], rfl, .refl, hx⟩
  | @token y xs u hy _ ih =>
    intro stack rest x a ys v hx ha hafter hys
    obtain ⟨t, haction, ht⟩ := exists_shift hg hl hs hc hx hy (Basis.next?_of_after hafter)
    obtain ⟨ts, hlen, hmoves, hend⟩ :=
      ih (t :: stack) rest ht ha (Basis.after_succ hafter) hys
    refine ⟨ts ++ [t], by simp [hlen], .head (move?_shift haction) ?_, ?_⟩
    · rw [List.append_assoc]
      exact hmoves
    · rw [List.append_assoc, List.length_cons, Nat.add_comm xs.length, ← Nat.add_assoc]
      exact hend
  | @rule prod xs u w hp hu hxs ihu ih =>
    intro stack rest x a ys v hx ha hafter hys
    have hn := Basis.next?_of_after hafter
    have htail := hxs.append hys
    obtain ⟨p, hprod⟩ := Array.getElem?_of_mem hp
    -- the token that comes after the production is one of its lookaheads
    obtain ⟨c, rest', hcons⟩ : ∃ c rest', w ++ v ++ a :: rest = c :: rest' :=
      List.exists_cons_of_ne_nil (by simp)
    have hcterm : g.isTerminal c = true := by
      cases hwv : w ++ v with
      | nil =>
        rw [hwv] at hcons
        rwa [← (List.cons.inj hcons).1]
      | cons d ds =>
        rw [hwv] at hcons
        refine FlatGrammar.isTerminal_of_isToken (htail.tokens c ?_)
        rw [hwv, ← (List.cons.inj hcons).1]
        exact List.mem_cons_self
    have hdemand : g.states.Stands g.basis (stack.headD 0) ⟨p + 1, 0⟩ c :=
      hx.demand hg hg.states_inv hprod hn (by rw [Basis.after_succ hafter]; exact htail)
        (by rw [hcons]; rfl)
    have hstart : g.basis.after ⟨p + 1, 0⟩ = prod.rhs ++ [] := by
      rw [Basis.after, Basis.rhs_succ, hprod, List.append_nil]
      rfl
    obtain ⟨ts, hlen, hmoves, hend⟩ := ihu stack rest' hdemand hcterm hstart .nil
    rw [Nat.zero_add] at hend
    -- the production is reduced, and the rest of the item goes on after its nonterminal
    have hreduce := reduce_of_stands hg hl hs hc hprod hend hcterm
    obtain ⟨t, hgoto, ht⟩ := goto_of_stands hg hl hp hx hn
    have hmove : l.move? ⟨ts ++ stack, c :: rest'⟩ = some ⟨t :: stack, c :: rest'⟩ := by
      have hinfo : l.production? p = some prod.info := by
        rw [production?_of_table hl, hprod]
        rfl
      refine move?_reduce hreduce hinfo ?_ hgoto
      rw [hlen, ProductionInfo.childCount, Production.info, Production.rhs, List.length_map,
        List.length_map]
    obtain ⟨ts', hlen', hmoves', hend'⟩ :=
      ih (t :: stack) rest ht ha (Basis.after_succ hafter) hys
    rw [← List.append_assoc, hcons] at hmoves'
    refine ⟨ts' ++ [t], by simp [hlen'], ?_, ?_⟩
    · rw [List.append_assoc, List.append_assoc, ← List.append_assoc w, hcons]
      exact hmoves.trans (.head hmove hmoves')
    · rw [List.append_assoc, List.length_cons, Nat.add_comm xs.length, ← Nat.add_assoc]
      exact hend'

/-- What the start symbol derives is accepted. -/
theorem Language.accepts_of_derives (h : g.Derives [g.start] w) : l.Accepts w := by
  have hb := Basis.ofGrammar_sound hg
  have hterm : g.isTerminal endSymbol = true := Basis.isTerminal_ofGrammar.symm.trans hb.endToken
  have hafter : g.basis.after ⟨0, 0⟩ = [g.start] ++ [] := by
    rw [Basis.after, Basis.rhs_zero]
    rfl
  obtain ⟨ts, -, hmoves, hend⟩ := moves_of_derives hg hl hs hc h [] []
    (ItemSets.stands_start hb hg.states_inv) hterm hafter .nil
  exact ⟨_, hmoves, accept_of_stands hg hl hs hc hend⟩

end

/-- The automaton of a grammar without conflicts accepts just what the start symbol derives.
A table is only built where the start symbol is no token. -/
theorem Language.accepts_iff_derives {grammar : Grammar} {name : String}
    (hg : FlatGrammar.ofGrammar grammar = .ok g) (hl : l.table = (g.table name).1)
    (hs : g.isTerminal g.start = false) (hc : g.ConflictFree)
    (hw : ∀ y ∈ w, IsToken g.symbols y) : l.Accepts w ↔ g.Derives [g.start] w := by
  have hwf := FlatGrammar.ofGrammar_wellFormed hg
  have hsound : Language.Sound g { l with rules := [] } := sound_of_table hwf hl (by simp)
  constructor
  · exact fun h => Accepts.derives hsound hw h
  · exact fun h => accepts_of_derives hwf hl hs hc h

/-- Some text in parentheses. -/
def Grammar.nested : Grammar :=
  { name := "nested", extras := some [] : Grammar }
    |>.addRule "s" (.choice [.seq [.string "(", .sym "s", .string ")"], .string "x"])

theorem Language.accepts_iff_derives_nested : ∃ (g : FlatGrammar) (l : Language),
    FlatGrammar.ofGrammar .nested = .ok g ∧ l.table = (g.table "nested").1 ∧
    g.isTerminal g.start = false ∧ g.ConflictFree ∧ (∀ y ∈ [1, 3, 2], IsToken g.symbols y) ∧
    (l.Accepts [1, 3, 2] ↔ g.Derives [g.start] [1, 3, 2]) := by
  have hchecks : (FlatGrammar.ofGrammar .nested).toOption.any (fun g =>
      !g.isTerminal g.start && decide g.ConflictFree && [1, 3, 2].all fun y =>
        g.symbols[y]?.any fun info => info.kind == .terminal) = true := by
    decide +kernel
  obtain ⟨g, hg, hchecks⟩ := exists_ok hchecks
  simp only [Bool.and_eq_true, Bool.not_eq_true', decide_eq_true_eq, List.all_eq_true,
    Option.any_eq_true, beq_iff_eq] at hchecks
  obtain ⟨⟨hs, hc⟩, htokens⟩ := hchecks
  have hw : ∀ y ∈ [1, 3, 2], IsToken g.symbols y := by
    intro y hy
    obtain ⟨info, hinfo, hkind⟩ := htokens y hy
    exact ⟨info, hinfo, .inl hkind⟩
  let l : Language := ⟨0, (g.table "nested").1, [], #[], none⟩
  exact ⟨g, l, hg, rfl, hs, hc, hw, Language.accepts_iff_derives hg rfl hs hc hw⟩

end Glr
