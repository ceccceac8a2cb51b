import Glr.Proofs.Parser

/-!
# Glr.Proofs.Reached

The states that a parse goes through, and how the hypotheses in them fit the automaton:

```
start  →  step  →  condense  →  step  →  condense  →  …
```

In every one of them the stack of a live hypothesis is a path of the automaton.  So what
the table asks for can be done: a reduction finds its nodes and a state to go on in, and
what is accepted is the start node alone.
-/

namespace Glr

open Parse Subtree Automaton Run
open Version (stateOf)

variable {g : FlatGrammar} {l : Language} {Spans : Nat → Length → Prop} {text : Bytes}
  {old : Option Tree} {r : Run} {v w : Version} {t : Subtree} {i : Nat}

namespace Parse

/-! ## The states of a parse -/

/-- A state that a parse comes to, without regard to its limits. -/
inductive Run.Reached (l : Language) (text : Bytes) (old : Option Tree) : Run → Prop where
  | start : Reached l text old (l.startRun text old)
  | step {r : Run} {i : Nat} (h : Reached l text old r) (hn : r.next? = some i) :
      Reached l text old
        ({ r with stats := { r.stats with operations := r.stats.operations + 1 } }.step l text i)
  | condense {r : Run} (h : Reached l text old r) :
      Reached l text old { r with versions := condense r.versions r.finished }

/-- A parse comes to no other states. -/
theorem Run.Reached.loop (limits : Limits) (fuel : Nat) (h : r.Reached l text old) :
    ∃ r' : Run, r'.Reached l text old ∧ (r.loop l text limits fuel).2.versions = r'.versions ∧
      (r.loop l text limits fuel).2.finished = r'.finished := by
  induction fuel generalizing r with
  | zero => exact ⟨r, h, rfl, rfl⟩
  | succ fuel ih =>
    rw [Run.loop]
    split
    · exact ⟨r, h, rfl, rfl⟩
    · split
      · exact ⟨r, h, rfl, rfl⟩
      · rename_i i hn
        exact ih (h.step hn).condense

/-- What holds of a parse at any time holds in every state that it comes to. -/
theorem Run.Reached.sound (hg : l.Sound g) (hc : Covers Spans text)
    (hold : ∀ t, old = some t → t.language.sameAs l = true → Kept (Laid (LeafOf g l Spans)) 0 t.root)
    (h : r.Reached l text old) : r.Sound g l Spans text := by
  induction h with
  | start => exact Language.sound_startRun hold
  | @step r i _ hn ih =>
    have hr : Run.Sound g l Spans text
        { r with stats := { r.stats with operations := r.stats.operations + 1 } } :=
      ⟨ih.versions, ih.finished, ih.alive⟩
    exact (hr.step hg hc hn).1
  | condense _ ih => exact ih.condense

/-- What every way on keeps of the hypotheses, and what follows of their outcomes, a step keeps. -/
theorem Run.Sound.invariant_step (hg : l.Sound g) (hc : Covers Spans text)
    (hr : r.Sound g l Spans text) (hn : r.next? = some i) {P : Version → Prop} {Q : Finished → Prop}
    (hfetch : ∀ v t w, r.versions[i]? = some v → v.Sound g l Spans text → P v →
      Fetched l text v t w → P w)
    (hnext : ∀ v t w, v.Sound g l Spans text → v.lookahead = some t → P v → Next l v t w → P w)
    (hends : ∀ v t es f, v.Sound g l Spans text → v.lookahead = some t → P v → Ends l v t es f →
      Q f) (h : (∀ v ∈ r.versions, v.halted = false → P v) ∧ ∀ f ∈ r.finished, Q f) :
    (∀ v ∈ (r.step l text i).versions, v.halted = false → P v) ∧
      ∀ f ∈ (r.step l text i).finished, Q f := by
  obtain ⟨hversions, hfinished⟩ := h
  obtain ⟨v, hv, hlive⟩ := next?_eq_some hn
  obtain ⟨-, v', w, t, hv', hsound, hf, first, rest, outcomes, hset, hgains⟩ := hr.step hg hc hn
  obtain rfl := Option.some.inj (hv.symm.trans hv')
  obtain ⟨hw, hl⟩ := hf.sound hg hc hsound
  have hP := hfetch v t w hv hsound (hversions v (List.mem_of_getElem? hv) hlive) hf
  constructor
  · intro u hu hulive
    have hnew (hu : u ∈ first :: rest) : P u := hnext w t u hw hl hP (hgains.next u hu hulive)
    rw [hset] at hu
    rcases List.mem_append.mp hu with hu | hu
    · rcases List.mem_or_eq_of_mem_set hu with hu | rfl
      · exact hversions u hu hulive
      · exact hnew (by simp)
    · exact hnew (by simp [hu])
  · intro f hf
    rw [hgains.finished] at hf
    rcases List.mem_append.mp hf with hf | hf
    · exact hfinished f hf
    · exact hends w t _ f hw hl hP (hgains.ends f hf)

/-- What every way on keeps of the hypotheses, and what follows of their outcomes, holds in
every state of a parse. -/
theorem Run.Reached.invariant (hg : l.Sound g) (hc : Covers Spans text)
    (hold : ∀ t, old = some t → t.language.sameAs l = true → Kept (Laid (LeafOf g l Spans)) 0 t.root)
    {P : Version → Prop} {Q : Finished → Prop} (hstart : ∀ v ∈ (l.startRun text old).versions, P v)
    (hfetch : ∀ v t w, v.Sound g l Spans text → P v → Fetched l text v t w → P w)
    (hnext : ∀ v t w, v.Sound g l Spans text → v.lookahead = some t → P v → Next l v t w → P w)
    (hends : ∀ v t es f, v.Sound g l Spans text → v.lookahead = some t → P v → Ends l v t es f →
      Q f) (h : r.Reached l text old) :
    (∀ v ∈ r.versions, v.halted = false → P v) ∧ ∀ f ∈ r.finished, Q f := by
  induction h with
  | start =>
    rw [Language.finished_startRun]
    exact ⟨fun v hv _ => hstart v hv, by simp⟩
  | @step r i hr hn ih =>
    have hr := hr.sound hg hc hold
    have hr' : Run.Sound g l Spans text
        { r with stats := { r.stats with operations := r.stats.operations + 1 } } :=
      ⟨hr.versions, hr.finished, hr.alive⟩
    exact hr'.invariant_step hg hc hn (fun v t w _ => hfetch v t w) hnext hends ih
  | condense _ ih => exact ⟨fun v hv => ih.1 v (mem_of_mem_condense hv).1, ih.2⟩

/-- One turn of a parse, if there is a hypothesis left. -/
def Run.turn (l : Language) (text : Bytes) (r : Run) : Run :=
  match r.next? with
  | none => r
  | some i =>
    let r := { r with stats := { r.stats with operations := r.stats.operations + 1 } }
    let r := r.step l text i
    { r with versions := condense r.versions r.finished }

theorem Run.turn_of_next? (hn : r.next? = some i) :
    r.turn l text =
      let r := { r with stats := { r.stats with operations := r.stats.operations + 1 } }
      let r := r.step l text i
      { r with versions := Parse.condense r.versions r.finished } := by
  rw [Run.turn, hn]

theorem Run.Reached.turn (h : r.Reached l text old) : (r.turn l text).Reached l text old := by
  unfold Run.turn
  split
  · exact h
  · rename_i i hn
    exact (h.step hn).condense

theorem Run.Reached.turns (h : r.Reached l text old) (n : Nat) :
    ((Run.turn l text)^[n] r).Reached l text old := by
  induction n generalizing r with
  | zero => exact h
  | succ n ih => exact ih h.turn

/-- What the ways on keep that are gone in the turns of a parse, and what follows of the outcomes,
holds after every turn. -/
theorem Language.invariant_turns (hg : l.Sound g) (hc : Covers Spans text)
    (hold : ∀ t, old = some t → t.language.sameAs l = true → Kept (Laid (LeafOf g l Spans)) 0 t.root)
    {P : Version → Prop} {Q : Finished → Prop} (hstart : ∀ v ∈ (l.startRun text old).versions, P v)
    (hfetch : ∀ n i v t w, ((Run.turn l text)^[n] (l.startRun text old)).next? = some i →
      ((Run.turn l text)^[n] (l.startRun text old)).versions[i]? = some v →
      v.Sound g l Spans text → P v → Fetched l text v t w → P w)
    (hnext : ∀ v t w, v.Sound g l Spans text → v.lookahead = some t → P v → Next l v t w → P w)
    (hends : ∀ v t es f, v.Sound g l Spans text → v.lookahead = some t → P v → Ends l v t es f →
      Q f) (n : Nat) :
    (∀ v ∈ ((Run.turn l text)^[n] (l.startRun text old)).versions, v.halted = false → P v) ∧
      ∀ f ∈ ((Run.turn l text)^[n] (l.startRun text old)).finished, Q f := by
  induction n with
  | zero =>
    rw [Function.iterate_zero_apply, Language.finished_startRun]
    exact ⟨fun v hv _ => hstart v hv, by simp⟩
  | succ n ih =>
    have hreached : Run.Reached l text old _ := Run.Reached.start.turns n
    have hr := hreached.sound hg hc hold
    have hfetch := hfetch n
    rw [Function.iterate_succ_apply']
    generalize (Run.turn l text)^[n] (l.startRun text old) = r at ih hr hfetch
    unfold Run.turn
    split
    · exact ih
    · rename_i i hn
      have hr' : Run.Sound g l Spans text
          { r with stats := { r.stats with operations := r.stats.operations + 1 } } :=
        ⟨hr.versions, hr.finished, hr.alive⟩
      obtain ⟨hversions, hfinished⟩ :=
        hr'.invariant_step hg hc hn (fun v t w => hfetch i v t w hn) hnext hends ih
      exact ⟨fun v hv => hversions v (mem_of_mem_condense hv).1, hfinished⟩

/-- The tree of a parse is an outcome after some turn, or what a live hypothesis has read by
then. -/
theorem Run.exists_turns (l : Language) (text : Bytes) (limits : Limits) (fuel : Nat) (r : Run) :
    ∃ n, (∃ f ∈ ((Run.turn l text)^[n] r).finished,
        (r.loop l text limits fuel).1.root = f.root) ∨
      (r.loop l text limits fuel).1 = ((Run.turn l text)^[n] r).partialTree l := by
  induction fuel generalizing r with
  | zero => exact ⟨0, .inr rfl⟩
  | succ fuel ih =>
    rw [Run.loop]
    split
    · exact ⟨0, .inr rfl⟩
    · split
      · refine ⟨0, ?_⟩
        rw [Run.bestTree]
        split
        · rename_i f hbest
          exact .inl ⟨f, mem_of_firstBest? hbest, rfl⟩
        · exact .inr rfl
      · rename_i i hn
        obtain ⟨n, htree⟩ := ih (r.turn l text)
        refine ⟨n + 1, ?_⟩
        rw [Function.iterate_succ_apply]
        rw [Run.turn_of_next? hn] at htree ⊢
        exact htree

/-- The tree of a parse is an outcome, or what a live hypothesis has read so far. -/
theorem Run.Reached.exists_tree (limits : Limits) (fuel : Nat) (h : r.Reached l text old) :
    ∃ r' : Run, r'.Reached l text old ∧
      ((∃ f ∈ r'.finished, (r.loop l text limits fuel).1.root = f.root) ∨
        (r.loop l text limits fuel).1 = r'.partialTree l) := by
  obtain ⟨n, htree⟩ := Run.exists_turns l text limits fuel r
  exact ⟨_, h.turns n, htree⟩

/-- A tree that is complete is an outcome. -/
theorem Run.Reached.exists_finished (limits : Limits) (fuel : Nat) (h : r.Reached l text old)
    (hcomplete : (r.loop l text limits fuel).1.complete = true) :
    ∃ r' : Run, r'.Reached l text old ∧ ∃ f ∈ r'.finished,
      (r.loop l text limits fuel).1.root = f.root := by
  have hpartial (r : Run) : (r.partialTree l).complete = false := rfl
  induction fuel generalizing r with
  | zero =>
    rw [Run.loop, hpartial] at hcomplete
    contradiction
  | succ fuel ih =>
    rw [Run.loop] at hcomplete ⊢
    split at hcomplete
    · rw [hpartial] at hcomplete
      contradiction
    · rename_i hstop
      rw [if_neg hstop]
      split at hcomplete
      · rw [Run.bestTree] at hcomplete ⊢
        cases hbest : firstBest? Finished.isBetter r.finished with
        | none =>
          rw [hbest] at hcomplete
          simp only [hpartial] at hcomplete
          contradiction
        | some f => exact ⟨r, h, f, mem_of_firstBest? hbest, rfl⟩
      · rename_i i hn
        exact ih (h.step hn).condense hcomplete

/-- A tree that is not complete is an error. -/
theorem Run.complete_of_hasError (limits : Limits) (fuel : Nat)
    (h : (r.loop l text limits fuel).1.hasError = false) :
    (r.loop l text limits fuel).1.complete = true := by
  have hpartial (r : Run) : (r.partialTree l).hasError = true := by
    simp [Run.partialTree, Tree.hasError, Subtree.hasError, Subtree.isError, Subtree.error,
      Subtree.node, Subtree.symbol, Subtree.info]
  induction fuel generalizing r with
  | zero =>
    rw [Run.loop, hpartial] at h
    contradiction
  | succ fuel ih =>
    rw [Run.loop] at h ⊢
    split at h
    · rw [hpartial] at h
      contradiction
    · rename_i hstop
      rw [if_neg hstop]
      split at h
      · rw [Run.bestTree] at h ⊢
        cases hbest : firstBest? Finished.isBetter r.finished with
        | none =>
          rw [hbest] at h
          simp only [hpartial] at h
          contradiction
        | some f => rfl
      · exact ih h

/-! ## Actions that are applied -/

/-- A step applies an action to a hypothesis: to the one that is furthest behind, once its
token is found and the error that it is in, if any, has ended. -/
def Run.Applies (l : Language) (text : Bytes) (r : Run) (w : Version) (t : Subtree)
    (action : ParseAction) : Prop :=
  ∃ i v, r.next? = some i ∧ r.versions[i]? = some v ∧
    let (t', v', _) := r.fetch l text i v
    t = t' ∧ w = (if v'.pending.isEmpty then v' else v'.flush l) ∧ action ∈ actionsFor l w.state t

/-- A hypothesis that an action is applied to was found with its token. -/
theorem Run.Applies.fetched {action : ParseAction} (h : r.Applies l text w t action) :
    ∃ i v v', r.next? = some i ∧ r.versions[i]? = some v ∧ Fetched l text v t v' ∧
      (w = v' ∨ w = v'.flush l) ∧ action ∈ actionsFor l w.state t := by
  obtain ⟨i, v, hn, hv, happlies⟩ := h
  have hfetch := fetch_spec l text r hv
  generalize r.fetch l text i v = fetched at happlies hfetch
  obtain ⟨t', v', r'⟩ := fetched
  obtain ⟨rfl, hw, ha⟩ := happlies
  refine ⟨i, v, v', hn, hv, hfetch.1, ?_, ha⟩
  by_cases hp : v'.pending.isEmpty
  · exact .inl (by rw [hw, if_pos hp])
  · exact .inr (by rw [hw, if_neg hp])

/-- A hypothesis that an action is applied to skips nothing. -/
theorem Run.Applies.pending {action : ParseAction} (h : r.Applies l text w t action) :
    w.pending = [] := by
  obtain ⟨i, v, -, -, happlies⟩ := h
  generalize r.fetch l text i v = fetched at happlies
  obtain ⟨t', v', r'⟩ := fetched
  obtain ⟨-, rfl, -⟩ := happlies
  split
  · exact List.isEmpty_iff.mp ‹_›
  · obtain ⟨_, _, hflush⟩ := Version.flush_eq (l := l) v'
    rw [hflush]

/-- A step in which an action is applied takes all actions of the hypothesis, and no other
way. -/
theorem Run.Applies.step_eq {action : ParseAction} (h : r.Applies l text w t action) :
    ∃ i, ∃ r' : Run, r.next? = some i ∧ r'.versions[i]? = some w ∧
      r.step l text i = r'.act l i w t (actionsFor l w.state t) := by
  obtain ⟨i, v, hn, hv, happlies⟩ := h
  have hfetch := fetch_spec l text r hv
  have hi := (List.getElem?_eq_some_iff.mp hv).1
  refine ⟨i, ?_⟩
  unfold Run.step
  simp only [hv]
  generalize r.fetch l text i v = fetched at happlies hfetch
  obtain ⟨t', v', r'⟩ := fetched
  obtain ⟨rfl, hw, ha⟩ := happlies
  obtain ⟨-, hversions, -, -⟩ := hfetch
  have hi' : i < r'.versions.length := by rwa [hversions, List.length_set]
  by_cases hp : v'.pending.isEmpty
  · rw [if_pos hp] at hw
    subst hw
    refine ⟨r', hn, ?_, by rw [if_pos hp]⟩
    rw [hversions, List.getElem?_set_self hi]
  · rw [if_neg hp] at hw
    subst hw
    have hsome : (actionsFor l v'.state t).isEmpty = false := by
      rw [Version.state_flush] at ha
      exact List.isEmpty_eq_false_iff.mpr (List.ne_nil_of_mem ha)
    refine ⟨r'.set i (v'.flush l), hn, List.getElem?_set_self hi', ?_⟩
    rw [if_neg hp, hsome, if_neg Bool.false_ne_true, Version.state_flush]

/-! ## Stacks as paths -/

/-- A hypothesis is in the state at the end of a path of the automaton, and extras leave
the state as it is. -/
structure Version.OnPath (g : FlatGrammar) (v : Version) : Prop where
  path : Path g.states.Edge (pathOf v.stack)
  state : lastState (pathOf v.stack) = v.state
  extra : ∀ e rest, e :: rest <:+ v.stack → e.node.info.extra = true → e.state = stateOf rest

/-- Actions of a hypothesis on a token can be taken: there are the nodes that a reduction
takes, below the extras on top of the stack, and a state to go on in, and what is accepted
is the start node alone, from which a root is made. -/
structure Version.Fit (l : Language) (v : Version) (t : Subtree) : Prop where
  reduce : ∀ p, .reduce p ∈ actionsFor l v.state t → ∃ info nodes rest next,
    l.production? p = some info ∧
    takeNodes info.childCount (v.stack.dropWhile fun e => e.node.info.extra) []
      = some (nodes, rest) ∧
    (nodes.filter fun u => !u.info.extra).length = info.childCount ∧
    l.goto? (stateOf rest) info.lhs = some next ∧
    ∀ n fragile, ∃ w, Version.reduce l { v with reductions := n } info fragile t = .ok w
  accept : .accept ∈ actionsFor l v.state t → ∃ start,
    (v.nodes.filter fun u => !u.info.extra) = [start] ∧ start.symbol = l.table.startSymbol ∧
    (rootOf l v.nodes v.errorCost).isError = false

theorem Stacked.eq_stateOf_of_extra {stack rest : List Entry} {e : Entry} (h : Stacked g l stack)
    (he : e :: rest <:+ stack) (hx : e.node.info.extra = true) : e.state = stateOf rest := by
  obtain ⟨top, rfl⟩ := he
  cases h.of_append with
  | extra _ _ _ hs => exact hs
  | node _ hx' => simp [hx] at hx'

theorem Version.Sound.onPath (hg : l.Sound g) (h : v.Sound g l Spans text) : v.OnPath g where
  path := h.stacked.path.mono fun _ _ _ => hg.edge
  state := h.stacked.lastState
  extra _ _ he hx := h.stacked.eq_stateOf_of_extra he hx

/-- As many nodes that are no extras stand for some symbols as there are symbols. -/
theorem Fills.length_filter {xs : List Symbol} {ts : List Subtree} (h : Fills g l xs ts) :
    (ts.filter fun u => !u.info.extra).length = xs.length := by
  induction h with
  | nil => rfl
  | extra hx _ _ ih => simpa [hx] using ih
  | node hx _ _ ih => simpa [hx] using ih

/-- The nodes that are no extras are the symbols of the path. -/
theorem Fills.map_filter {xs : List Symbol} {ts : List Subtree} (h : Fills g l xs ts) :
    (ts.filter fun u => !u.info.extra).map Subtree.symbol = xs := by
  induction h with
  | nil => rfl
  | extra hx _ _ ih => simpa [hx] using ih
  | node hx _ _ ih => simpa [hx] using ih

/-- A node for a start symbol is a root and no error. -/
theorem isError_rootOf {nodes : List Subtree} {start : Subtree} (cost : Nat)
    (h : (nodes.filter fun u => !u.info.extra) = [start]) (hs : start.symbol = l.table.startSymbol)
    (hne : start.symbol ≠ errorSymbol) : (rootOf l nodes cost).isError = false := by
  unfold rootOf
  simp only [h]
  rw [if_pos hs]
  show (start.symbol == errorSymbol) = false
  simpa using hne

theorem Version.Sound.fit (hg : l.Sound g) (h : v.Sound g l Spans text) (t : Subtree) :
    v.Fit l t := by
  refine ⟨fun p ha => ?_, fun ha => ?_⟩
  · obtain ⟨info, hinfo, hok⟩ := h.reducible hg t p ha
    obtain ⟨prod, top, taken, rest, next, hprod, hsplit, hspan, -, htake, hfills, -, hnext⟩ :=
      h.stacked.exists_reduction hg (mem_actions_of_reduce ha)
    have hinfo' : l.production? p = some prod.info := by
      rw [hg.production?_eq, hprod]
      rfl
    obtain rfl := Option.some.inj (hinfo.symm.trans hinfo')
    have hbelow : v.stack.dropWhile (fun e => e.node.info.extra) = taken ++ rest := by
      rw [List.span_eq_takeWhile_dropWhile] at hspan
      exact congrArg Prod.snd hspan
    have hcount : prod.rhs.length = prod.info.childCount := by
      simp [ProductionInfo.childCount, Production.info, Production.rhs]
    exact ⟨prod.info, _, rest, next, hinfo, by rw [hbelow, htake],
      hfills.length_filter.trans hcount, hnext, hok⟩
  · have ha := mem_actions_of_accept ha
    rw [Version.state, ← h.stacked.lastState] at ha
    obtain ⟨hrule, q, hpath⟩ := hg.accept h.stacked.path ha
    have hmap := h.stacked.fills.map_filter
    rw [← nodes_eq, hpath, show spelled [(g.start, q)] = [g.start] from rfl] at hmap
    obtain ⟨start, hstart, hsymbol⟩ := List.map_eq_singleton_iff.mp hmap
    have hs : start.symbol = l.table.startSymbol := by rw [hsymbol, hg.startSymbol]
    have hne : start.symbol ≠ errorSymbol := by
      intro he
      rw [← hsymbol, he, isNonterminal_errorSymbol hg] at hrule
      contradiction
    exact ⟨start, hstart, hs, isError_rootOf _ hstart hs hne⟩

end Parse

/-! ## Stacks fit the automaton -/

/-- In every state of a parse the stacks are paths of the automaton from state zero, and
every action that is applied can be taken. -/
theorem Language.stacks_fit {handle : Nat} {grammar : Grammar} {scanner : Option Scanner}
    (h : Language.ofGrammar handle grammar scanner = .ok l) (text : Bytes)
    (hold : ∀ t, old = some t → l.Obtained t) (hr : r.Reached l text old) :
    ∃ g, FlatGrammar.ofGrammar grammar = .ok g ∧
      (∀ v ∈ r.versions, v.halted = false → v.OnPath g) ∧
      ∀ w t action, r.Applies l text w t action → w.OnPath g ∧ w.Fit l t := by
  obtain ⟨g, hflat, hg⟩ := Language.ofGrammar_sound h
  have hc := covers_anyText text
  have hsound := hr.sound hg hc fun t ht hl => (hold t ht).kept hg hl
  refine ⟨g, hflat, fun v hv hlive => (hsound.versions v hv hlive).onPath hg, ?_⟩
  intro w t action happlies
  obtain ⟨i, v, v', hn, hv, hf, hw, -⟩ := happlies.fetched
  obtain ⟨u, hu, hlive⟩ := next?_eq_some hn
  obtain rfl := Option.some.inj (hv.symm.trans hu)
  have hv' := (hf.sound hg hc (hsound.versions v (List.mem_of_getElem? hv) hlive)).1
  have hw' : w.Sound g l AnyText text := by
    rcases hw with rfl | rfl
    · exact hv'
    · exact hv'.flush hg
  exact ⟨hw'.onPath hg, hw'.fit hg t⟩

/-- Whether the next step accepts. -/
def Parse.Run.accepts (l : Language) (text : Bytes) (r : Run) : Bool :=
  match r.next? with
  | none => false
  | some i =>
    match r.versions[i]? with
    | none => false
    | some v =>
      let (t, w, _) := r.fetch l text i v
      w.pending.isEmpty && (actionsFor l w.state t).contains .accept

theorem Parse.Run.Applies.of_accepts (h : r.accepts l text = true) :
    ∃ w t, r.Applies l text w t .accept := by
  unfold Run.accepts at h
  split at h
  · contradiction
  · rename_i i hn
    split at h
    · contradiction
    · rename_i v hv
      generalize hf : r.fetch l text i v = fetched at h
      obtain ⟨t, w, r'⟩ := fetched
      simp only [Bool.and_eq_true, List.contains_iff_mem] at h
      refine ⟨w, t, i, v, hn, hv, ?_⟩
      rw [hf]
      exact ⟨rfl, (if_pos h.1).symm, h.2⟩

set_option maxRecDepth 100000 in
theorem Language.stacks_fit_hollow : ∃ (l : Language) (g : FlatGrammar) (r : Run)
    (w : Version) (t : Subtree), Language.ofGrammar 0 .hollow none = .ok l ∧
    FlatGrammar.ofGrammar .hollow = .ok g ∧ r.Reached l (Bytes.ofString "ad") none ∧
    r.Applies l (Bytes.ofString "ad") w t .accept ∧ w.OnPath g ∧ w.Fit l t := by
  have hrun : (Language.ofGrammar 0 .hollow none).toOption.any (fun l =>
      ((Run.turn l (Bytes.ofString "ad"))^[7] (l.startRun (Bytes.ofString "ad") none)).accepts l
        (Bytes.ofString "ad")) = true := by
    decide +kernel
  obtain ⟨l, hl, haccepts⟩ := exists_ok hrun
  have hr : Run.Reached l (Bytes.ofString "ad") none _ := Run.Reached.start.turns 7
  obtain ⟨w, t, happlies⟩ := Run.Applies.of_accepts haccepts
  obtain ⟨g, hg, -, hfit⟩ := Language.stacks_fit hl (Bytes.ofString "ad") (by simp) hr
  exact ⟨l, g, _, w, t, hl, hg, hr, happlies, hfit w t _ happlies⟩

end Glr
