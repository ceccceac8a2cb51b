import Glr.Proofs.Editing

/-!
# Glr.Proofs.Parse.Inherited

What the ways of building nodes pass on.  A parse makes leaves, puts nodes around others, changes
what is stored beside sizes and scanner states, and takes nodes from a previous tree:

```
leaf,  node over nodes,  other labels,  edit   ⟹   every tree
```

So a rule that all of these keep holds throughout every tree.  Nothing is asked of the language: its
table may send hypotheses anywhere, also where a production does not fit the stack.

* `Inherited` — the ways of building nodes keep a rule;
* `Run.Holds` — it holds of all nodes of a parse, which every step keeps;
* `Inherited.everywhere` — it holds of every tree, however that came about.
-/

namespace Glr.Parse

open Subtree Run

/-- A rule that every way of building nodes keeps. -/
structure Inherited (l : Language) (P : LocalRule) : Prop where
  leaf : ∀ i, P i []
  /-- Nothing but sizes and scanner states counts. -/
  relabelled : ∀ i j cs, j.size = i.size → j.lastExternal = i.lastExternal → P i cs → P j cs
  node : ∀ spec cs, (∀ c ∈ (node l spec cs).children, Everywhere P c.node) →
    P (node l spec cs).info (node l spec cs).children
  /-- Children fit into their node. -/
  fits : ∀ i cs, P i cs → width cs ≤ i.size.bytes
  edit : ∀ {t : Subtree} {start oldEnd newEnd : Length}, Within start oldEnd newEnd t.size →
    P t.info t.children → P (t.edit start oldEnd newEnd).info (t.edit start oldEnd newEnd).children

variable {l : Language} {P : LocalRule} {text : Bytes} {old : Option Tree} {t : Subtree}
  {ts : List Subtree} {v w : Version} {r : Run} {i : Nat}

/-! ## Nodes -/

namespace Inherited

theorem of_leaf (h : Inherited l P) (hc : t.children = []) : Everywhere P t := by
  obtain ⟨i, cs⟩ := t
  obtain rfl : cs = [] := hc
  exact everywhere_mk.mpr ⟨h.leaf i, by simp⟩

theorem withInfo (h : Inherited l P) (ht : Everywhere P t) {f : NodeInfo → NodeInfo}
    (hsize : (f t.info).size = t.info.size)
    (hlast : (f t.info).lastExternal = t.info.lastExternal) : Everywhere P (t.withInfo f) :=
  ht.withInfo fun hi => h.relabelled _ _ _ hsize hlast hi

theorem withSymbol (h : Inherited l P) (ht : Everywhere P t) (s : Symbol) :
    Everywhere P (t.withSymbol l s) := by
  unfold Subtree.withSymbol
  split
  · exact ht
  · exact h.withInfo ht rfl rfl

theorem everywhere_node (h : Inherited l P) (spec : Spec) {cs : List (Child Subtree)}
    (hcs : ∀ c ∈ cs, Everywhere P c.node) : Everywhere P (Subtree.node l spec cs) := by
  have hkept : ∀ c ∈ (Subtree.node l spec cs).children, Everywhere P c.node :=
    forall_children_node (fun _ _ _ h _ hc => h.child hc) hcs
  have hhere := h.node spec cs hkept
  generalize Subtree.node l spec cs = t at hkept hhere ⊢
  obtain ⟨i, children⟩ := t
  exact everywhere_mk.mpr ⟨hhere, hkept⟩

theorem everywhere_error (h : Inherited l P) (hts : ∀ t ∈ ts, Everywhere P t) (state : StateId)
    (cost : Nat) : Everywhere P (Subtree.error l state cost ts) := by
  refine h.everywhere_node _ fun c hc => ?_
  obtain ⟨t, ht, rfl⟩ := List.mem_map.mp hc
  exact hts t ht

theorem everywhere_dress (h : Inherited l P) (fields : List (Option FieldId))
    (labels : List (Option Symbol)) (hts : ∀ t ∈ ts, Everywhere P t) :
    ∀ c ∈ dress l fields labels ts, Everywhere P c.node := by
  induction ts generalizing fields labels with
  | nil => simp [dress]
  | cons t ts ih =>
    obtain ⟨ht, hts⟩ := List.forall_mem_cons.mp hts
    rw [dress]
    split
    · exact List.forall_mem_cons.mpr ⟨ht, ih _ _ hts⟩
    · refine List.forall_mem_cons.mpr ⟨?_, ih _ _ hts⟩
      simp only
      split
      · exact h.withSymbol ht _
      · exact ht

theorem everywhere_rootOf (h : Inherited l P) (hts : ∀ t ∈ ts, Everywhere P t) (cost : Nat) :
    Everywhere P (rootOf l ts cost) := by
  unfold rootOf
  split
  · split
    · refine h.everywhere_node _ fun c hc => ?_
      obtain ⟨t, ht, hc⟩ := List.mem_flatMap.mp hc
      split at hc
      · rw [List.mem_singleton.mp hc]
        exact hts t ht
      · exact (hts t ht).child hc
    · exact h.everywhere_error hts 0 cost
  · exact h.everywhere_error hts 0 cost

mutual
theorem everywhere_edit (h : Inherited l P) {start oldEnd newEnd : Length} : ∀ {t : Subtree},
    Everywhere P t → Within start oldEnd newEnd t.size → Everywhere P (t.edit start oldEnd newEnd)
  | .mk i cs, ht, hw => by
    have hhere := h.edit hw ht.here
    have hbelow := everywhereAll_editAll h ⟨start, oldEnd, some (newEnd - start)⟩ Length.zero
      hw.start_le (everywhereAll_iff.mpr (everywhere_mk.mp ht).2)
    rw [Subtree.edit] at hhere ⊢
    exact everywhere_mk.mpr ⟨hhere, everywhereAll_iff.mp hbelow⟩

theorem everywhereAll_editAll (h : Inherited l P) (s : Share) (childStart : Length)
    (hs : s.start.bytes ≤ s.oldEnd.bytes) : ∀ {cs : List (Child Subtree)},
      EverywhereAll P cs → EverywhereAll P (editAll s childStart cs)
  | [], _ => trivial
  | ⟨field, t⟩ :: rest, hcs => by
    rw [EverywhereAll] at hcs
    rw [editAll]
    simp only
    split
    · split
      · exact ⟨h.everywhere_edit hcs.1 (within_child s childStart t _ hs),
          h.everywhereAll_editAll { s with inserted := none } _ hs hcs.2⟩
      · exact ⟨h.everywhere_edit hcs.1 (within_child s childStart t Length.zero hs),
          h.everywhereAll_editAll s _ hs hcs.2⟩
    · exact ⟨hcs.1, h.everywhereAll_editAll s _ hs hcs.2⟩
end

/-- A tree in which the rule holds can be walked over. -/
theorem passedOn (h : Inherited l P) : PassedOn fun _ t => Everywhere P t where
  children start info cs ht := by
    have key (cs : List (Child Subtree)) (start : Nat) (hcs : ∀ c ∈ cs, Everywhere P c.node) :
        AllAt (fun _ t => Everywhere P t) start cs := by
      induction cs generalizing start with
      | nil => trivial
      | cons c cs ih =>
        obtain ⟨hc, hcs⟩ := List.forall_mem_cons.mp hcs
        exact ⟨hc, ih _ hcs⟩
    exact key cs start (everywhere_mk.mp ht).2
  width start info cs ht := h.fits info cs ht.here

end Inherited

/-! ## Hypotheses -/

/-- A rule holds of all nodes of a hypothesis, and of what it may still take from the previous
tree. -/
structure Version.Holds (P : LocalRule) (v : Version) : Prop where
  stack : ∀ e ∈ v.stack, Everywhere P e.node
  pending : ∀ t ∈ v.pending, Everywhere P t
  lookahead : ∀ t, v.lookahead = some t → Everywhere P t
  old : ∀ o, v.old = some o → ∃ size, o.Sound (fun _ t => Everywhere P t) size

namespace Version.Holds

theorem nodes (hv : v.Holds P) : ∀ t ∈ v.nodes ++ v.pending, Everywhere P t := by
  refine List.forall_mem_append.mpr ⟨fun t ht => ?_, hv.pending⟩
  obtain ⟨e, he, rfl⟩ := List.mem_map.mp (List.mem_reverse.mp ht)
  exact hv.stack e he

theorem push (hv : v.Holds P) (next : StateId) (ht : Everywhere P t) : (v.push next t).Holds P :=
  ⟨List.forall_mem_cons.mpr ⟨ht, hv.stack⟩, hv.pending, hv.lookahead, hv.old⟩

theorem pushAll (hv : v.Holds P) (state : StateId) (hts : ∀ t ∈ ts, Everywhere P t) :
    (v.pushAll state ts).Holds P := by
  induction ts generalizing v with
  | nil => exact hv
  | cons t ts ih =>
    obtain ⟨ht, hts⟩ := List.forall_mem_cons.mp hts
    exact ih (hv.push state ht) hts

theorem shift (h : Inherited l P) (hv : v.Holds P) (ht : Everywhere P t) (next : StateId)
    (extra : Bool) : (v.shift next t extra).Holds P := by
  have hnode : Everywhere P ((t.withParseState v.state).withExtra extra) :=
    h.withInfo (h.withInfo ht rfl rfl) rfl rfl
  have hpush := hv.push (if extra then v.state else next) hnode
  exact ⟨hpush.stack, hpush.pending, by rintro u ⟨⟩, hpush.old⟩

/-- Some of the stack is left, and some of its nodes are put around. -/
theorem reduce (h : Inherited l P) (hv : v.Holds P) (p : ProductionInfo) (fragile : Bool)
    (t : Subtree) : (∀ w, v.reduce l p fragile t = .ok w → w.Holds P) ∧
      ∀ w, v.reduce l p fragile t = .error w → w.Holds P := by
  have hcut {stack : List Entry} (hs : ∀ e ∈ stack, e ∈ v.stack) :
      Version.Holds P { v with stack } :=
    ⟨fun e he => hv.stack e (hs e he), hv.pending, hv.lookahead, hv.old⟩
  unfold Version.reduce
  rw [List.span_eq_takeWhile_dropWhile]
  simp only
  split
  · refine ⟨by simp, fun w hw => ?_⟩
    rw [← Except.error.inj hw]
    exact hcut (by simp)
  · rename_i nodes rest htake
    obtain ⟨taken, hstack, hnodes, -⟩ := takeNodes_eq_some htake
    have hbelow (e : Entry) (he : e ∈ taken ++ rest) : e ∈ v.stack :=
      (List.dropWhile_suffix _).subset (hstack ▸ he)
    have hrest (e : Entry) (he : e ∈ rest) : e ∈ v.stack := hbelow e (List.mem_append_right _ he)
    split
    · refine ⟨by simp, fun w hw => ?_⟩
      rw [← Except.error.inj hw]
      exact hcut hrest
    · rename_i next hnext
      refine ⟨fun w hw => ?_, by simp⟩
      rw [← Except.ok.inj hw]
      have htaken : ∀ u ∈ nodes, Everywhere P u := by
        intro u hu
        rw [hnodes, List.append_nil, List.mem_reverse] at hu
        obtain ⟨e, he, rfl⟩ := List.mem_map.mp hu
        exact hv.stack e (hbelow e (List.mem_append_left _ he))
      have htrailing : ∀ u ∈ ((v.stack.takeWhile fun e => e.node.info.extra).map
          Entry.node).reverse, Everywhere P u := by
        intro u hu
        obtain ⟨e, he, rfl⟩ := List.mem_map.mp (List.mem_reverse.mp hu)
        exact hv.stack e ((List.takeWhile_prefix _).subset he)
      have hleft : Version.Holds P { v with
          stack := rest, dynamicPrecedence := v.dynamicPrecedence + p.dynamicPrecedence } :=
        ⟨(hcut hrest).stack, hv.pending, hv.lookahead, hv.old⟩
      have hnode (spec : Spec) : Everywhere P
          (Subtree.node l spec (dress l p.fields p.labels nodes)) :=
        h.everywhere_node spec (h.everywhere_dress p.fields p.labels htaken)
      exact (hleft.push next (hnode _)).pushAll next htrailing

theorem recoveries (h : Inherited l P) (hv : v.Holds P) (ht : Everywhere P t)
    (hw : w ∈ v.recoveries l t) : w.Holds P := by
  cases Recovers.of_mem hw with
  | @insert s next =>
    have hpush := hv.push next (h.of_leaf (t := .missing l s v.state missingCost) rfl)
    exact ⟨hpush.stack, hpush.pending, hpush.lookahead, hpush.old⟩
  | @reset taken stack cost _ hstack =>
    have hlost : ∀ u ∈ (taken.map Entry.node).reverse ++ v.pending, Everywhere P u := by
      refine List.forall_mem_append.mpr ⟨fun u hu => ?_, hv.pending⟩
      obtain ⟨e, he, rfl⟩ := List.mem_map.mp (List.mem_reverse.mp hu)
      exact hv.stack e (hstack ▸ List.mem_append_left _ he)
    have hleft : Version.Holds P { v with stack } :=
      ⟨fun e he => hv.stack e (hstack ▸ List.mem_append_right _ he), hv.pending, hv.lookahead,
        hv.old⟩
    have hpush := hleft.push (stateOf stack)
      (h.withInfo (f := fun i => { i with extra := true })
        (h.everywhere_error hlost (stateOf stack) (cost + v.pendingCost)) rfl rfl)
    exact ⟨hpush.stack, by simp [reset], hpush.lookahead, hpush.old⟩
  | skip =>
    exact ⟨hv.stack, List.forall_mem_append.mpr ⟨hv.pending, List.forall_mem_singleton.mpr ht⟩,
      by rintro u ⟨⟩, hv.old⟩

theorem skipExtra (h : Inherited l P) (hv : v.Holds P) (ht : Everywhere P t) :
    (v.skipExtra t).Holds P := by
  have hextra : Everywhere P (t.withExtra true) := h.withInfo ht rfl rfl
  exact ⟨hv.stack, List.forall_mem_append.mpr ⟨hv.pending, List.forall_mem_singleton.mpr hextra⟩,
    by rintro u ⟨⟩, hv.old⟩

theorem flush (h : Inherited l P) (hv : v.Holds P) : (v.flush l).Holds P := by
  have hparts := hv.pending
  rw [← splitAfterLast_append (fun t : Subtree => !t.info.extra) v.pending,
    List.forall_mem_append] at hparts
  unfold Version.flush
  generalize splitAfterLast (fun t : Subtree => !t.info.extra) v.pending = parts at hparts
  obtain ⟨skipped, trailing⟩ := parts
  have herror : Everywhere P ((Subtree.error l v.state v.pendingCost skipped).withExtra true) :=
    h.withInfo (h.everywhere_error hparts.1 _ _) rfl rfl
  have hnew : ∀ u ∈ (if skipped.isEmpty then []
      else [(Subtree.error l v.state v.pendingCost skipped).withExtra true]) ++ trailing,
      Everywhere P u := by
    refine List.forall_mem_append.mpr ⟨?_, hparts.2⟩
    split
    · simp
    · exact List.forall_mem_singleton.mpr herror
  have hpush := pushAll (v := { v with pending := [], pendingCost := 0 })
    ⟨hv.stack, by simp, hv.lookahead, hv.old⟩ v.state hnew
  exact ⟨hpush.stack, hpush.pending, hpush.lookahead, hpush.old⟩

/-- However a hypothesis comes to its token. -/
theorem fetched (h : Inherited l P) (hv : v.Holds P) (hf : Fetched l text v t w) :
    w.Holds P ∧ Everywhere P t := by
  have hreuse {o o' : OldTree} {found : Option Subtree} (ho : v.old = some o)
      (hr : o.reuse? l v.reuseSite = (found, o')) :
      (∃ size, o'.Sound (fun _ t => Everywhere P t) size) ∧
        ∀ t, found = some t → Everywhere P t := by
    obtain ⟨size, hsound⟩ := hv.old o ho
    obtain ⟨hsound', hfound⟩ := OldTree.reuse?_spec l v.reuseSite hsound
    rw [hr] at hsound' hfound
    exact ⟨⟨size, hsound'⟩, fun t ht => (hfound t ht).built⟩
  cases hf with
  | kept hl => exact ⟨hv, hv.lookahead t hl⟩
  | reused _ ho _ hr =>
    obtain ⟨hold, hfound⟩ := hreuse ho hr
    have ht := hfound t rfl
    refine ⟨⟨hv.stack, hv.pending, ?_, ?_⟩, ht⟩
    · rintro _ ⟨⟩
      exact ht
    · rintro _ ⟨⟩
      exact hold
  | lexed _ hs =>
    have ht : Everywhere P (Parse.token l text (v.site l)).1 := h.of_leaf (children_token l text _)
    refine ⟨⟨hv.stack, hv.pending, ?_, ?_⟩, ht⟩
    · rintro _ ⟨⟩
      exact ht
    · rintro o ho
      cases hs with
      | not => exact hv.old o ho
      | inVain hold hr =>
        obtain rfl := Option.some.inj ho
        exact (hreuse hold hr).1

end Version.Holds

/-! ## Steps -/

/-- A rule holds of all nodes of a parse. -/
structure Run.Holds (P : LocalRule) (r : Run) : Prop where
  versions : ∀ v ∈ r.versions, v.Holds P
  finished : ∀ f ∈ r.finished, Everywhere P f.root

namespace Run.Holds

theorem set (hr : r.Holds P) (i : Nat) (hv : v.Holds P) : (r.set i v).Holds P := by
  refine ⟨fun u hu => ?_, hr.finished⟩
  rcases List.mem_or_eq_of_mem_set hu with hu | rfl
  · exact hr.versions u hu
  · exact hv

theorem finish (hr : r.Holds P) {f : Finished} (hf : Everywhere P f.root) : (r.finish f).Holds P :=
  ⟨hr.versions, List.forall_mem_append.mpr ⟨hr.finished, List.forall_mem_singleton.mpr hf⟩⟩

theorem add (hr : r.Holds P) {vs : List Version} (hvs : ∀ v ∈ vs, v.Holds P) :
    Run.Holds P { r with versions := r.versions ++ vs } :=
  ⟨List.forall_mem_append.mpr ⟨hr.versions, hvs⟩, hr.finished⟩

theorem say (hr : r.Holds P) (e : Event) : (r.say e).Holds P := ⟨hr.versions, hr.finished⟩

theorem giveUp (h : Inherited l P) (hr : r.Holds P) (hv : v.Holds P) (i : Nat) :
    (r.giveUp l i v).Holds P := by
  have hhalted : Version.Holds P { v with halted := true, pending := [] } :=
    ⟨hv.stack, by simp, hv.lookahead, hv.old⟩
  exact ((hr.set i hhalted).say _).finish (h.everywhere_error hv.nodes 0 recoveryCost)

theorem recover (h : Inherited l P) (hr : r.Holds P) (hv : v.Holds P) (ht : Everywhere P t)
    (i : Nat) : (r.recover l i v t).Holds P := by
  have hways : ∀ w ∈ v.recoveries l t, w.Holds P := fun w hw => hv.recoveries h ht hw
  unfold Run.recover
  simp only
  split
  · exact giveUp h (hr.say _) hv i
  · rename_i first rest hfirst
    rw [hfirst, List.forall_mem_cons] at hways
    exact ((hr.say _).set i hways.1).add hways.2

theorem accept (h : Inherited l P) (hr : r.Holds P) (hv : v.Holds P) (i : Nat) :
    (r.accept l i v).Holds P := by
  have hhalted : Version.Holds P { v with halted := true } :=
    ⟨hv.stack, hv.pending, hv.lookahead, hv.old⟩
  exact (hr.set i hhalted).finish
    (h.everywhere_rootOf (List.forall_mem_append.mp hv.nodes).1 v.errorCost)

theorem apply (h : Inherited l P) (hr : r.Holds P) (ht : Everywhere P t) (i : Nat)
    (action : ParseAction) : (r.apply l i action t).Holds P := by
  unfold Run.apply
  split
  · exact hr
  · rename_i v hi
    have hv := hr.versions v (List.mem_of_getElem? hi)
    have hcounted : Version.Holds P { v with reductions := v.reductions + 1 } :=
      ⟨hv.stack, hv.pending, hv.lookahead, hv.old⟩
    cases action with
    | shift next => exact (hr.say _).set i (hv.shift h ht next false)
    | accept => exact accept h (hr.say _) hv i
    | reduce p =>
      simp only
      split
      · exact giveUp h ((hr.say _).say _) hcounted i
      · split
        · exact recover h (hr.say _) hcounted ht i
        · rename_i info _
          obtain ⟨hok, herror⟩ := hcounted.reduce h info (r.versions.length > 1) t
          split
          · rename_i w hw
            exact (hr.say _).set i (hok w hw)
          · rename_i w hw
            exact recover h (hr.say _) (herror w hw) ht i

theorem fork (h : Inherited l P) (hr : r.Holds P) (hv : v.Holds P) (ht : Everywhere P t)
    (action : ParseAction) : (r.fork l v t action).Holds P := by
  have hadd := hr.add (List.forall_mem_singleton.mpr hv)
  unfold Run.fork
  refine apply h ?_ ht _ action
  exact ⟨hadd.versions, hadd.finished⟩

theorem act (h : Inherited l P) (hr : r.Holds P) (hv : v.Holds P) (ht : Everywhere P t) (i : Nat)
    (actions : List ParseAction) : (r.act l i v t actions).Holds P := by
  have hforks (rest : List ParseAction) (r : Run) (hr : r.Holds P) :
      (rest.foldl (fun r action => r.fork l v t action) r).Holds P := by
    induction rest generalizing r with
    | nil => exact hr
    | cons action rest ih => exact ih _ (fork h hr hv ht action)
  unfold Run.act
  split
  · split
    · exact hr.set i ⟨hv.stack, hv.pending, by rintro u ⟨⟩, by rintro o ⟨⟩⟩
    · split
      · exact (hr.say _).set i (hv.shift h ht v.state true)
      · exact recover h hr hv ht i
  · rename_i first rest
    exact apply h (hforks rest r hr) ht i first

theorem step (h : Inherited l P) (hr : r.Holds P) (i : Nat) : (r.step l text i).Holds P := by
  unfold Run.step
  split
  · exact hr
  · rename_i v hi
    have hf := fetch_spec l text r hi
    generalize r.fetch l text i v = fetched at hf
    obtain ⟨t, w, r'⟩ := fetched
    obtain ⟨hf, hversions, hfinished, -⟩ := hf
    obtain ⟨hw, ht⟩ := (hr.versions v (List.mem_of_getElem? hi)).fetched h hf
    have hset := hr.set i hw
    have hr' : r'.Holds P :=
      ⟨by rw [hversions]; exact hset.versions, by rw [hfinished]; exact hset.finished⟩
    simp only
    split
    · exact act h hr' hw ht i _
    · split
      · split
        · exact hr'.set i (hw.skipExtra h ht)
        · exact recover h hr' hw ht i
      · exact act h (hr'.set i (hw.flush h)) (hw.flush h) ht i _

theorem condense (hr : r.Holds P) :
    Run.Holds P { r with versions := condense r.versions r.finished } :=
  ⟨fun v hv => hr.versions v (mem_of_mem_condense hv).1, hr.finished⟩

theorem partialTree (h : Inherited l P) (hr : r.Holds P) : Everywhere P (r.partialTree l).root := by
  refine h.everywhere_error ?_ 0 0
  split
  · rename_i v hv
    exact (hr.versions v (List.mem_filter.mp (mem_of_firstBest? hv)).1).nodes
  · simp

theorem loop (h : Inherited l P) (hr : r.Holds P) (limits : Limits) (fuel : Nat) :
    Everywhere P (r.loop l text limits fuel).1.root := by
  induction fuel generalizing r with
  | zero => exact partialTree h hr
  | succ fuel ih =>
    rw [Run.loop]
    split
    · exact partialTree h hr
    · split
      · unfold Run.bestTree
        split
        · rename_i f hf
          exact hr.finished f (mem_of_firstBest? hf)
        · exact partialTree h hr
      · rename_i i _
        have hcounted : Run.Holds P
            { r with stats := { r.stats with operations := r.stats.operations + 1 } } :=
          ⟨hr.versions, hr.finished⟩
        exact ih (step h hcounted i).condense

end Run.Holds

/-! ## Trees -/

theorem Run.Holds.start (h : Inherited l P)
    (hold : ∀ t, old = some t → t.language.sameAs l = true → Everywhere P t.root) :
    (l.startRun text old).Holds P := by
  refine ⟨?_, by rw [Language.finished_startRun]; simp⟩
  rw [Language.versions_startRun]
  refine List.forall_mem_singleton.mpr ⟨by simp, by simp, by rintro u ⟨⟩, fun o ho => ?_⟩
  simp only [Option.map_eq_some_iff, Option.filter_eq_some_iff] at ho
  obtain ⟨root, ⟨t, ⟨ht, husable⟩, rfl⟩, rfl⟩ := ho
  exact ⟨_, OldTree.ofRoot_sound (h.passedOn.kept (hold t ht (Tree.sameAs_of_isUsable husable)))⟩

/-- A rule that all ways of building nodes keep holds throughout every tree of the language. -/
theorem Inherited.everywhere (h : Inherited l P) {t : Tree} (ht : l.Obtained t)
    (hl : t.language.sameAs l = true) : Everywhere P t.root := by
  induction ht with
  | foreign hforeign =>
    rw [hforeign] at hl
    contradiction
  | @parsed limits text old _ ih =>
    rw [Language.tree_parse]
    exact Run.Holds.loop h (.start h ih) limits (stepBound text)
  | edited _ he ih =>
    rw [Tree.language_of_edit he] at hl
    obtain ⟨-, hwithin, rfl⟩ := Tree.edit_eq_ok he
    exact h.everywhere_edit (ih hl) hwithin

end Glr.Parse
