import Glr.Proofs.Reached
import Glr.Proofs.Tree.Fresh

/-!
# Glr.Proofs.Parse.Fresh

A parse builds fresh trees, whatever its limits, its previous tree and its outcome are.  At
any time the nodes of a hypothesis are fresh, and every node on its stack ends where those
below it and its own text end:

```
stop of a node  =  stop of the node below  +  its size
```

So a node that is reduced looked at the token that comes next, which lies behind it.
-/

namespace Glr.Parse

open Subtree Run
open Version (stateOf stopOf)

variable {g : FlatGrammar} {l : Language} {Spans : Nat → Length → Prop} {text : Bytes}
  {old : Option Tree} {size : Nat} {v w : Version} {t : Subtree} {ts : List Subtree}
  {r : Run}

/-! ## Where the nodes of a stack end -/

/-- Every node of a stack ends where the nodes below it and its own text end. -/
inductive Measured : List Entry → Prop where
  | nil : Measured []
  | cons {e : Entry} {stack : List Entry} (h : Measured stack)
      (hs : e.stop = stopOf stack + e.node.size) : Measured (e :: stack)

theorem Measured.stopOf_eq {stack : List Entry} (h : Measured stack) :
    stopOf stack = span (stack.map Entry.node).reverse := by
  induction h with
  | nil => rfl
  | @cons e stack _ hs ih =>
    rw [List.map_cons, List.reverse_cons, span_append, span_singleton, ← ih]
    exact hs

theorem Measured.of_append {top stack : List Entry} (h : Measured (top ++ stack)) :
    Measured stack := by
  induction top with
  | nil => exact h
  | cons e top ih =>
    cases h with
    | cons h _ => exact ih h

theorem totalBytes_eq (ts : List Subtree) : totalBytes ts = (Subtree.span ts).bytes := by
  have key (ts : List Subtree) (n : Nat) :
      ts.foldl (fun n t => n + t.size.bytes) n = n + (Subtree.span ts).bytes := by
    induction ts generalizing n with
    | nil => rfl
    | cons t ts ih => rw [List.foldl_cons, ih, span_cons, Length.bytes_add, Nat.add_assoc]
  rw [totalBytes, key, Nat.zero_add]

/-! ## Hypotheses -/

/-- What a hypothesis has built, and what it takes over, is fresh. -/
structure Version.Growing (g : FlatGrammar) (l : Language) (size : Nat) (v : Version) : Prop where
  stack : ∀ e ∈ v.stack, Grown g l e.node
  measured : Measured v.stack
  pending : ∀ t ∈ v.pending, Grown g l t
  lookahead : ∀ t, v.lookahead = some t → Grown g l t ∧ 0 < t.info.lookahead
  old : ∀ o, v.old = some o → o.Sound (fun _ t => Everywhere (Fresh g l) t) size

theorem Version.Growing.nodes (h : v.Growing g l size) :
    ∀ t ∈ v.nodes ++ v.pending, Grown g l t := by
  intro t ht
  rcases List.mem_append.mp ht with ht | ht
  · obtain ⟨e, he, rfl⟩ := List.mem_map.mp (List.mem_reverse.mp ht)
    exact h.stack e he
  · exact h.pending t ht

theorem Version.Growing.push (h : v.Growing g l size) (next : StateId) (ht : Grown g l t) :
    (v.push next t).Growing g l size := by
  refine ⟨fun e he => ?_, .cons h.measured rfl, h.pending, h.lookahead, h.old⟩
  rcases List.mem_cons.mp he with rfl | he
  · exact ht
  · exact h.stack e he

theorem Version.Growing.pushAll (h : v.Growing g l size) (state : StateId)
    (hts : ∀ t ∈ ts, Grown g l t) : (v.pushAll state ts).Growing g l size := by
  induction ts generalizing v with
  | nil => exact h
  | cons t ts ih =>
    exact ih (h.push state (hts t (by simp))) fun u hu => hts u (by simp [hu])

/-- A token is fresh, and what was reused is as it was built. -/
theorem Fetched.growing (hg : l.Sound g) (h : v.Growing g l text.size) (hf : Fetched l text v t w) :
    w.Growing g l text.size := by
  cases hf with
  | kept _ => exact h
  | @reused _ o o' _ ho _ hr =>
    have hspec := OldTree.reuse?_spec l v.reuseSite (h.old o ho)
    rw [hr] at hspec
    obtain ⟨hwalk, hreused⟩ := hspec
    refine ⟨h.stack, h.measured, h.pending, ?_, ?_⟩
    · rintro u hu
      obtain rfl := Option.some.inj hu
      have hu := hreused _ rfl
      have hpos : 0 < t.info.lookahead := by
        refine Nat.pos_of_ne_zero fun hz => ?_
        have hsize := hu.built.here.empty hz
        have hpos := hu.pos
        rw [Subtree.size, hsize] at hpos
        exact Nat.lt_irrefl 0 hpos
      exact ⟨⟨hu.built, fun hz => absurd hz (Nat.ne_of_gt hpos)⟩, hpos⟩
    · rintro o hu
      obtain rfl := Option.some.inj hu
      exact hwalk
  | @lexed old _ ho =>
    have htoken := tokenAt_token text (v.site l) hg
    refine ⟨h.stack, h.measured, h.pending, ?_, ?_⟩
    · rintro u hu
      obtain rfl := Option.some.inj hu
      refine ⟨?_, htoken.lookahead⟩
      generalize (token l text (v.site l)).1 = t at htoken
      obtain ⟨i, cs⟩ := t
      obtain rfl : cs = [] := htoken.leaf
      exact grown_leaf htoken.changed htoken.plain.visible htoken.lookahead htoken.counts
    · rintro o hu
      cases ho with
      | not => exact h.old o hu
      | inVain ho' hr =>
        obtain rfl := Option.some.inj hu
        have hspec := OldTree.reuse?_spec l v.reuseSite (h.old _ ho')
        rw [hr] at hspec
        exact hspec.1

/-! ## Taking tokens -/

theorem grown_shifted (h : Grown g l t) (q : StateId) (x : Bool) :
    Grown g l ((t.withParseState q).withExtra x) := by
  have hstate : Grown g l (t.withParseState q) := h.withInfo fun _ => ⟨rfl, rfl, rfl, rfl, rfl, rfl, rfl⟩
  exact hstate.withInfo fun _ => ⟨rfl, rfl, rfl, rfl, rfl, rfl, rfl⟩

theorem Version.Growing.shift (h : v.Growing g l size) (hl : v.lookahead = some t) (next : StateId)
    (x : Bool) : (v.shift next t x).Growing g l size := by
  have hpush := h.push (if x then v.state else next) (grown_shifted (h.lookahead t hl).1 v.state x)
  exact ⟨hpush.stack, hpush.measured, hpush.pending, by rintro u ⟨⟩, hpush.old⟩

/-! ## Reductions -/

/-- An error is taken by no step of a production. -/
theorem ne_errorSymbol_of_step (hg : l.Sound g) {p : Production} (hp : p ∈ g.productions)
    {st : Step} (hst : st ∈ p.steps) : st.symbol ≠ errorSymbol := by
  have hlt : st.symbol < g.symbols.size := by
    rcases ((hg.grammar.productions p hp).steps st hst).symbol with ⟨info, hi, -⟩ | ⟨info, hi, -⟩
    · exact (Array.getElem?_eq_some_iff.mp hi).1
    · exact (Array.getElem?_eq_some_iff.mp hi).1
  exact Nat.ne_of_lt (Nat.lt_of_lt_of_le hlt hg.grammar.size_le)

/-- A node that is shown under another symbol may have been hidden before. -/
theorem grown_shownBy (hg : l.Sound g) {p : Production} (hp : p ∈ g.productions) {st : Step}
    (hst : st ∈ p.steps) (hsymbol : st.symbol = t.symbol) (h : Grown g l t) :
    Grown g l (shownBy l st t) := by
  unfold shownBy
  split
  · rename_i s hlabel
    have hvisible := hg.isVisible_of_isShown
      (((hg.grammar.productions p hp).steps st hst).label s hlabel)
    unfold withSymbol
    split
    · exact h
    · refine ⟨h.fresh.withInfo fun hi => ⟨hi.changed, rfl, hi.size, hi.reach, hi.empty, hi.error,
        fun _ => .inl hvisible, fun _ => ?_, ⟨hi.counted.visible, hi.counted.named⟩⟩, fun hz => ?_⟩
      · by_cases hc : t.children = []
        · exact .inr (by simp [hc])
        by_cases hv : t.info.visible = true
        · exact (hi.shown hv).imp_left fun hu => .again hp hst hlabel (by rw [hsymbol]; exact hu)
        · have hrule := (hi.inner hc).resolve_left hv
          have hhidden : l.isVisible t.symbol = false := by
            rw [← Bool.not_eq_true]
            exact fun hn => hv (hi.visible.trans hn)
          exact .inl (.hidden hp hst hlabel (by rw [hsymbol]; exact hrule) (by rw [hsymbol, hhidden]))
      · have herror : t.symbol = errorSymbol := by simpa [isError] using h.error hz
        exact absurd (hsymbol.trans herror) (ne_errorSymbol_of_step hg hp hst)
  · exact h

/-- The children of a production are as fresh as the nodes that they are made of. -/
theorem grown_dress (hg : l.Sound g) {steps : List Step} (fields : List (Option FieldId))
    (hsteps : ∀ st ∈ steps, ∃ p ∈ g.productions, st ∈ p.steps)
    (h : Fills g l (steps.map Step.symbol) ts) (hts : ∀ t ∈ ts, Grown g l t) :
    ∀ c ∈ dress l fields (steps.map Step.label) ts, Grown g l c.node := by
  generalize hxs : steps.map Step.symbol = xs at h
  induction h generalizing steps fields with
  | nil => simp [dress]
  | @extra xs t ts hx _ _ ih =>
    rw [dress, if_pos hx]
    intro c hc
    rcases List.mem_cons.mp hc with rfl | hc
    · exact hts t (by simp)
    · exact ih fields hsteps (fun u hu => hts u (by simp [hu])) hxs c hc
  | @node xs t ts hx _ _ ih =>
    cases steps with
    | nil => contradiction
    | cons st rest =>
      obtain ⟨hsymbol, hrest⟩ := List.cons.inj hxs
      obtain ⟨p, hp, hst⟩ := hsteps st (by simp)
      rw [dress_cons_node hx]
      intro c hc
      rcases List.mem_cons.mp hc with rfl | hc
      · exact grown_shownBy hg hp hst hsymbol (hts t (by simp))
      · exact ih fields.tail (fun st' hst' => hsteps st' (by simp [hst']))
          (fun u hu => hts u (by simp [hu])) hrest c hc

/-- A node that is reduced looked at the next token. -/
theorem Version.Growing.reduce (hg : l.Sound g) (hs : v.Sound g l Spans text)
    (h : v.Growing g l size) (ht : 0 < t.info.lookahead) {p : ProductionId} {a : Symbol}
    (ha : .reduce p ∈ l.actions v.state a) {n : Nat} {info : ProductionInfo} {fragile : Bool}
    (hinfo : l.production? p = some info)
    (hw : Version.reduce l { v with reductions := n } info fragile t = .ok w) :
    w.Growing g l size := by
  obtain ⟨prod, top, taken, rest, next, spec, hprod, hsplit, -, hfills, hspec, -, -, hlookahead,
    rfl⟩ := hs.stacked.exists_reduced hg ha hinfo hw
  have hstack : ∀ e ∈ top ++ (taken ++ rest), Grown g l e.node := by
    rw [← hsplit]
    exact h.stack
  have hmeasured : Measured rest := by
    have := h.measured
    rw [hsplit] at this
    exact this.of_append.of_append
  have hmem := Array.mem_of_getElem? hprod
  have hrule : l.isNonterminal prod.lhs = true :=
    hg.isNonterminal_of_isRule (hg.grammar.productions prod hmem).lhs
  -- the token lies behind the nodes that are taken
  have hpos : 0 < spec.lookahead := by
    have hnodes := congrArg Length.bytes hs.span
    rw [nodes_eq, hsplit] at hnodes
    simp only [List.map_append, List.reverse_append, span_append, Length.bytes_add] at hnodes
    rw [hlookahead, hmeasured.stopOf_eq, totalBytes_eq]
    omega
  have hnode : Grown g l (Subtree.node l spec (dress l prod.info.fields prod.info.labels
      (taken.map Entry.node).reverse)) := by
    refine grown_node (grown_dress hg _ (fun st hst => ⟨prod, hmem, hst⟩) hfills fun u hu => ?_)
      (.inr (by rw [hspec]; exact hrule)) (.inl hpos)
    obtain ⟨e, he, rfl⟩ := List.mem_map.mp (List.mem_reverse.mp hu)
    exact hstack e (by simp [he])
  have hbelow : ({ v with
      reductions := n
      stack := rest
      dynamicPrecedence := v.dynamicPrecedence + prod.info.dynamicPrecedence } : Version).Growing g l size :=
    ⟨fun e he => hstack e (by simp [he]), hmeasured, h.pending, h.lookahead, h.old⟩
  refine (hbelow.push next hnode).pushAll next fun u hu => ?_
  obtain ⟨e, he, rfl⟩ := List.mem_map.mp (List.mem_reverse.mp hu)
  exact hstack e (by simp [he])

/-! ## Errors -/

theorem Version.Growing.inserted (h : v.Growing g l size) (s : Symbol) (next : StateId) :
    (v.inserted l s next).Growing g l size := by
  have hpush := h.push next (t := .missing l s v.state missingCost)
    (grown_leaf rfl rfl Nat.one_pos ⟨rfl, rfl⟩)
  exact ⟨hpush.stack, hpush.measured, hpush.pending, hpush.lookahead, hpush.old⟩

theorem Version.Growing.reset (h : v.Growing g l size) {taken stack : List Entry}
    (hstack : v.stack = taken ++ stack) (cost : Nat) :
    (v.reset l (taken.map Entry.node).reverse stack cost).Growing g l size := by
  have hmeasured := h.measured
  rw [hstack] at hmeasured
  have hbelow : ({ v with stack } : Version).Growing g l size :=
    ⟨fun e he => h.stack e (by rw [hstack]; simp [he]), hmeasured.of_append, h.pending, h.lookahead,
      h.old⟩
  have hlost : ∀ u ∈ (taken.map Entry.node).reverse ++ v.pending, Grown g l u := by
    intro u hu
    rcases List.mem_append.mp hu with hu | hu
    · obtain ⟨e, he, rfl⟩ := List.mem_map.mp (List.mem_reverse.mp hu)
      exact h.stack e (by rw [hstack]; simp [he])
    · exact h.pending u hu
  have herror := (grown_error hlost (stateOf stack) (cost + v.pendingCost)).withInfo
    (f := fun i => { i with extra := true }) fun _ => ⟨rfl, rfl, rfl, rfl, rfl, rfl, rfl⟩
  have hpush := hbelow.push (stateOf stack) herror
  exact ⟨hpush.stack, hpush.measured, by rintro u ⟨⟩, h.lookahead, h.old⟩

/-- A token joins the skipped ones. -/
theorem grown_skipped (h : v.Growing g l size) {u : Subtree} (hu : Grown g l u) :
    ∀ x ∈ v.pending ++ [u], Grown g l x := by
  intro x hx
  rcases List.mem_append.mp hx with hx | hx
  · exact h.pending x hx
  · rwa [List.mem_singleton.mp hx]

theorem Version.Growing.skip (h : v.Growing g l size) (hl : v.lookahead = some t) :
    (v.skip t).Growing g l size :=
  ⟨h.stack, h.measured, grown_skipped h (h.lookahead t hl).1, by rintro u ⟨⟩, h.old⟩

theorem Version.Growing.skipExtra (h : v.Growing g l size) (hl : v.lookahead = some t) :
    (v.skipExtra t).Growing g l size :=
  ⟨h.stack, h.measured,
    grown_skipped h ((h.lookahead t hl).1.withInfo fun _ => ⟨rfl, rfl, rfl, rfl, rfl, rfl, rfl⟩),
    by rintro u ⟨⟩, h.old⟩

theorem Version.Growing.recoveries (h : v.Growing g l size) (hl : v.lookahead = some t)
    (hw : w ∈ v.recoveries l t) : w.Growing g l size := by
  cases Recovers.of_mem hw with
  | insert => exact h.inserted _ _
  | reset _ hstack => exact h.reset hstack _
  | skip => exact h.skip hl

theorem Version.Growing.flush (h : v.Growing g l size) : (v.flush l).Growing g l size := by
  have hparts := splitAfterLast_append (fun t : Subtree => !t.info.extra) v.pending
  have hpending := h.pending
  rw [← hparts] at hpending
  unfold Version.flush
  simp only
  generalize splitAfterLast (fun t : Subtree => !t.info.extra) v.pending = parts at hpending
  obtain ⟨skipped, trailing⟩ := parts
  have hcleared : ({ v with pending := [], pendingCost := 0 } : Version).Growing g l size :=
    ⟨h.stack, h.measured, by simp, h.lookahead, h.old⟩
  have hskipped : ∀ u ∈ skipped, Grown g l u := fun u hu => hpending u (by simp [hu])
  have herror := (grown_error hskipped v.state v.pendingCost).withInfo
    (f := fun i => { i with extra := true }) fun _ => ⟨rfl, rfl, rfl, rfl, rfl, rfl, rfl⟩
  have hts : ∀ u ∈ (if skipped.isEmpty then [] else
      [(Subtree.error l v.state v.pendingCost skipped).withExtra true]) ++ trailing,
      Grown g l u := by
    intro u hu
    rcases List.mem_append.mp hu with hu | hu
    · split at hu
      · contradiction
      · rw [List.mem_singleton.mp hu]
        exact herror
    · exact hpending u (by simp [hu])
  have hpush := hcleared.pushAll v.state hts
  exact ⟨hpush.stack, hpush.measured, hpush.pending, hpush.lookahead, hpush.old⟩

/-! ## Steps -/

theorem Acts.growing (hg : l.Sound g) (hs : v.Sound g l Spans text) (h : v.Growing g l size)
    (hl : v.lookahead = some t) (ha : Acts l v t w) : w.Growing g l size := by
  cases ha with
  | shift => exact h.shift hl _ _
  | reduce ha hinfo _ hw =>
    exact h.reduce hg hs (h.lookahead t hl).2 (mem_actions_of_reduce ha) hinfo hw
  | shiftExtra => exact h.shift hl _ _
  | drop => exact ⟨h.stack, h.measured, h.pending, by rintro u ⟨⟩, by rintro o ⟨⟩⟩
  | recover _ hw => exact h.recoveries hl hw

/-- Every way on builds fresh nodes. -/
theorem Next.growing (hg : l.Sound g) (hs : v.Sound g l Spans text) (h : v.Growing g l size)
    (hl : v.lookahead = some t) (hn : Next l v t w) : w.Growing g l size := by
  cases hn with
  | act _ ha => exact ha.growing hg hs h hl
  | flush _ _ ha =>
    obtain ⟨_, _, hflush⟩ := Version.flush_eq (l := l) v
    exact ha.growing hg (hs.flush hg) h.flush (by rw [hflush]; exact hl)
  | skipExtra _ _ => exact h.skipExtra hl
  | recover _ hw => exact h.recoveries hl hw

/-! ## Outcomes -/

/-- The root over all nodes of a stack. -/
theorem fresh_rootOf (h : ∀ t ∈ ts, Grown g l t)
    (hstart : l.isNonterminal l.table.startSymbol = true) (cost : Nat) :
    Everywhere (Fresh g l) (rootOf l ts cost) := by
  unfold rootOf
  split
  · split
    · rename_i hsymbol
      refine fresh_node (fun c hc => ?_) (.inr (by rw [hsymbol]; exact hstart))
      obtain ⟨u, hu, hc⟩ := List.mem_flatMap.mp hc
      obtain ⟨i, cs⟩ := u
      split at hc
      · rw [List.mem_singleton.mp hc]
        exact h _ hu
      · exact (h _ hu).children c hc
    · exact (grown_error h 0 cost).fresh
  · exact (grown_error h 0 cost).fresh

theorem Halts.fresh (hg : l.Sound g) (hs : Stacked g l v.stack) (h : v.Growing g l size)
    {events : List Event} {f : Finished} (he : Halts l v t events f) :
    Everywhere (Fresh g l) f.root := by
  cases he with
  | accept hp ha =>
    have ha := mem_actions_of_accept ha
    rw [Version.state, ← hs.lastState] at ha
    obtain ⟨hstart, -⟩ := hg.accept hs.path ha
    have hnodes := h.nodes
    rw [hp, List.append_nil] at hnodes
    exact fresh_rootOf hnodes (by rw [hg.startSymbol, hstart]) v.errorCost
  | noRecovery _ => exact (grown_error h.nodes 0 recoveryCost).fresh
  | limit _ _ => exact (grown_error h.nodes 0 recoveryCost).fresh

theorem Ends.fresh (hg : l.Sound g) (hs : v.Sound g l Spans text) (h : v.Growing g l size)
    {events : List Event} {f : Finished} (he : Ends l v t events f) :
    Everywhere (Fresh g l) f.root := by
  cases he with
  | now he => exact he.fresh hg hs.stacked h
  | flush _ _ he => exact he.fresh hg (hs.flush hg).stacked h.flush

/-- What a live hypothesis has as an error. -/
theorem fresh_partialTree (h : ∀ v ∈ r.versions, v.halted = false → v.Growing g l size) :
    Everywhere (Fresh g l) (r.partialTree l).root := by
  unfold Run.partialTree
  simp only
  split
  · rename_i v hv
    obtain ⟨hmem, hlive⟩ := List.mem_filter.mp (mem_of_firstBest? hv)
    exact (grown_error (h v hmem (by simpa using hlive)).nodes 0 0).fresh
  · exact (grown_error (by simp) 0 0).fresh

/-- What a parse takes over from the previous tree was built by a parse. -/
def FreshOld (g : FlatGrammar) (l : Language) (old : Option Tree) : Prop :=
  ∀ t, old = some t → t.language.sameAs l = true →
    Kept (fun _ t => Everywhere (Fresh g l) t) 0 t.root

theorem growing_startRun (hold : FreshOld g l old) :
    ∀ v ∈ (l.startRun text old).versions, v.Growing g l text.size := by
  rw [Language.versions_startRun]
  intro v hv
  rw [List.mem_singleton.mp hv]
  refine ⟨by simp, .nil, by simp, by rintro u ⟨⟩, fun o ho => ?_⟩
  simp only [Option.map_eq_some_iff, Option.filter_eq_some_iff] at ho
  obtain ⟨root, ⟨t, ⟨ht, husable⟩, rfl⟩, rfl⟩ := ho
  rw [← Tree.lenBytes_of_isUsable husable]
  exact OldTree.ofRoot_sound (hold t ht (Tree.sameAs_of_isUsable husable))

end Glr.Parse

namespace Glr

open Parse Subtree

variable {g : FlatGrammar} {l : Language} {old : Option Tree}

/-- A parse builds a fresh tree, if what it takes over is fresh. -/
theorem Language.fresh_parse_of_freshOld (hg : l.Sound g) (limits : Limits) (text : Bytes)
    (hold : ∀ t, old = some t → l.Obtained t) (hfresh : FreshOld g l old) :
    Everywhere (Fresh g l) (l.parse limits text old).1.root := by
  rw [Language.tree_parse]
  have hstart : Run.Reached l text old (l.startRun text old) := .start
  obtain ⟨r, hr, htree⟩ := hstart.exists_tree limits (Run.stepBound text)
  obtain ⟨hversions, hfinished⟩ := hr.invariant hg (covers_anyText text)
    (fun t ht hl => (hold t ht).kept hg hl) (growing_startRun hfresh)
    (fun v t w _ hv hf => hf.growing hg hv) (fun v t w hs hl hv hn => hn.growing hg hs hv hl)
    (Q := fun f => Everywhere (Fresh g l) f.root) fun v t es f hs _ hv he => he.fresh hg hs hv
  rcases htree with ⟨f, hf, htree⟩ | htree
  · rw [htree]
    exact hfinished f hf
  · rw [htree]
    exact fresh_partialTree hversions

/-- However a tree of a language came about, what no edit touched is as it was built. -/
theorem Language.Obtained.fresh {t : Tree} (hg : l.Sound g) (h : l.Obtained t)
    (hl : t.language.sameAs l = true) : Kept (fun _ t => Everywhere (Fresh g l) t) 0 t.root := by
  induction h with
  | foreign h =>
    rw [h] at hl
    contradiction
  | parsed h ih => exact passedOn_fresh.kept (Language.fresh_parse_of_freshOld hg _ _ h ih)
  | edited _ he ih =>
    rw [Tree.language_of_edit he] at hl
    exact Tree.kept_of_edit (fun _ _ _ h => h) (ih hl) he

/-- A parse builds a fresh tree. -/
theorem Language.fresh_parse (hg : l.Sound g) (limits : Limits) (text : Bytes)
    (hold : ∀ t, old = some t → l.Obtained t) :
    Everywhere (Fresh g l) (l.parse limits text old).1.root :=
  Language.fresh_parse_of_freshOld hg limits text hold fun t ht hl => (hold t ht).fresh hg hl

end Glr
