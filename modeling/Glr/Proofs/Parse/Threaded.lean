import Glr.Proofs.Editing
import Glr.Proofs.Table
import Glr.Proofs.Tree.Threaded
import Glr.Scanner.Script

/-!
# Glr.Proofs.Parse.Threaded

What the scanner remembers goes from token to token, and nowhere else.  At any time a
hypothesis knows what the last token said that it has taken, on the stack or skipped:

```
external  =  last state on the leaves of  nodes ++ pending
```

So it is the same state however the tokens were put together since then.  Between skipped
tokens no token of a scanner is valid; that is why an extra that is skipped there need not
be looked at.
-/

namespace Glr.Parse

open Subtree Run
open Version (stateOf)

variable {g : FlatGrammar} {l : Language} {Spans : Nat → Length → Prop} {text : Bytes}
  {old : Option Tree} {size : Nat} {v w : Version} {t u : Subtree} {ts us below : List Subtree}
  {r : Run} {site : Site} {found : Scan} {s : ScannerState} {Left : ScannerState → Prop}

/-! ## What a scan leaves -/

/-- A scan at a place succeeds: its token is valid there and has text. -/
structure Succeeds (l : Language) (text : Bytes) (site : Site) (found : Scan) : Prop where
  answered : ∃ scanner, l.scanner = some scanner ∧
    (scanner.scan (.begin text (min site.position.bytes text.size))
      (l.table.externals.map (SortedArray.contains (l.validTokens site.lexState)))
      site.external).1 = some found
  valid : ∃ x, l.table.externals[found.token]? = some x ∧
    SortedArray.contains (l.validTokens site.lexState) x = true
  text : min site.position.bytes text.size < min found.cursor.tokenEnd text.size

/-- A state that the scanner remembers after some scan that succeeded. -/
def Remembered (l : Language) (s : ScannerState) : Prop :=
  ∃ text site found, Succeeds l text site found ∧ found.state = s

/-- What a scan found is a token if the scan succeeded, and has its state then. -/
theorem Succeeds.of_foundToken? {start : Nat}
    (h : foundToken? l text site
      (l.table.externals.map (SortedArray.contains (l.validTokens site.lexState))) start found
        = some t) :
    (∃ x, l.table.externals[found.token]? = some x ∧
      SortedArray.contains (l.validTokens site.lexState) x = true) ∧
    start < min found.cursor.tokenEnd text.size ∧ t.info.lastExternal = some found.state := by
  unfold Parse.foundToken? at h
  split at h
  · rename_i x hx hflag
    simp only at h
    split at h
    · contradiction
    · rename_i hstop
      obtain rfl := Option.some.inj h
      rw [List.getElem?_map, hx, Option.map_some, Option.some.injEq] at hflag
      exact ⟨⟨x, hx, hflag⟩, Nat.lt_of_not_le hstop, rfl⟩
  · contradiction

theorem Succeeds.foundToken? (h : Succeeds l text site found) :
    ∃ t, foundToken? l text site
      (l.table.externals.map (SortedArray.contains (l.validTokens site.lexState)))
      (min site.position.bytes text.size) found = some t ∧
      t.info.lastExternal = some found.state := by
  obtain ⟨x, hx, hvalid⟩ := h.valid
  unfold Parse.foundToken?
  simp only [List.getElem?_map, hx, Option.map_some, hvalid]
  exact ⟨_, if_neg (Nat.not_le.mpr h.text), rfl⟩

theorem Succeeds.of_externalToken? (h : (externalToken? l text site).1 = some t) :
    ∃ found, Succeeds l text site found ∧ t.info.lastExternal = some found.state := by
  unfold Parse.externalToken? at h
  split at h
  · contradiction
  · rename_i scanner hscanner
    simp only at h
    split at h
    · contradiction
    · split at h
      · rename_i t' hfound
        obtain rfl := Option.some.inj h
        obtain ⟨found, hscan, hfound⟩ := Option.bind_eq_some_iff.mp hfound
        obtain ⟨hvalid, htext, hstate⟩ := of_foundToken? hfound
        exact ⟨found, ⟨⟨scanner, hscanner, hscan⟩, hvalid, htext⟩, hstate⟩
      · contradiction

theorem Succeeds.externalToken? (h : Succeeds l text site found) :
    ∃ t, (externalToken? l text site).1 = some t ∧ t.info.lastExternal = some found.state := by
  obtain ⟨scanner, hscanner, hscan⟩ := h.answered
  obtain ⟨x, hx, hvalid⟩ := h.valid
  obtain ⟨t, ht, hstate⟩ := h.foundToken?
  refine ⟨t, ?_, hstate⟩
  have hflags : (l.table.externals.map
      (SortedArray.contains (l.validTokens site.lexState))).contains true = true :=
    List.contains_iff_mem.mpr (List.mem_map.mpr ⟨x, List.mem_of_getElem? hx, hvalid⟩)
  unfold Parse.externalToken?
  simp only [hscanner, hflags, Bool.not_true, Bool.false_eq_true, if_false]
  rw [hscan, Option.bind_some, ht]

/-- Where no token is valid, no scan succeeds. -/
theorem Succeeds.validTokens_ne (h : Succeeds l text site found) :
    l.validTokens site.lexState ≠ #[] := by
  obtain ⟨x, -, hvalid⟩ := h.valid
  intro hempty
  rw [hempty] at hvalid
  exact absurd (SortedArray.mem_of_contains hvalid) (by simp)

theorem lastExternal_ruleToken : (ruleToken l text site).1.info.lastExternal = none := by
  unfold ruleToken
  simp only
  split
  · rfl
  · split
    · rfl
    · split <;> rfl

/-- A token has the state of the scan that found it, and no other token has a state. -/
theorem lastExternal_token_iff :
    (token l text site).1.info.lastExternal = some s ↔
      ∃ found, Succeeds l text site found ∧ found.state = s := by
  unfold token
  constructor
  · intro h
    split at h
    · rename_i t events ht
      obtain ⟨found, hfound, hstate⟩ := Succeeds.of_externalToken? (congrArg Prod.fst ht)
      exact ⟨found, hfound, Option.some.inj (hstate.symm.trans h)⟩
    · change (ruleToken l text site).1.info.lastExternal = some s at h
      rw [lastExternal_ruleToken] at h
      contradiction
  · rintro ⟨found, hfound, rfl⟩
    obtain ⟨t, ht, hstate⟩ := hfound.externalToken?
    split
    · rename_i t' events ht'
      rw [ht'] at ht
      obtain rfl := Option.some.inj ht
      exact hstate
    · rename_i events ht'
      rw [ht'] at ht
      contradiction

/-- Where no scan succeeds, lexical rules find the token. -/
theorem token_of_not_succeeds (h : ∀ found, ¬Succeeds l text site found) :
    (token l text site).1 = (ruleToken l text site).1 := by
  unfold token
  split
  · rename_i t events ht
    obtain ⟨found, hfound, -⟩ := Succeeds.of_externalToken? (congrArg Prod.fst ht)
    exact absurd hfound (h found)
  · rfl

/-! ## What hypotheses remember -/

/-- What a hypothesis remembers is what the tokens say that it has taken. -/
structure Version.Recalls (l : Language) (size : Nat) (v : Version) : Prop where
  external : v.external = lastMemory (v.nodes ++ v.pending)
  nodes : ∀ t ∈ v.nodes ++ v.pending, Everywhere (Threaded l (Remembered l)) t
  lookahead : ∀ t, v.lookahead = some t → Everywhere (Threaded l (Remembered l)) t
  /-- Between skipped tokens no scan succeeds. -/
  skipping : ∀ t, v.lookahead = some t → v.pending ≠ [] → t.info.lastExternal = none
  old : ∀ o, v.old = some o → o.Sound (fun _ t => Everywhere (Threaded l (Remembered l)) t) size

/-- One more token is taken. -/
theorem Version.Recalls.taken (h : v.Recalls l size) (hu : Everywhere (Threaded l (Remembered l)) u)
    (hnodes : w.nodes ++ w.pending = v.nodes ++ v.pending ++ [u])
    (hexternal : w.external = u.info.lastExternal.getD v.external)
    (hlookahead : ∀ t, w.lookahead = some t → v.lookahead = some t ∧ w.pending = [])
    (hold : w.old = v.old) : w.Recalls l size := by
  refine ⟨?_, fun t ht => ?_, fun t hl => h.lookahead t (hlookahead t hl).1,
    fun t hl hp => absurd (hlookahead t hl).2 hp, fun o ho => h.old o (hold ▸ ho)⟩
  · rw [hexternal, hnodes, lastMemory_append_singleton _ hu, h.external]
  · rw [hnodes] at ht
    rcases List.mem_append.mp ht with ht | ht
    · exact h.nodes t ht
    · rwa [List.mem_singleton.mp ht]

/-- The last nodes give way to others that have the same states. -/
theorem Version.Recalls.regrouped (h : v.Recalls l size) (hv : v.nodes ++ v.pending = below ++ ts)
    (hus : ∀ u ∈ us, Everywhere (Threaded l (Remembered l)) u)
    (hsame : us.flatMap memories = ts.flatMap memories) (hnodes : w.nodes = below ++ us)
    (hpending : w.pending = [])
    (hexternal : w.external = (us.flatMap memories).getLast?.getD v.external)
    (hlookahead : w.lookahead = v.lookahead) (hold : w.old = v.old) : w.Recalls l size := by
  refine ⟨?_, fun t ht => ?_, fun t hl => h.lookahead t (hlookahead ▸ hl),
    fun t _ hp => absurd hpending hp, fun o ho => h.old o (hold ▸ ho)⟩
  · rw [hexternal, h.external, hv, hnodes, hpending, List.append_nil, lastMemory_append,
      lastMemory_append, hsame]
    cases (ts.flatMap memories).getLast? <;> rfl
  · rw [hnodes, hpending, List.append_nil] at ht
    rcases List.mem_append.mp ht with ht | ht
    · exact h.nodes t (by rw [hv]; exact List.mem_append_left _ ht)
    · exact hus t ht

/-- After some nodes the last state on their leaves is known. -/
theorem Version.external_pushAll (v : Version) (state : StateId)
    (h : ∀ t ∈ ts, Everywhere (Threaded l Left) t) :
    (v.pushAll state ts).external = (ts.flatMap memories).getLast?.getD v.external := by
  induction ts generalizing v with
  | nil => rfl
  | cons t ts ih =>
    have hts := ih (v.push state t) fun u hu => h u (by simp [hu])
    have ht : (v.push state t).external = t.info.lastExternal.getD v.external := rfl
    rw [lastExternal_eq (h t (by simp))] at ht
    rw [List.flatMap_cons, List.getLast?_append]
    refine hts.trans ?_
    rw [ht]
    cases (ts.flatMap memories).getLast? <;> rfl

/-! ## Finding the token -/

/-- A token remembers what its scan left. -/
theorem threaded_token (hg : l.Sound g) (text : Bytes) (site : Site) :
    Everywhere (Threaded l (Remembered l)) (token l text site).1 := by
  have htoken := tokenAt_token text site hg
  have hleft (s : ScannerState) (h : (token l text site).1.info.lastExternal = some s) :
      Remembered l s := by
    obtain ⟨found, hfound, hs⟩ := lastExternal_token_iff.mp h
    exact ⟨text, site, found, hfound, hs⟩
  generalize (token l text site).1 = t at htoken hleft
  obtain ⟨i, cs⟩ := t
  obtain rfl : cs = [] := htoken.leaf
  refine Threaded.leaf hleft fun hhidden => ?_
  have hterm := htoken.terminal
  simp [isHidden, hterm] at hhidden

/-- Finding the token does not change what is remembered. -/
theorem Fetched.external (hf : Fetched l text v t w) : w.external = v.external := by
  cases hf <;> rfl

theorem Fetched.recalls (hg : l.Sound g) (hquiet : l.validTokens errorLexState = #[])
    (h : v.Recalls l text.size) (hf : Fetched l text v t w) : w.Recalls l text.size := by
  cases hf with
  | kept _ => exact h
  | @reused _ o o' _ ho hp hr =>
    have hspec := OldTree.reuse?_spec l v.reuseSite (h.old o ho)
    rw [hr] at hspec
    refine ⟨h.external, h.nodes, ?_, fun u hu hne => absurd hp hne, ?_⟩
    · rintro u hu
      obtain rfl := Option.some.inj hu
      exact (hspec.2 _ rfl).built
    · rintro o hu
      obtain rfl := Option.some.inj hu
      exact hspec.1
  | @lexed old _ ho =>
    refine ⟨h.external, h.nodes, ?_, ?_, ?_⟩
    · rintro u hu
      obtain rfl := Option.some.inj hu
      exact threaded_token hg text (v.site l)
    · rintro u hu hne
      obtain rfl := Option.some.inj hu
      have hsite : (v.site l).lexState = errorLexState := if_neg (by simpa using hne)
      rw [Option.eq_none_iff_forall_ne_some]
      intro s hs
      obtain ⟨found, hfound, -⟩ := lastExternal_token_iff.mp hs
      exact hfound.validTokens_ne (hsite ▸ hquiet)
    · rintro o hu
      cases ho with
      | not => exact h.old o hu
      | inVain ho' hr =>
        obtain rfl := Option.some.inj hu
        have hspec := OldTree.reuse?_spec l v.reuseSite (h.old _ ho')
        rw [hr] at hspec
        exact hspec.1

/-! ## Taking tokens -/

theorem Version.Recalls.shift (h : v.Recalls l size) (hp : v.pending = [])
    (hl : v.lookahead = some t) (next : StateId) (x : Bool) :
    (v.shift next t x).Recalls l size := by
  have hstate := (threaded_withParseState (h.lookahead t hl) v.state).1
  have hnode := (threaded_withExtra hstate x).1
  refine h.taken hnode ?_ rfl (by rintro u ⟨⟩) rfl
  exact nodes_push_append v _ _ hp

/-! ## Reductions -/

/-- One more child that has the states of a node. -/
theorem threaded_cons {c : Child Subtree} {cs : List (Child Subtree)}
    (hc : Everywhere (Threaded l Left) c.node ∧ c.node.memories = t.memories)
    (hcs : (∀ d ∈ cs, Everywhere (Threaded l Left) d.node) ∧
      memoriesAll cs = ts.flatMap memories) :
    (∀ d ∈ c :: cs, Everywhere (Threaded l Left) d.node) ∧
      memoriesAll (c :: cs) = (t :: ts).flatMap memories := by
  rw [List.forall_mem_cons, memoriesAll, hcs.2, hc.2, List.flatMap_cons]
  exact ⟨⟨hc.1, hcs.1⟩, rfl⟩

/-- The children of a production have the states of the nodes that they are made of. -/
theorem threaded_dress (fields : List (Option FieldId)) {labels : List (Option Symbol)}
    (hlabels : ∀ s, some s ∈ labels → l.isVisible s = true)
    (hts : ∀ t ∈ ts, Everywhere (Threaded l Left) t) :
    (∀ c ∈ dress l fields labels ts, Everywhere (Threaded l Left) c.node) ∧
      memoriesAll (dress l fields labels ts) = ts.flatMap memories := by
  induction ts generalizing fields labels with
  | nil => exact ⟨by simp [dress], rfl⟩
  | cons t ts ih =>
    have ht := hts t (by simp)
    have hrest : ∀ u ∈ ts, Everywhere (Threaded l Left) u := fun u hu => hts u (by simp [hu])
    rw [dress]
    split
    · exact threaded_cons ⟨ht, rfl⟩ (ih fields hlabels hrest)
    · have hlabels' (s : Symbol) (hs : some s ∈ labels.tail) : l.isVisible s = true :=
        hlabels s (List.mem_of_mem_tail hs)
      refine threaded_cons ?_ (ih fields.tail hlabels' hrest)
      simp only
      split
      · rename_i s hs
        have hmem := List.mem_of_mem_head? (Option.join_eq_some_iff.mp hs)
        exact threaded_withSymbol ht (hlabels s hmem)
      · exact ⟨ht, rfl⟩

theorem Version.Recalls.reduce (hg : l.Sound g) (hs : v.Sound g l Spans text)
    (h : v.Recalls l size) (hp : v.pending = []) {p : ProductionId} {a : Symbol}
    (ha : .reduce p ∈ l.actions v.state a) {n : Nat} {info : ProductionInfo} {fragile : Bool}
    (hinfo : l.production? p = some info)
    (hw : Version.reduce l { v with reductions := n } info fragile t = .ok w) :
    w.Recalls l size := by
  obtain ⟨prod, top, taken, rest, next, spec, hprod, hsplit, -, -, -, -, -, -, hreduced⟩ :=
    hs.stacked.exists_reduced hg ha hinfo hw
  have hmem := Array.mem_of_getElem? hprod
  have hlabels (s : Symbol) (hlabel : some s ∈ prod.info.labels) : l.isVisible s = true := by
    obtain ⟨st, hst, hlabel⟩ := List.mem_map.mp hlabel
    exact hg.isVisible_of_isShown (((hg.grammar.productions prod hmem).steps st hst).label s hlabel)
  -- the nodes of the stack come in three parts
  have hnodes : v.nodes ++ v.pending = (rest.map Entry.node).reverse
      ++ ((taken.map Entry.node).reverse ++ (top.map Entry.node).reverse) := by
    rw [hp, nodes_eq, hsplit]
    simp
  have hall := h.nodes
  rw [hnodes] at hall
  obtain ⟨hchildren, htaken⟩ := threaded_dress prod.info.fields hlabels
    fun u (hu : u ∈ (taken.map Entry.node).reverse) =>
      hall u (List.mem_append_right _ (List.mem_append_left _ hu))
  obtain ⟨hnode, hmemories⟩ := threaded_node spec hchildren
  have hnew : ∀ u ∈ Subtree.node l spec (dress l prod.info.fields prod.info.labels
      (taken.map Entry.node).reverse) :: (top.map Entry.node).reverse,
      Everywhere (Threaded l (Remembered l)) u :=
    List.forall_mem_cons.mpr ⟨hnode, fun u hu =>
      hall u (List.mem_append_right _ (List.mem_append_right _ hu))⟩
  obtain ⟨stack, external, precedence', hshape⟩ := Version.reduce_eq hw
  refine h.regrouped hnodes hnew ?_ ?_ (by rw [hshape]; exact hp) ?_ (by rw [hshape])
    (by rw [hshape])
  · rw [List.flatMap_cons, hmemories, htaken, List.flatMap_append]
  · rw [hreduced, Version.nodes_pushAll, Version.nodes_push, List.append_assoc]
    rfl
  · rw [hreduced]
    exact Version.external_pushAll _ next hnew

/-! ## Errors -/

/-- A token that is put in has no state. -/
theorem Version.Recalls.inserted (h : v.Recalls l size) (hp : v.pending = []) (s : Symbol)
    (next : StateId) : (v.inserted l s next).Recalls l size := by
  have hmissing : Everywhere (Threaded l (Remembered l)) (.missing l s v.state missingCost) :=
    Threaded.leaf (by rintro _ ⟨⟩) fun _ => rfl
  exact h.taken hmissing (nodes_push_append v _ _ hp) rfl (fun u hu => ⟨hu, hp⟩) rfl

/-- An error node as an extra. -/
theorem threaded_errorExtra (h : ∀ t ∈ ts, Everywhere (Threaded l Left) t)
    (state : StateId) (cost : Nat) :
    Everywhere (Threaded l Left) ((Subtree.error l state cost ts).withExtra true) ∧
      ((Subtree.error l state cost ts).withExtra true).memories = ts.flatMap memories := by
  obtain ⟨herror, hmemories⟩ := threaded_error h state cost
  obtain ⟨hextra, hsame⟩ := threaded_withExtra herror true
  exact ⟨hextra, hsame.trans hmemories⟩

/-- Nodes that are given up have their states in the error node. -/
theorem Version.Recalls.reset (h : v.Recalls l size) {taken stack : List Entry}
    (hstack : v.stack = taken ++ stack) (cost : Nat) :
    (v.reset l (taken.map Entry.node).reverse stack cost).Recalls l size := by
  have hall : v.nodes ++ v.pending = (stack.map Entry.node).reverse
      ++ ((taken.map Entry.node).reverse ++ v.pending) := by
    rw [nodes_eq, hstack]
    simp
  have hnodes := h.nodes
  rw [hall] at hnodes
  obtain ⟨herror, hmemories⟩ := threaded_errorExtra (List.forall_mem_append.mp hnodes).2
    (stateOf stack) (cost + v.pendingCost)
  have hnew := List.forall_mem_singleton.mpr herror
  refine h.regrouped hall hnew ?_ (Version.nodes_push _ _ _) rfl ?_ rfl rfl
  · rw [List.flatMap_singleton, hmemories]
  · exact Version.external_pushAll ({ v with stack } : Version) (stateOf stack) hnew

theorem Version.Recalls.skip (h : v.Recalls l size) (hl : v.lookahead = some t) :
    (v.skip t).Recalls l size :=
  h.taken (h.lookahead t hl) (List.append_assoc _ _ _).symm rfl (by rintro u ⟨⟩) rfl

/-- An extra that is skipped has no state, for it was found between skipped tokens. -/
theorem Version.Recalls.skipExtra (h : v.Recalls l size) (hl : v.lookahead = some t)
    (hp : v.pending ≠ []) : (v.skipExtra t).Recalls l size := by
  have hnone : (t.withExtra true).info.lastExternal = none := h.skipping t hl hp
  refine h.taken (threaded_withExtra (h.lookahead t hl) true).1 (List.append_assoc _ _ _).symm ?_
    (by rintro u ⟨⟩) rfl
  rw [hnone]
  rfl

theorem Version.Recalls.recoveries (h : v.Recalls l size) (hl : v.lookahead = some t)
    (hw : w ∈ v.recoveries l t) : w.Recalls l size := by
  cases Recovers.of_mem hw with
  | insert _ hp => exact h.inserted hp _ _
  | reset _ hstack => exact h.reset hstack _
  | skip => exact h.skip hl

/-- The skipped tokens as nodes have the states that they had. -/
theorem threaded_flushed {skipped trailing : List Subtree}
    (h : ∀ u ∈ skipped ++ trailing, Everywhere (Threaded l Left) u) (state : StateId)
    (cost : Nat) :
    let us := (if skipped.isEmpty then []
      else [(Subtree.error l state cost skipped).withExtra true]) ++ trailing
    (∀ u ∈ us, Everywhere (Threaded l Left) u) ∧
      us.flatMap memories = (skipped ++ trailing).flatMap memories := by
  cases skipped with
  | nil => exact ⟨h, rfl⟩
  | cons s rest =>
    obtain ⟨hskipped, htrailing⟩ := List.forall_mem_append.mp h
    obtain ⟨herror, hmemories⟩ := threaded_errorExtra hskipped state cost
    rw [List.isEmpty_cons, if_neg Bool.false_ne_true]
    refine ⟨List.forall_mem_cons.mpr ⟨herror, htrailing⟩, ?_⟩
    rw [List.singleton_append, List.flatMap_cons, hmemories, List.flatMap_append]

theorem Version.Recalls.flush (h : v.Recalls l size) : (v.flush l).Recalls l size := by
  have hparts := splitAfterLast_append (fun t : Subtree => !t.info.extra) v.pending
  obtain ⟨stack, external, hshape⟩ := Version.flush_eq (l := l) v
  have hpending : ∀ u ∈ v.pending, Everywhere (Threaded l (Remembered l)) u := fun u hu =>
    h.nodes u (List.mem_append_right _ hu)
  rw [← hparts] at hpending
  obtain ⟨hnew, hsame⟩ := threaded_flushed hpending v.state v.pendingCost
  rw [hparts] at hsame
  let cleared : Version := { v with pending := [], pendingCost := 0 }
  refine h.regrouped rfl hnew hsame (Version.nodes_pushAll cleared v.state _) (by rw [hshape])
    (Version.external_pushAll cleared v.state hnew) (by rw [hshape]) (by rw [hshape])

/-! ## Steps -/

theorem Acts.recalls (hg : l.Sound g) (hs : v.Sound g l Spans text) (h : v.Recalls l size)
    (hp : v.pending = []) (hl : v.lookahead = some t) (ha : Acts l v t w) : w.Recalls l size := by
  cases ha with
  | shift => exact h.shift hp hl _ _
  | reduce ha hinfo _ hw => exact h.reduce hg hs hp (mem_actions_of_reduce ha) hinfo hw
  | shiftExtra => exact h.shift hp hl _ _
  | drop => exact ⟨h.external, h.nodes, by rintro u ⟨⟩, by rintro u ⟨⟩, by rintro o ⟨⟩⟩
  | recover _ hw => exact h.recoveries hl hw

/-- On every way on a hypothesis knows the last state. -/
theorem Next.recalls (hg : l.Sound g) (hs : v.Sound g l Spans text) (h : v.Recalls l size)
    (hl : v.lookahead = some t) (hn : Next l v t w) : w.Recalls l size := by
  cases hn with
  | act hp ha => exact ha.recalls hg hs h hp hl
  | flush _ _ ha =>
    obtain ⟨_, _, hflush⟩ := Version.flush_eq (l := l) v
    exact ha.recalls hg (hs.flush hg) h.flush (by rw [hflush]) (by rw [hflush]; exact hl)
  | skipExtra hp _ => exact h.skipExtra hl hp
  | recover _ hw => exact h.recoveries hl hw

/-! ## Outcomes -/

/-- The root over all nodes of a stack. -/
theorem threaded_rootOf (h : ∀ t ∈ ts, Everywhere (Threaded l Left) t) (cost : Nat) :
    Everywhere (Threaded l Left) (rootOf l ts cost) := by
  unfold rootOf
  split
  · split
    · refine (threaded_node _ fun c hc => ?_).1
      obtain ⟨u, hu, hc⟩ := List.mem_flatMap.mp hc
      split at hc
      · rw [List.mem_singleton.mp hc]
        exact h u hu
      · exact (h u hu).child hc
    · exact (threaded_error h 0 cost).1
  · exact (threaded_error h 0 cost).1

theorem Halts.threaded (h : v.Recalls l size) {events : List Event} {f : Finished}
    (he : Halts l v t events f) : Everywhere (Threaded l (Remembered l)) f.root := by
  cases he with
  | accept _ _ =>
    exact threaded_rootOf (fun u hu => h.nodes u (List.mem_append_left _ hu)) v.errorCost
  | noRecovery _ => exact (threaded_error h.nodes 0 recoveryCost).1
  | limit _ _ => exact (threaded_error h.nodes 0 recoveryCost).1

theorem Ends.threaded (h : v.Recalls l size) {events : List Event} {f : Finished}
    (he : Ends l v t events f) : Everywhere (Threaded l (Remembered l)) f.root := by
  cases he with
  | now he => exact he.threaded h
  | flush _ _ he => exact he.threaded h.flush

/-- What a live hypothesis has as an error. -/
theorem threaded_partialTree (h : ∀ v ∈ r.versions, v.halted = false → v.Recalls l size) :
    Everywhere (Threaded l (Remembered l)) (r.partialTree l).root := by
  unfold Run.partialTree
  simp only
  split
  · rename_i v hv
    obtain ⟨hmem, hlive⟩ := List.mem_filter.mp (mem_of_firstBest? hv)
    exact (threaded_error (h v hmem (by simpa using hlive)).nodes 0 0).1
  · exact (threaded_error (by simp) 0 0).1

/-! ## Parses -/

/-- A parse that takes over a tree that it may reuse starts with nothing remembered. -/
theorem recalls_startRun (hold : ∀ t, old = some t → t.language.sameAs l = true →
      Kept (fun _ t => Everywhere (Threaded l (Remembered l)) t) 0 t.root) :
    ∀ v ∈ (l.startRun text old).versions, v.Recalls l text.size := by
  rw [Language.versions_startRun]
  intro v hv
  rw [List.mem_singleton.mp hv]
  refine ⟨rfl, by simp [Version.nodes], by rintro u ⟨⟩, by rintro u ⟨⟩, fun o ho => ?_⟩
  simp only [Option.map_eq_some_iff, Option.filter_eq_some_iff] at ho
  obtain ⟨root, ⟨t, ⟨ht, husable⟩, rfl⟩, rfl⟩ := ho
  rw [← Tree.lenBytes_of_isUsable husable]
  exact OldTree.ofRoot_sound (hold t ht (Tree.sameAs_of_isUsable husable))

/-- At any time every live hypothesis knows the last state, and outcomes keep all states. -/
theorem Run.Reached.recalls (hg : l.Sound g) (hquiet : l.validTokens errorLexState = #[])
    (hold : ∀ t, old = some t → l.Obtained t)
    (hthreaded : ∀ t, old = some t → t.language.sameAs l = true →
      Everywhere (Threaded l (Remembered l)) t.root) (hr : r.Reached l text old) :
    (∀ v ∈ r.versions, v.halted = false → v.Recalls l text.size) ∧
      ∀ f ∈ r.finished, Everywhere (Threaded l (Remembered l)) f.root :=
  hr.invariant hg (covers_anyText text) (fun t ht hl => (hold t ht).kept hg hl)
    (recalls_startRun fun t ht hl => ((hold t ht).kept hg hl).of_everywhere (hthreaded t ht hl))
    (fun _ _ _ _ h hf => hf.recalls hg hquiet h)
    (fun _ _ _ hs hl h hn => hn.recalls hg hs h hl) fun _ _ _ _ _ _ h he => he.threaded h

end Glr.Parse

namespace Glr

open Parse Subtree

variable {g : FlatGrammar} {l : Language} {old : Option Tree} {t : Tree} {r : Run}

/-- A parse takes over and keeps the states of all leaves. -/
theorem Language.threaded_parse (hg : l.Sound g) (hquiet : l.validTokens errorLexState = #[])
    (hold : ∀ t, old = some t → l.Obtained t)
    (hthreaded : ∀ t, old = some t → t.language.sameAs l = true →
      Everywhere (Threaded l (Remembered l)) t.root) (limits : Limits) (text : Bytes) :
    Everywhere (Threaded l (Remembered l)) (l.parse limits text old).1.root := by
  rw [Language.tree_parse]
  have hstart : Run.Reached l text old (l.startRun text old) := .start
  obtain ⟨r, hr, htree⟩ := hstart.exists_tree limits (Run.stepBound text)
  obtain ⟨hversions, hfinished⟩ := hr.recalls hg hquiet hold hthreaded
  rcases htree with ⟨f, hf, htree⟩ | htree
  · rw [htree]
    exact hfinished f hf
  · rw [htree]
    exact threaded_partialTree hversions

/-- However a tree of a language came about, its nodes have the states of their leaves. -/
theorem Language.Obtained.threaded (hg : l.Sound g) (hquiet : l.validTokens errorLexState = #[])
    (h : l.Obtained t) (hl : t.language.sameAs l = true) :
    Everywhere (Threaded l (Remembered l)) t.root :=
  h.everywhere (fun _ _ => threaded_shape_iff)
    (fun limits text _ hold hthreaded => Language.threaded_parse hg hquiet hold hthreaded limits text)
    hl

/-- What the scanner remembers goes through tokens only.  At any time a live hypothesis knows
the last state on the leaves that it has taken, a node has the last state on its own leaves,
and only a scan that succeeds leaves a state. -/
theorem Language.external_threaded {handle : Nat} {grammar : Grammar} {scanner : Option Scanner}
    (h : Language.ofGrammar handle grammar scanner = .ok l)
    (hlex : l.table.lexStates.size < 65536) (text : Bytes)
    (hold : ∀ t, old = some t → l.Obtained t) (hr : r.Reached l text old) :
    (∀ v ∈ r.versions, v.halted = false → v.external = lastMemory (v.nodes ++ v.pending) ∧
      ∀ t ∈ v.nodes ++ v.pending ++ v.lookahead.toList,
        Everywhere (Threaded l (Remembered l)) t) ∧
    (∀ f ∈ r.finished, Everywhere (Threaded l (Remembered l)) f.root) ∧
    (∀ t, l.Obtained t → t.language.sameAs l = true →
      Everywhere (Threaded l (Remembered l)) t.root) ∧
    (∀ i v, r.versions[i]? = some v → (r.fetch l text i v).2.1.external = v.external) ∧
    ∀ site, (∀ s, (token l text site).1.info.lastExternal = some s ↔
        ∃ found, Succeeds l text site found ∧ found.state = s) ∧
      ((∀ found, ¬Succeeds l text site found) →
        (token l text site).1 = (ruleToken l text site).1) := by
  obtain ⟨g, -, hg⟩ := Language.ofGrammar_sound h
  have hquiet : l.validTokens errorLexState = #[] :=
    Language.validTokens_eq_empty h (Nat.le_of_lt_succ hlex)
  obtain ⟨hversions, hfinished⟩ := hr.recalls hg hquiet hold fun t ht hl =>
    (hold t ht).threaded hg hquiet hl
  refine ⟨fun v hv hlive => ?_, hfinished, fun t ht hl => ht.threaded hg hquiet hl,
    fun i v hv => ?_, fun site => ⟨fun s => lastExternal_token_iff, token_of_not_succeeds⟩⟩
  · have hv := hversions v hv hlive
    refine ⟨hv.external, List.forall_mem_append.mpr ⟨hv.nodes, fun t ht => ?_⟩⟩
    exact hv.lookahead t (Option.mem_toList.mp ht)
  · have hfetch := fetch_spec l text r hv
    generalize r.fetch l text i v = fetched at hfetch
    obtain ⟨t, w, r'⟩ := fetched
    exact hfetch.1.external

/-- A scanner with one token, a letter, that remembers another letter after it. -/
def Script.letter : Scanner :=
  scanner [[.expect (Bytes.ofString "b"), .remember (Bytes.ofString "k")]]

set_option maxRecDepth 100000 in
theorem Language.external_threaded_scanned : ∃ (l : Language) (r : Run) (v : Version),
    Language.ofGrammar 0 { Grammar.scanned with extras := some [] } (some Script.letter) = .ok l ∧
    l.table.lexStates.size < 65536 ∧ r.Reached l (Bytes.ofString "abxa") none ∧ v ∈ r.versions ∧
    v.pending ≠ [] ∧ v.external = Bytes.ofString "k" ∧
    lastMemory (v.nodes ++ v.pending) = Bytes.ofString "k" := by
  have hrun : (Language.ofGrammar 0 { Grammar.scanned with extras := some [] }
      (some Script.letter)).toOption.any (fun l => decide (l.table.lexStates.size < 65536) &&
        ((Run.turn l (Bytes.ofString "abxa"))^[4]
          (l.startRun (Bytes.ofString "abxa") none)).versions.any fun v =>
            !v.halted && !v.pending.isEmpty && v.external == Bytes.ofString "k") = true := by
    decide +kernel
  obtain ⟨l, hl, hrun⟩ := exists_ok hrun
  simp only [Bool.and_eq_true, decide_eq_true_eq, List.any_eq_true, Bool.not_eq_true',
    beq_iff_eq] at hrun
  obtain ⟨hlex, v, hv, ⟨hlive, hpending⟩, hexternal⟩ := hrun
  have hr : Run.Reached l (Bytes.ofString "abxa") none _ := Run.Reached.start.turns 4
  obtain ⟨hversions, -⟩ := Language.external_threaded hl hlex (Bytes.ofString "abxa") (by simp) hr
  refine ⟨l, _, v, hl, hlex, hr, hv, List.isEmpty_eq_false_iff.mp hpending, hexternal, ?_⟩
  rw [← (hversions v hv hlive).1, hexternal]

end Glr
