import Glr.Proofs.Parse.Condense
import Glr.Proofs.Parse.Effect
import Glr.Proofs.Tree.Plain
import Mathlib.Data.List.TakeDrop

/-!
# Glr.Proofs.Parse.Plain

Hypotheses without what only reuse depends on: their nodes are plain, and they do not know
the previous tree.  Whatever a hypothesis does, it does in the same way without that:

```
plain (f v t) = plain (f (plain v) (plain t))
```
-/

namespace Glr.Parse

open Subtree

deriving instance DecidableEq for Child
deriving instance DecidableEq for Entry
deriving instance DecidableEq for OldNode
deriving instance DecidableEq for OldTree
deriving instance DecidableEq for Version
deriving instance DecidableEq for Finished

/-- An entry with a plain node. -/
def Entry.plain (e : Entry) : Entry := { e with node := e.node.plain }

/-- A hypothesis with plain nodes that does not know the previous tree and does not count
reductions. -/
def Version.plain (v : Version) : Version :=
  { v with
    stack := v.stack.map Entry.plain
    lookahead := v.lookahead.map Subtree.plain
    pending := v.pending.map Subtree.plain
    old := none
    reductions := 0 }

/-- An outcome with a plain root. -/
def Finished.plain (f : Finished) : Finished := { f with root := f.root.plain }

variable {l : Language} {v : Version} {t : Subtree} {next : StateId} {extra : Bool}

@[simp] theorem Entry.plain_plain (e : Entry) : e.plain.plain = e.plain := by
  simp [Entry.plain]

@[simp] theorem Entry.extra_plain (e : Entry) : e.plain.node.info.extra = e.node.info.extra := by
  simp [Entry.plain, NodeInfo.plain]

namespace Version

theorem plain_plain (v : Version) : v.plain.plain = v.plain := by
  simp [plain, Function.comp_def]

@[simp] theorem stateOf_plain (stack : List Entry) : stateOf (stack.map Entry.plain) = stateOf stack := by
  cases stack <;> rfl

@[simp] theorem stopOf_plain (stack : List Entry) : stopOf (stack.map Entry.plain) = stopOf stack := by
  cases stack <;> rfl

@[simp] theorem state_plain (v : Version) : v.plain.state = v.state := stateOf_plain v.stack

@[simp] theorem nodes_plain (v : Version) : v.plain.nodes = v.nodes.map Subtree.plain := by
  simp [nodes, plain, Entry.plain, Function.comp_def]

@[simp] theorem errorCost_plain (v : Version) : v.plain.errorCost = v.errorCost := rfl

@[simp] theorem dynamicPrecedence_plain (v : Version) :
    v.plain.dynamicPrecedence = v.dynamicPrecedence := rfl

@[simp] theorem pendingCost_plain (v : Version) : v.plain.pendingCost = v.pendingCost := rfl

@[simp] theorem pending_plain (v : Version) : v.plain.pending.isEmpty = v.pending.isEmpty := by
  simp [plain]

/-! ## Moves -/

theorem push_plain (v : Version) (next : StateId) (t : Subtree) :
    (v.push next t).plain = v.plain.push next t.plain := by
  simp [push, plain, Entry.plain, NodeInfo.plain]

theorem pushAll_plain (v : Version) (state : StateId) (ts : List Subtree) :
    (v.pushAll state ts).plain = v.plain.pushAll state (ts.map Subtree.plain) := by
  induction ts generalizing v with
  | nil => rfl
  | cons t ts ih =>
    rw [pushAll, List.foldl_cons, ← pushAll, ih, push_plain]
    rfl

theorem plain_shift (v : Version) (next : StateId) (t : Subtree) (extra : Bool) :
    (v.shift next t extra).plain =
      { v.plain.push (if extra then v.state else next) (t.plain.withExtra extra) with
        position := v.position + t.size
        lookahead := none
        afterExtra := extra && t.isLeaf
        reductions := 0 } := by
  have hpush := push_plain v (if extra then v.state else next)
    ((t.withParseState v.state).withExtra extra)
  rw [withExtra_plain, withParseState_plain] at hpush
  rw [← hpush]
  rfl

theorem shift_plain (v : Version) (next : StateId) (t : Subtree) (extra : Bool) :
    (v.shift next t extra).plain = (v.plain.shift next t.plain extra).plain := by
  rw [plain_shift, plain_shift, plain_plain, state_plain, Subtree.plain_plain, size_plain,
    isLeaf_plain]
  rfl

end Version

theorem takeNodes_plain (count : Nat) (stack : List Entry) (after : List Subtree) :
    takeNodes count (stack.map Entry.plain) (after.map Subtree.plain) =
      (takeNodes count stack after).map fun p => (p.1.map Subtree.plain, p.2.map Entry.plain) := by
  induction stack generalizing count after with
  | nil => cases count <;> rfl
  | cons e stack ih =>
    cases count with
    | zero => rfl
    | succ count =>
      rw [List.map_cons, takeNodes, takeNodes, Entry.extra_plain]
      exact ih _ (e.node :: after)

theorem dress_plain (fields : List (Option FieldId)) (labels : List (Option Symbol))
    (ts : List Subtree) :
    plainAll (dress l fields labels ts) = dress l fields labels (ts.map Subtree.plain) := by
  induction ts generalizing fields labels with
  | nil => simp [dress]
  | cons t ts ih =>
    rw [List.map_cons, dress, dress, extra_plain]
    split
    · rw [plainAll_cons, ih]
    · rw [plainAll_cons, ih]
      cases labels.head?.join with
      | none => rfl
      | some x => rw [withSymbol_plain]

namespace Version

/-- What a reduction answers, with plain nodes. -/
def plainResult : Except Version Version → Except Version Version
  | .ok v => .ok v.plain
  | .error v => .error v.plain

theorem span_plain (stack : List Entry) :
    (stack.map Entry.plain).span (fun e => e.node.info.extra) =
      ((stack.span fun e => e.node.info.extra).1.map Entry.plain,
        (stack.span fun e => e.node.info.extra).2.map Entry.plain) := by
  simp only [List.span_eq_takeWhile_dropWhile, List.takeWhile_map, List.dropWhile_map,
    Function.comp_def, Entry.extra_plain]

theorem reduce_plain (v : Version) (p : ProductionInfo) (fragile : Bool) (t : Subtree) :
    plainResult (v.reduce l p fragile t) = plainResult (v.plain.reduce l p fragile t.plain) := by
  have hspan := span_plain v.stack
  change v.plain.stack.span _ = _ at hspan
  unfold reduce
  rw [hspan]
  generalize v.stack.span (fun e => e.node.info.extra) = parts
  obtain ⟨trailing, stack⟩ := parts
  have htake := takeNodes_plain p.childCount stack []
  rw [List.map_nil] at htake
  simp only [htake]
  cases takeNodes p.childCount stack [] with
  | none =>
    simp only [Option.map_none, plainResult]
    rw [← plain_plain]
    rfl
  | some taken =>
    obtain ⟨nodes, rest⟩ := taken
    simp only [Option.map_some, stateOf_plain]
    cases l.goto? (stateOf rest) p.lhs with
    | none =>
      simp only [plainResult]
      rw [← plain_plain]
      rfl
    | some next =>
      simp only [plainResult, pushAll_plain, push_plain]
      have hchildren : plainAll (dress l p.fields p.labels nodes) =
          plainAll (dress l p.fields p.labels (nodes.map Subtree.plain)) := by
        simp [dress_plain, Function.comp_def]
      have htrailing : ((trailing.map Entry.plain).map Entry.node).reverse.map Subtree.plain =
          (trailing.map Entry.node).reverse.map Subtree.plain := by
        simp [Entry.plain, Function.comp_def]
      have hversion (d : Int) : ({ v with stack := rest, dynamicPrecedence := d } : Version).plain =
          ({ v.plain with stack := rest.map Entry.plain, dynamicPrecedence := d } : Version).plain := by
        rw [← plain_plain]
        rfl
      rw [htrailing, ← hversion]
      congr 3
      exact plain_node rfl rfl rfl hchildren

end Version

theorem rootOf_plain (nodes : List Subtree) (cost : Nat) :
    (rootOf l nodes cost).plain = (rootOf l (nodes.map Subtree.plain) cost).plain := by
  have herror : (Subtree.error l 0 cost nodes).plain =
      (Subtree.error l 0 cost (nodes.map Subtree.plain)).plain :=
    plain_error (map_plain_plain nodes).symm
  have hinner (cs : List (Child Subtree)) (n : Int) :
      (plainAll cs).foldl (fun n c => n + c.node.info.dynamicPrecedence) n =
        cs.foldl (fun n c => n + c.node.info.dynamicPrecedence) n := by
    induction cs generalizing n with
    | nil => rfl
    | cons c cs ih => simp [ih, NodeInfo.plain]
  have hchildren : plainAll (nodes.flatMap fun t => if t.info.extra then [⟨none, t⟩] else t.children) =
      plainAll ((nodes.map Subtree.plain).flatMap fun t =>
        if t.info.extra then [⟨none, t⟩] else t.children) := by
    rw [plainAll_flatMap, plainAll_flatMap, List.flatMap_map]
    congr 1
    funext t
    rw [extra_plain]
    split
    · simp
    · simp [plainAll_plainAll]
  unfold rootOf
  rw [filter_extra_plain]
  cases nodes.filter fun t => !t.info.extra with
  | nil => exact herror
  | cons start others =>
    cases others with
    | cons => exact herror
    | nil =>
      simp only [List.map_cons, List.map_nil, symbol_plain]
      split
      · refine plain_node rfl rfl ?_ hchildren
        rw [children_plain, hinner, info_plain]
        rfl
      · exact herror

/-! ## Recovery -/

theorem skippedCost_plain (t : Subtree) : skippedCost t.plain = skippedCost t := by
  simp [skippedCost]

namespace Version

theorem giveUp?_plain (s : Symbol) (stack : List Entry) (after : List Subtree) :
    giveUp? l s (stack.map Entry.plain) (after.map Subtree.plain) =
      (giveUp? l s stack after).map fun p => (p.1.map Subtree.plain, p.2.map Entry.plain) := by
  induction stack generalizing after with
  | nil => rfl
  | cons e stack ih =>
    rw [List.map_cons, giveUp?, giveUp?, stateOf_plain]
    split
    · rfl
    · exact ih (e.node :: after)

theorem insertMissing?_plain (v : Version) (t : Subtree) :
    (v.insertMissing? l t).map plain = (v.plain.insertMissing? l t.plain).map plain := by
  unfold insertMissing?
  simp only [state_plain, symbol_plain]
  cases (l.validTokens (l.lexState v.state)).toList.find? _ with
  | none => rfl
  | some s =>
    simp only [Option.map_map]
    congr 1
    funext next
    simp [push, plain, Function.comp_def]

theorem popUntilValid?_plain (v : Version) (t : Subtree) :
    (v.popUntilValid? l t).map plain = (v.plain.popUntilValid? l t.plain).map plain := by
  have hgiveUp := giveUp?_plain (l := l) t.symbol v.stack []
  rw [List.map_nil] at hgiveUp
  change giveUp? l t.symbol v.plain.stack [] = _ at hgiveUp
  unfold popUntilValid?
  rw [symbol_plain, hgiveUp]
  cases giveUp? l t.symbol v.stack [] with
  | none => rfl
  | some given =>
    obtain ⟨nodes, rest⟩ := given
    have hlost : (nodes.map Subtree.plain).filter (fun t => !t.info.extra || t.isError) =
        (nodes.filter fun t => !t.info.extra || t.isError).map Subtree.plain := by
      rw [List.filter_map]
      congr 2
      funext t
      simp [NodeInfo.plain]
    have hcost : ((nodes.map Subtree.plain).filter fun t => !t.info.extra || t.isError).foldl
          (fun n t => n + skippedCost t) 0 =
        (nodes.filter fun t => !t.info.extra || t.isError).foldl (fun n t => n + skippedCost t) 0 := by
      rw [hlost, List.foldl_map]
      simp [skippedCost_plain]
    have hnodes : (nodes ++ v.pending).map Subtree.plain =
        (nodes.map Subtree.plain ++ v.plain.pending).map Subtree.plain := by
      simp [plain, Function.comp_def]
    have hversion : ({ v with stack := rest } : Version).plain =
        ({ v.plain with stack := rest.map Entry.plain } : Version).plain := by
      rw [← plain_plain]
      rfl
    simp only [Option.map_some, Option.some.injEq, stateOf_plain, hcost]
    have hpush (cost : Nat) :
        (({ v with stack := rest } : Version).push (stateOf rest)
          ((Subtree.error l (stateOf rest) cost (nodes ++ v.pending)).withExtra true)).plain =
        (({ v.plain with stack := rest.map Entry.plain } : Version).push (stateOf rest)
          ((Subtree.error l (stateOf rest) cost
            (nodes.map Subtree.plain ++ v.plain.pending)).withExtra true)).plain := by
      rw [push_plain, push_plain, withExtra_plain, withExtra_plain, plain_error hnodes, hversion]
    generalize recoveryCost + _ = cost
    exact congrArg (fun w : Version => { w with
      errorCost := v.errorCost + cost, pending := [], pendingCost := 0
      recoveredAt := some v.position.bytes, afterExtra := false }) (hpush (cost + v.pendingCost))

theorem skip_plain (v : Version) (t : Subtree) : (v.skip t).plain = v.plain.skip t.plain := by
  simp [skip, plain, skippedCost_plain, NodeInfo.plain]

theorem skipExtra_plain (v : Version) (t : Subtree) :
    (v.skipExtra t).plain = v.plain.skipExtra t.plain := by
  simp [skipExtra, plain]

theorem recoveries_plain (v : Version) (t : Subtree) :
    (v.recoveries l t).map plain = (v.plain.recoveries l t.plain).map plain := by
  have hlist {a b : Option Version} (h : a.map plain = b.map plain) :
      a.toList.map plain = b.toList.map plain := by
    cases a <;> cases b <;> simp_all
  have hinserted := hlist (insertMissing?_plain (l := l) v t)
  have hpopped := hlist (popUntilValid?_plain (l := l) v t)
  have hmissing : (v.plain.missingAt != some v.plain.position.bytes) =
      (v.missingAt != some v.position.bytes) := rfl
  have hrecovered : (v.plain.recoveredAt != some v.plain.position.bytes) =
      (v.recoveredAt != some v.position.bytes) := rfl
  unfold recoveries
  simp only [symbol_plain, pending_plain, hmissing, hrecovered, List.map_append]
  congr 1
  · congr 1
    · split
      · exact hinserted
      · rfl
    · split
      · exact hpopped
      · rfl
  · split
    · simp [skip_plain, plain_plain]
    · rfl

theorem splitAfterLast_map {α β : Type} (f : α → β) (p : β → Bool) (xs : List α) :
    splitAfterLast p (xs.map f) =
      ((splitAfterLast (fun x => p (f x)) xs).1.map f, (splitAfterLast (fun x => p (f x)) xs).2.map f) := by
  simp [splitAfterLast, ← List.map_reverse, List.takeWhile_map, Function.comp_def, List.map_take]

theorem flush_plain (v : Version) : (v.flush l).plain = (v.plain.flush l).plain := by
  have hsplit := splitAfterLast_map Subtree.plain (fun t : Subtree => !t.info.extra) v.pending
  simp only [extra_plain] at hsplit
  change splitAfterLast _ v.plain.pending = _ at hsplit
  unfold flush
  rw [hsplit]
  generalize splitAfterLast (fun t : Subtree => !t.info.extra) v.pending = parts
  obtain ⟨skipped, trailing⟩ := parts
  have herror (state : StateId) (cost : Nat) :
      (if (skipped.map Subtree.plain).isEmpty then []
        else [(Subtree.error l state cost (skipped.map Subtree.plain)).withExtra true]).map
          Subtree.plain =
      (if skipped.isEmpty then []
        else [(Subtree.error l state cost skipped).withExtra true]).map Subtree.plain := by
    rw [List.isEmpty_map]
    split
    · rfl
    · have herror : (Subtree.error l state cost (skipped.map Subtree.plain)).plain =
          (Subtree.error l state cost skipped).plain := plain_error (map_plain_plain skipped)
      simp [herror]
  have hversion : ({ v with pending := [], pendingCost := 0 } : Version).plain =
      ({ v.plain with pending := [], pendingCost := 0 } : Version).plain := by
    rw [← plain_plain]
    rfl
  have hpush : (({ v with pending := [], pendingCost := 0 } : Version).pushAll v.state
        ((if skipped.isEmpty then []
          else [(Subtree.error l v.state v.pendingCost skipped).withExtra true]) ++ trailing)).plain =
      (({ v.plain with pending := [], pendingCost := 0 } : Version).pushAll v.plain.state
        ((if (skipped.map Subtree.plain).isEmpty then []
          else [(Subtree.error l v.plain.state v.plain.pendingCost
            (skipped.map Subtree.plain)).withExtra true]) ++ trailing.map Subtree.plain)).plain := by
    rw [pushAll_plain, pushAll_plain, hversion, state_plain, pendingCost_plain, List.map_append,
      List.map_append, herror, map_plain_plain]
  exact congrArg (fun w : Version => { w with recoveredAt := some v.position.bytes }) hpush

end Version

theorem isShiftableExtra_plain (t : Subtree) :
    Run.isShiftableExtra l t.plain = Run.isShiftableExtra l t := by
  simp [Run.isShiftableExtra, NodeInfo.plain]

theorem actionsFor_plain (state : StateId) (t : Subtree) :
    Run.actionsFor l state t.plain = Run.actionsFor l state t := by
  simp [Run.actionsFor]

/-! ## Finding the token -/

/-- The token before a hypothesis: the one that it has, or the one that stands in the text. -/
def Version.token (l : Language) (text : Bytes) (v : Version) : Subtree :=
  v.lookahead.getD (Parse.token l text (v.site l)).1

/-- What a hypothesis without a token takes from the previous tree. -/
def Version.taken? (l : Language) (v : Version) : Option Subtree :=
  match v.lookahead, v.pending, v.old with
  | none, [], some w => (w.reuse? l v.reuseSite).1
  | _, _, _ => none

/-- What a hypothesis takes from the previous tree is the token that stands in the text. -/
def Version.TakesToken (l : Language) (text : Bytes) (v : Version) : Prop :=
  ∀ t, v.taken? l = some t → t.plain = (Parse.token l text (v.site l)).1.plain

instance (l : Language) (text : Bytes) (v : Version) : Decidable (v.TakesToken l text) :=
  match h : v.taken? l with
  | none => isTrue (by simp [Version.TakesToken, h])
  | some t => decidable_of_iff (t.plain = (Parse.token l text (v.site l)).1.plain)
      (by simp [Version.TakesToken, h])

variable {text : Bytes} {w : Version}

theorem Version.takesToken_of_old (h : v.old = none) : v.TakesToken l text := by
  intro t ht
  unfold Version.taken? at ht
  rw [h] at ht
  split at ht <;> contradiction

theorem Version.site_plain (v : Version) : v.plain.site l = v.site l := by
  unfold Version.site
  rw [Version.pending_plain, Version.state_plain]
  rfl

theorem Version.token_plain (v : Version) :
    (v.plain.token l text).plain = (v.token l text).plain := by
  unfold Version.token
  rw [Version.site_plain]
  show ((v.lookahead.map Subtree.plain).getD _).plain = _
  cases v.lookahead with
  | none => rfl
  | some t => exact Subtree.plain_plain t

/-- A plain hypothesis with the token before it. -/
def Version.withToken (l : Language) (text : Bytes) (v : Version) : Version :=
  { v.plain with lookahead := some (v.token l text).plain }

theorem Version.withToken_eq_of_plain_eq {v' : Version} (h : v.plain = v'.plain) :
    v.withToken l text = v'.withToken l text := by
  unfold Version.withToken
  rw [← Version.token_plain v, h, Version.token_plain]

theorem Fetched.plain_token (h : Fetched l text v t w) (hv : v.TakesToken l text) :
    t.plain = (v.token l text).plain := by
  unfold Version.token
  cases h with
  | kept h => rw [h, Option.getD_some]
  | lexed h ho => rw [h, Option.getD_none]
  | reused h ho hp hr =>
    rw [h, Option.getD_none]
    refine hv t ?_
    unfold Version.taken?
    rw [h, ho, hp]
    exact congrArg Prod.fst hr

/-- Finding the token of the text leaves the rest of a hypothesis as it is. -/
theorem Fetched.plain_eq (h : Fetched l text v t w) (hv : v.TakesToken l text) :
    w.plain = v.withToken l text := by
  unfold Version.withToken
  rw [← h.plain_token hv]
  cases h with
  | kept h => simp [Version.plain, h]
  | reused h ho hp hr => rfl
  | lexed h ho => rfl

/-- Ending an error counts no reduction. -/
theorem Version.reductions_flush (v : Version) : (v.flush l).reductions = v.reductions := by
  obtain ⟨_, _, h⟩ := Version.flush_eq (l := l) v
  rw [h]

theorem Fetched.reductions_eq (h : Fetched l text v t w) : w.reductions = v.reductions := by
  cases h <;> rfl

/-! ## Without a previous tree -/

/-- A hypothesis that does not know the previous tree does not get to know it. -/
theorem Fetched.old_eq_none (h : Fetched l text v t w) (hold : v.old = none) : w.old = none := by
  cases h with
  | kept h => exact hold
  | reused h ho hp hr =>
    rw [hold] at ho
    contradiction
  | lexed h ho =>
    cases ho with
    | not => exact hold
    | inVain ho h =>
      rw [hold] at ho
      contradiction

theorem Acts.old_eq_none (h : Acts l v t w) (hold : v.old = none) : w.old = none := by
  cases h with
  | shift => exact hold
  | reduce _ _ _ hw =>
    obtain ⟨_, _, _, rfl⟩ := Version.reduce_eq hw
    exact hold
  | shiftExtra => exact hold
  | drop => rfl
  | recover _ hw => exact (Version.eq_of_mem_recoveries hw).2.trans hold

theorem Next.old_eq_none (h : Next l v t w) (hold : v.old = none) : w.old = none := by
  cases h with
  | act _ hw => exact hw.old_eq_none hold
  | flush _ _ hw =>
    obtain ⟨_, _, hflush⟩ := Version.flush_eq (l := l) v
    refine hw.old_eq_none ?_
    rw [hflush]
    exact hold
  | skipExtra => exact hold
  | recover _ hw => exact (Version.eq_of_mem_recoveries hw).2.trans hold

/-- Condensing does not see the token, nor what only reuse depends on. -/
theorem Version.unseen_withToken : Unseen (Version.withToken l text) where
  canMerge v w := by
    have hstates (v : Version) : v.plain.stack.map Entry.state = v.stack.map Entry.state := by
      simp [plain, Entry.plain, Function.comp_def]
    show v.plain.canMerge w.plain = v.canMerge w
    unfold canMerge
    rw [hstates, hstates, pending_plain, pending_plain]
    rfl
  isBetter _ _ := rfl
  errorCost _ := rfl
  halted _ := rfl

end Glr.Parse
