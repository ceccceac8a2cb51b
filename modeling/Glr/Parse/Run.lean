import Glr.Parse.Condense
import Glr.Parse.Move
import Glr.Parse.Recovery
import Glr.Parse.Token
import Glr.Tree.Basic

/-!
# Glr.Parse.Run

A parse.  Several hypotheses go over the text; in each step the one furthest
behind takes its next token.  Where the table has several actions the
hypothesis splits, where it has none it recovers, and the best hypothesis at the
end of the text gives the tree.

```
run = step; condense; step; condense; …; best tree
```
-/

namespace Glr.Parse

/-- When a parse has to stop early. -/
structure Limits where
  /-- The number of steps it may take. -/
  maxOperations : Option Nat := none
  /-- It was cancelled. -/
  cancelled : Bool := false
  /-- Its time was over at the start. -/
  expired : Bool := false
  deriving DecidableEq, Repr, Inhabited

/-- Whether a parse stops after a number of steps.  The clock is looked at in
every 64th step. -/
def Limits.stop (limits : Limits) (operations : Nat) : Bool :=
  limits.maxOperations.any (operations ≥ ·) || limits.cancelled
    || operations % 64 == 0 && limits.expired

/-- How many reductions a hypothesis may make in one place. -/
def maxReductions : Nat := 4096

/-- The state of a parse. -/
structure Run where
  versions : List Version
  finished : List Finished := []
  stats : Stats := {}
  /-- What happened, the last thing first. -/
  events : List Event := []
  deriving Inhabited

namespace Run

/-- Reports something. -/
def say (r : Run) (e : Event) : Run := { r with events := e :: r.events }

/-- Replaces the hypothesis at a place. -/
def set (r : Run) (i : Nat) (v : Version) : Run := { r with versions := r.versions.set i v }

/-- Adds an outcome. -/
def finish (r : Run) (f : Finished) : Run := { r with finished := r.finished ++ [f] }

variable (l : Language) (text : Bytes)

/-- The token of a hypothesis, and what was done to find it: the one it has, a
subtree of the previous tree, or one from the text.  Between skipped tokens every
token is allowed and nothing is reused. -/
def fetch (r : Run) (i : Nat) (v : Version) : Subtree × Version × Run :=
  match v.lookahead with
  | some t => (t, v, r)
  | none =>
    let site : ReuseSite := ⟨v.position.bytes, v.state, v.afterExtra, v.external⟩
    let (found, old) : Option Subtree × Option OldTree :=
      match v.old with
      | some w =>
        if v.pending.isEmpty then
          let (found, w) := w.reuse? l site
          (found, some w)
        else (none, some w)
      | none => (none, none)
    match found with
    | some t =>
      let v := { v with lookahead := some t, old }
      let stats := { r.stats with
        reused := r.stats.reused + 1, reusedBytes := r.stats.reusedBytes + t.size.bytes }
      let r := r.say (.reused v.position.bytes t.symbol t.size.bytes)
      (t, v, { r.set i v with stats })
    | none =>
      let lexState := if v.pending.isEmpty then l.lexState v.state else errorLexState
      let (t, events) := token l text ⟨v.position, lexState, v.afterExtra, v.external⟩
      let v := { v with lookahead := some t, old }
      let stats := { r.stats with lexed := r.stats.lexed + 1 }
      (t, v, { r.set i v with stats, events := events.reverse ++ r.events })

/-- Whether a token is an extra that may stand here. -/
def isShiftableExtra (t : Subtree) : Bool :=
  t.isLeaf && t.symbol != endSymbol && !t.info.missing && l.isExtra t.symbol

/-- The actions on a token or a reused node. -/
def actionsFor (state : StateId) (t : Subtree) : List ParseAction :=
  if l.isNonterminal t.symbol then (l.goto? state t.symbol).toList.map .shift
  else l.actions state t.symbol

/-- Ends a hypothesis that cannot go on: everything it has becomes an error. -/
def giveUp (r : Run) (i : Nat) (v : Version) : Run :=
  let cost := v.errorCost + recoveryCost
  let root := Subtree.error l 0 recoveryCost (v.nodes ++ v.pending)
  ((r.set i { v with halted := true, pending := [] }).say (.noRecovery i cost)).finish
    ⟨root, cost, v.dynamicPrecedence⟩

/-- Goes all ways on from an error. -/
def recover (r : Run) (i : Nat) (v : Version) (t : Subtree) : Run :=
  let options := v.recoveries l t
  let r := r.say (.recovering i v.position.bytes (l.kindOf t.symbol) options.length)
  match options with
  | [] => r.giveUp l i v
  | first :: rest =>
    let r := r.set i first
    { r with versions := r.versions ++ rest }

/-- Ends a hypothesis that read the whole text. -/
def accept (r : Run) (i : Nat) (v : Version) : Run :=
  (r.set i { v with halted := true }).finish
    ⟨rootOf l v.nodes v.errorCost, v.errorCost, v.dynamicPrecedence⟩

/-- Applies an action to a hypothesis. -/
def apply (r : Run) (i : Nat) (action : ParseAction) (t : Subtree) : Run :=
  match r.versions[i]? with
  | none => r
  | some v =>
    match action with
    | .shift next => (r.say (.shift i next t.symbol)).set i (v.shift next t false)
    | .reduce p =>
      let r := r.say (.reduce i p)
      let v := { v with reductions := v.reductions + 1 }
      if v.reductions > maxReductions then (r.say (.reductionLimit i)).giveUp l i v
      else
        match l.production? p with
        | none => r.recover l i v t
        | some info =>
          match v.reduce l info (r.versions.length > 1) t with
          | .ok v => r.set i v
          | .error v => r.recover l i v t
    | .accept => (r.say (.accept i)).accept l i v

/-- Splits a hypothesis for one more action. -/
def fork (r : Run) (v : Version) (t : Subtree) (action : ParseAction) : Run :=
  let r := { r with
    versions := r.versions ++ [v], stats := { r.stats with forks := r.stats.forks + 1 } }
  r.apply l (r.versions.length - 1) action t

/-- Applies the actions on a token: the first one to the hypothesis itself, the
others to copies of it. -/
def act (r : Run) (i : Nat) (v : Version) (t : Subtree) (actions : List ParseAction) : Run :=
  match actions with
  | [] =>
    if !t.isLeaf then r.set i { v with lookahead := none, old := none }
    else if isShiftableExtra l t then
      (r.say (.shiftExtra v.state t.symbol)).set i (v.shift v.state t true)
    else r.recover l i v t
  | first :: rest => (rest.foldl (fun r action => r.fork l v t action) r).apply l i first t

/-- One step of the hypothesis at a place. -/
def step (r : Run) (i : Nat) : Run :=
  match r.versions[i]? with
  | none => r
  | some v =>
    let (t, v, r) := r.fetch l text i v
    let actions := actionsFor l v.state t
    if v.pending.isEmpty then r.act l i v t actions
    else if actions.isEmpty then
      if isShiftableExtra l t then r.set i (v.skipExtra t) else r.recover l i v t
    else
      let v := v.flush l
      (r.set i v).act l i v t actions

/-- The place of the hypothesis furthest behind, of several the first. -/
def next? (r : Run) : Option Nat :=
  let live := r.versions.zipIdx.filter fun (v, _) => !v.halted
  (firstBest? (fun a b : Version × Nat => a.1.position.bytes < b.1.position.bytes) live).map
    Prod.snd

/-- What the most promising hypothesis has read so far, as an error. -/
def partialTree (r : Run) : Tree :=
  let live := r.versions.filter fun v => !v.halted
  let nodes := match firstBest? Version.isBetter live with
    | some v => v.nodes ++ v.pending
    | none => []
  ⟨Subtree.error l 0 0 nodes, l, false⟩

/-- The tree of the best outcome. -/
def bestTree (r : Run) : Tree :=
  match firstBest? Finished.isBetter r.finished with
  | some f => ⟨f.root, l, true⟩
  | none => r.partialTree l

/-- Goes on until no hypothesis is left or a limit is reached; `fuel` bounds the
steps. -/
def loop (limits : Limits) : Nat → Run → Tree × Run
  | 0, r => (r.partialTree l, r)
  | fuel + 1, r =>
    if limits.stop r.stats.operations then
      (r.partialTree l, r.say (.stopped r.stats.operations))
    else
      match r.next? with
      | none => (r.bestTree l, r.say (.finished r.stats))
      | some i =>
        let r := { r with stats := { r.stats with operations := r.stats.operations + 1 } }
        let r := r.step l text i
        loop limits fuel { r with versions := condense r.versions r.finished }

/-- The start of a parse, with a walk over the previous tree if there is one. -/
def start (old : Option Subtree) : Run where
  versions := [{ old := old.map OldTree.ofRoot }]

/-- More steps than a parse can take.  A hypothesis has fewer than 65536 moves
in one place before it takes text or ends, and each of its at most `maxVersions`
neighbours has no more. -/
def stepBound : Nat := Nat.pow ((text.size + 1) * 65536) (maxVersions + 1)

end Run

end Glr.Parse
