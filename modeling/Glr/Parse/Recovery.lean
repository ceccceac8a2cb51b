import Glr.Parse.Version

/-!
# Glr.Parse.Recovery

What a hypothesis can do when no action takes its token.  There are up to three
ways on, and all of them are followed:

* put in a token that is missing;
* give up the nodes on top of the stack until the token fits;
* skip the token.

Every way has its cost, and the cost decides which hypothesis lives.
-/

namespace Glr.Parse

/-- The cost of an error. -/
def recoveryCost : Nat := 500

/-- The cost of a missing token. -/
def missingCost : Nat := 110

/-- The cost of skipping a node: for itself, its bytes and its lines. -/
def skippedCost (t : Subtree) : Nat := 100 + t.size.bytes + 30 * t.size.extent.row

namespace Version

variable (l : Language)

/-- Puts in the first token after which the next one fits. -/
def insertMissing? (v : Version) (token : Subtree) : Option Version :=
  let state := v.state
  let leads (s : Symbol) : Bool := (l.actions state s).any fun
    | .shift next => l.hasActions next token.symbol
    | _ => false
  let found := (l.validTokens (l.lexState state)).toList.find? fun s =>
    s != endSymbol && !l.isExtra s && leads s
  match found with
  | none => none
  | some s =>
    let next? := (l.actions state s).findSome? fun
      | .shift next => some next
      | _ => none
    next?.map fun next =>
      { v.push next (.missing l s state missingCost) with
        errorCost := v.errorCost + missingCost
        missingAt := some v.position.bytes
        afterExtra := false }

/-- The fewest nodes, one at least, to take off a stack so that a token fits:
those nodes in the order of the text, in front of `after`, and the rest. -/
def giveUp? (s : Symbol) : List Entry → List Subtree → Option (List Subtree × List Entry)
  | [], _ => none
  | e :: stack, after =>
    if l.hasActions (stateOf stack) s then some (e.node :: after, stack)
    else giveUp? s stack (e.node :: after)

/-- Nodes are given up from the top of the stack in one piece, down to a state in
which the token fits. -/
theorem giveUp?_eq_some {l : Language} {s : Symbol} {stack rest : List Entry}
    {after nodes : List Subtree} (h : giveUp? l s stack after = some (nodes, rest)) :
    ∃ taken, stack = taken ++ rest ∧ nodes = (taken.map Entry.node).reverse ++ after
      ∧ l.hasActions (stateOf rest) s = true := by
  induction stack generalizing after with
  | nil => simp [giveUp?] at h
  | cons e stack ih =>
    rw [giveUp?] at h
    split at h
    · rename_i ha
      simp only [Option.some.injEq, Prod.mk.injEq] at h
      obtain ⟨rfl, rfl⟩ := h
      exact ⟨[e], rfl, rfl, ha⟩
    · obtain ⟨taken, hs, hn, ha⟩ := ih h
      exact ⟨e :: taken, by simp [hs], by simp [hn], ha⟩

/-- Gives up nodes until the token fits.  They and what was skipped become an
error node. -/
def popUntilValid? (v : Version) (token : Subtree) : Option Version :=
  (giveUp? l token.symbol v.stack []).map fun (nodes, stack) =>
    let lost := nodes.filter fun t => !t.info.extra || t.isError
    let cost := recoveryCost + lost.foldl (fun n t => n + skippedCost t) 0
    let state := stateOf stack
    let error := Subtree.error l state (cost + v.pendingCost) (nodes ++ v.pending)
    { ({ v with stack } : Version).push state (error.withExtra true) with
      errorCost := v.errorCost + cost
      pending := []
      pendingCost := 0
      recoveredAt := some v.position.bytes
      afterExtra := false }

/-- Skips the token. -/
def skip (v : Version) (token : Subtree) : Version :=
  let cost := skippedCost token + if v.pending.isEmpty then recoveryCost else 0
  { v with
    pending := v.pending ++ [token]
    pendingCost := v.pendingCost + cost
    errorCost := v.errorCost + cost
    position := v.position + token.size
    lookahead := none
    afterExtra := false
    reductions := 0
    external := token.info.lastExternal.getD v.external }

/-- Skips an extra between skipped tokens, which costs nothing. -/
def skipExtra (v : Version) (token : Subtree) : Version :=
  { v with
    position := v.position + token.size
    pending := v.pending ++ [token.withExtra true]
    lookahead := none
    afterExtra := true
    reductions := 0 }

/-- The ways on: a token is put in or nodes are given up at most once in one
place, and the end of the text cannot be skipped. -/
def recoveries (v : Version) (token : Subtree) : List Version :=
  let position := v.position.bytes
  let atEnd := token.symbol == endSymbol
  let inserted :=
    if !atEnd && v.pending.isEmpty && v.missingAt != some position then
      (v.insertMissing? l token).toList
    else []
  let popped := if v.recoveredAt != some position then (v.popUntilValid? l token).toList else []
  let skipped := if !atEnd then [v.skip token] else []
  inserted ++ popped ++ skipped

/-- The longest part of a list that ends in an element with a property, and the
rest. -/
def splitAfterLast {α : Type} (p : α → Bool) (xs : List α) : List α × List α :=
  let rest := (xs.reverse.takeWhile fun x => !p x).reverse
  (xs.take (xs.length - rest.length), rest)

theorem splitAfterLast_append {α : Type} (p : α → Bool) (xs : List α) :
    (splitAfterLast p xs).1 ++ (splitAfterLast p xs).2 = xs := by
  obtain ⟨ys, hy⟩ := List.takeWhile_prefix (fun x => !p x) (l := xs.reverse)
  have hx : xs = ys.reverse ++ (xs.reverse.takeWhile fun x => !p x).reverse := by
    rw [← List.reverse_append, hy, List.reverse_reverse]
  have hl : xs.length - (xs.reverse.takeWhile fun x => !p x).reverse.length
      = ys.reverse.length := by
    have := congrArg List.length hx
    simp only [List.length_append] at this
    omega
  simp only [splitAfterLast, hl]
  conv => lhs; arg 1; rw [hx]
  rw [List.take_left', ← hx]
  rfl

/-- Ends an error: the skipped tokens become an error node, extras after the last
of them apart. -/
def flush (v : Version) : Version :=
  let (skipped, trailing) := splitAfterLast (fun t : Subtree => !t.info.extra) v.pending
  let state := v.state
  let error :=
    if skipped.isEmpty then [] else [(Subtree.error l state v.pendingCost skipped).withExtra true]
  { ({ v with pending := [], pendingCost := 0 } : Version).pushAll state (error ++ trailing) with
    recoveredAt := some v.position.bytes }

end Version

end Glr.Parse
