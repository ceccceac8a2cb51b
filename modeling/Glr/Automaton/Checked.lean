import Glr.Automaton.Cells

/-!
# Glr.Automaton.Checked

The construction as it runs, with every index checked.  A look-up answers `none` where its index
is out of range, and then the whole construction does: it is given up, without an error.

A production is looked up by the number of an item less one; there is none for an item of
`S' → start`.
-/

namespace Glr.Automaton

/-- Changes the entry at an index. -/
def modifyAt? {α : Type} (xs : Array α) (i : Nat) (f : α → α) : Option (Array α) :=
  if i < xs.size then some (xs.modify i f) else none

namespace FirstSets

/-- The tokens that some symbols followed by an element of `follow` can begin with. -/
def firstOfAll? (f : FirstSets) (follow : TokenSet) : List Symbol → Option TokenSet
  | [] => some follow
  | s :: rest => do
    let first ← f.first[s]?
    if ← f.nullable[s]? then return first.union (← f.firstOfAll? follow rest) else return first

/-- The symbols that can be empty, with the left-hand side of a production if it can. -/
def addNullable? (f : FirstSets) (p : Production) : Option (Array Bool) :=
  if p.rhs.all f.isNullable then modifyAt? f.nullable p.lhs fun _ => true else some f.nullable

/-- What a production adds. -/
def addProduction? (f : FirstSets) (p : Production) : Option FirstSets := do
  let added ← f.firstOfAll? TokenSet.empty p.rhs
  let nullable ← f.addNullable? p
  let first ← modifyAt? f.first p.lhs (TokenSet.union added)
  return { nullable, first }

/-- What all productions add. -/
def round? (g : FlatGrammar) (f : FirstSets) : Option FirstSets :=
  g.productions.toList.foldlM addProduction? f

/-- Repeats rounds until nothing changes; `fuel` bounds their number. -/
def saturate? (g : FlatGrammar) : Nat → FirstSets → Option FirstSets
  | 0, f => some f
  | fuel + 1, f => do
    let next ← round? g f
    if next = f then return f else saturate? g fuel next

/-- What the productions of a grammar imply. -/
def ofGrammar? (g : FlatGrammar) : Option FirstSets := saturate? g (bound g + 1) (start g)

end FirstSets

/-! ## Closures -/

namespace Basis

/-- What the construction looks up for a grammar. -/
def ofGrammar? (g : FlatGrammar) : Option Basis := do
  let terminalCount := max 1 (countTerminals g)
  let byLhs ← g.productions.toList.zipIdx.foldlM
    (fun lists p => modifyAt? lists p.1.lhs (· ++ [p.2 + 1]))
    (Array.replicate g.symbols.size [])
  let firstSets ← FirstSets.ofGrammar? g
  return {
    grammar := g
    rhs := #[[g.start]] ++ g.productions.map Production.rhs
    byLhs
    firstSets
    terminalCount
    overlaps := Automaton.overlaps g terminalCount }

variable (b : Basis)

/-- The right-hand side of a production after a position. -/
def after? (i : Item) : Option (List Symbol) := (b.rhs[i.production]?).map fun r => r.drop i.dot

/-- The productions that an item asks for, if any, and the tokens that may follow them. -/
def expands? (i : LookItem) : Option (Option (List Nat × TokenSet)) := do
  match ← b.after? i.item with
  | [] => return none
  | s :: rest =>
    if b.isTerminal s then return none
    else
      let follow ← b.firstSets.firstOfAll? i.lookahead rest
      let ps ← b.byLhs[s]?
      return some (ps, follow)

end Basis

namespace Closure

/-- What the item at a place asks for. -/
def visit? (b : Basis) (s : State) (place : Nat) : Option State := do
  let i ← s.items[place]?
  match ← b.expands? i with
  | some (ps, follow) => return ps.foldl (demand follow) s
  | none => return s

/-- Visits the places in `pending` and then those that have grown, until none
has; `fuel` bounds the rounds. -/
def run? (b : Basis) : Nat → List Nat → Array LookItem → Option (Array LookItem)
  | 0, _, items => some items
  | fuel + 1, pending, items =>
    if pending.isEmpty then some items
    else do
      let s ← pending.foldlM (visit? b) ⟨items, #[]⟩
      run? b fuel s.grown.toList s.items

end Closure

namespace Basis

variable (b : Basis)

/-- The closure of a kernel. -/
def closure? (k : Kernel) : Option (List LookItem) :=
  let bound := (k.length + b.rhs.size) * (b.terminalCount + 1)
  (Closure.run? b (bound + 1) (List.range k.length) k.toArray).map Array.toList

/-- Adds the tokens that an item of a closure looks for. -/
def addValid? (valid : TokenSet) (i : LookItem) : Option TokenSet := do
  match ← b.after? i.item with
  | s :: _ => return if b.isTerminal s then valid.insert s else valid
  | [] => return valid.union i.lookahead

/-- The tokens that are looked for in a state with this kernel. -/
def validTerminals? (k : Kernel) : Option TokenSet := do
  (← b.closure? k).foldlM b.addValid? TokenSet.empty

/-- Whether some token of `one` that is not in `other` competes with a token of
`other`. -/
def clashes? (one other : TokenSet) : Option Bool :=
  ((one.toList b.terminalCount).filter fun t => !other.contains t).anyM fun t =>
    (b.overlaps[t]?).map fun set => !set.disjoint other

/-- Whether states with these valid tokens may be merged. -/
def compatible? (left right : TokenSet) : Option Bool := do
  if ← b.clashes? left right then return false else return !(← b.clashes? right left)

/-- The successor kernels of a kernel. -/
def successors? (k : Kernel) : Option (List (Symbol × Kernel)) := do
  let closure ← b.closure? k
  let _ ← closure.mapM fun i => b.after? i.item
  return (b.nextSymbols closure).map fun s => (s, b.advanceOver closure s)

end Basis

/-! ## States -/

namespace ItemSets

/-- Has a state expanded again, unless it waits already. -/
def enqueue? (s : ItemSets) (state : StateId) : Option ItemSets := do
  if ← s.queued[state]? then return s
  else return { s with queued := s.queued.setIfInBounds state true, back := state :: s.back }

/-- Sets the successor of a state. -/
def connect? (s : ItemSets) (state : StateId) (symbol : Symbol) (target : StateId) :
    Option ItemSets := do
  let transitions ← modifyAt? s.transitions state fun ts =>
    ts.filter (fun t => t.1 < symbol) ++ (symbol, target) :: ts.filter (fun t => symbol < t.1)
  return { s with transitions }

/-- Merges a kernel into a state. -/
def merge? (s : ItemSets) (target : StateId) (k : Kernel) (valid : TokenSet) :
    Option ItemSets := do
  let old ← s.kernels[target]?
  let grown := !coversLookaheads old k
  let united ← modifyAt? s.valid target (TokenSet.union · valid)
  let s := { s with
    kernels := if grown then s.kernels.setIfInBounds target (mergeLookaheads old k) else s.kernels
    valid := united }
  if grown then s.enqueue? target else return s

/-- Finds or makes the state of a successor kernel. -/
def arrive? (b : Basis) (state : StateId) (s : ItemSets) (successor : Symbol × Kernel) :
    Option ItemSets := do
  let (symbol, k) := successor
  let valid ← b.validTerminals? k
  let same := s.withCore k
  match ← same.findM? fun i => do b.compatible? (← s.valid[i]?) valid with
  | some target => (← s.merge? target k valid).connect? state symbol target
  | none =>
    let s := if same.isEmpty then s else { s with splits := s.splits + 1 }
    (s.create k valid).connect? state symbol s.kernels.size

/-- Expands a state. -/
def expand? (b : Basis) (s : ItemSets) (state : StateId) : Option ItemSets := do
  let queued ← modifyAt? s.queued state fun _ => false
  let k ← s.kernels[state]?
  (← b.successors? k).foldlM (arrive? b state) { s with queued }

/-- Expands states until none waits; `fuel` bounds how many are expanded. -/
def run? (b : Basis) : Nat → ItemSets → Option ItemSets
  | 0, s => some s
  | fuel + 1, s =>
    match s.next? with
    | none => some s
    | some (state, s) => do run? b fuel (← s.expand? b state)

/-- The start state alone. -/
def initial? (b : Basis) : Option ItemSets := do
  let valid ← b.validTerminals? startKernel
  return {
    kernels := #[startKernel]
    valid := #[valid]
    transitions := #[[]]
    queued := #[true]
    front := [0]
    back := []
    byCore := [(core startKernel, [0])]
    splits := 0 }

/-- The states of the automaton of a grammar. -/
def ofBasis? (b : Basis) : Option ItemSets := do run? b (bound b) (← initial? b)

end ItemSets

/-! ## Entries -/

namespace Offers

/-- Adds what an item of the closure offers. -/
def addItem? (b : Basis) (o : Offers) (i : LookItem) : Option Offers := do
  match ← b.after? i.item with
  | s :: _ =>
    if b.isTerminal s then
      let p ← b.production? i.item.production
      let step ← p.steps[i.item.dot]?
      return o.addShift s p.lhs (step.precedence.getD 0)
    else return o
  | [] =>
    if i.item.production = 0 then return { o with accepts := true }
    else return o.addReduce i.item.production (i.lookahead.toList b.terminalCount)

/-- What a kernel offers. -/
def ofKernel? (b : Basis) (k : Kernel) : Option Offers := do
  (← b.closure? k).foldlM (addItem? b) none

end Offers

namespace Basis

variable (b : Basis)

/-- Resolves the conflict between a shift and some productions, which are looked up where there
is something to resolve. -/
def resolve? (state : StateId) (terminal : Symbol) (shift : Option ShiftChoice)
    (reduces : List Nat) : Option (Bool × List Nat × List Log.Event) :=
  if reduces.length > 1 || shift.isSome then do
    let candidates ← reduces.mapM fun p => (b.production? p).map fun q => (p, q)
    let (keepShift, kept) := settle shift candidates
    let events :=
      if kept.length + (if keepShift then 1 else 0) > 1 then
        [b.conflictEvent state terminal (b.involved shift keepShift kept)]
      else []
    return (keepShift, kept.map Prod.fst, events)
  else some (false, reduces, [])

end Basis

namespace Cells

/-- The actions of a state for a token, and the reports on their conflicts. -/
def actionsFor? (b : Basis) (state : StateId) (transitions : List (Symbol × StateId)) (o : Offers)
    (terminal : Symbol) : Option (List ParseAction × List Log.Event) := do
  let accept := if o.accepts && terminal == endSymbol then [ParseAction.accept] else []
  let shift : Option ShiftChoice :=
    match o.shifts.lookup terminal, transitions.lookup terminal with
    | some (precedence, lhs), some target => some ⟨target, precedence, lhs⟩
    | _, _ => none
  let reduces := (o.reduces.lookup terminal).getD []
  let (keepShift, kept, events) ← b.resolve? state terminal shift reduces
  let shifts := match shift with
    | some s => if keepShift then [ParseAction.shift s.target] else []
    | none => []
  return (accept ++ shifts ++ kept.map fun p => .reduce (p - 1), events)

/-- Sets the entry of a symbol in the row of a state; the rows of all `states` states are one
array. -/
def setEntry? (b : Basis) (states : Nat) (state : StateId) (row : Array Nat) (symbol : Symbol)
    (entry : Nat) : Option (Array Nat) :=
  let width := b.grammar.symbols.size
  if state * width + symbol < states * width then some (row.setIfInBounds symbol entry) else none

/-- Fills the entry of a token. -/
def addTerminal? (b : Basis) (states : Nat) (state : StateId)
    (transitions : List (Symbol × StateId)) (o : Offers) (acc : Cells × Array Nat × List Symbol)
    (terminal : Symbol) : Option (Cells × Array Nat × List Symbol) := do
  let (c, row, valid) := acc
  let (actions, events) ← actionsFor? b state transitions o terminal
  let c := { c with log := events.reverse ++ c.log }
  if actions.isEmpty then return (c, row, valid)
  else
    let (id, c) := c.actionListId actions
    return (c, ← setEntry? b states state row terminal id, terminal :: valid)

/-- Adds the row of a state. -/
def addState? (b : Basis) (states : Nat) (c : Cells) (state : StateId) (k : Kernel)
    (transitions : List (Symbol × StateId)) : Option Cells := do
  let o ← Offers.ofKernel? b k
  let (c, row, valid) ← o.terminals.foldlM (addTerminal? b states state transitions o)
    (c, Array.replicate b.grammar.symbols.size 0, [])
  let row ← transitions.foldlM
    (fun row t =>
      if b.isTerminal t.1 then some row else setEntry? b states state row t.1 (t.2 + 1)) row
  let (lexState, c) := c.lexStateId valid.reverse
  return { c with entries := c.entries ++ row, stateLexStates := c.stateLexStates.push lexState }

/-- The rows of all states. -/
def ofItemSets? (b : Basis) (s : ItemSets) : Option Cells :=
  s.kernels.toList.zipIdx.foldlM
    (fun c e => do addState? b s.kernels.size c e.2 e.1 (← s.transitions[e.2]?)) initial

end Cells

end Glr.Automaton
