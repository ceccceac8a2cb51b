import Glr.Automaton.ItemSets
import Glr.Automaton.Resolve

/-!
# Glr.Automaton.Cells

The entries of the table.  For every state, the closure of its kernel offers
shifts, reductions and acceptance; what `Basis.resolve` leaves of them is
numbered, equal lists of actions and equal lists of valid tokens sharing one
number.
-/

namespace Glr.Automaton

/-- What a state offers for its tokens. -/
structure Offers where
  /-- The shifts by token: highest precedence and left-hand sides. -/
  shifts : List (Symbol × Int × List Symbol)
  /-- The reductions by token, in the order of the closure. -/
  reduces : List (Symbol × List Nat)
  accepts : Bool

/-- The least 32-bit integer. -/
def lowestPrecedence : Int := -2147483648

/-- Changes the value of a key in a list sorted by keys, or adds it. -/
def alter {α : Type} (key : Symbol) (f : Option α → α) : List (Symbol × α) → List (Symbol × α)
  | [] => [(key, f none)]
  | e :: es =>
    if key < e.1 then (key, f none) :: e :: es
    else if key = e.1 then (key, f (some e.2)) :: es
    else e :: alter key f es

namespace Offers

/-- A state without items offers nothing. -/
def none : Offers := ⟨[], [], false⟩

/-- Adds a symbol to an increasing list. -/
def insertSorted (s : Symbol) : List Symbol → List Symbol
  | [] => [s]
  | t :: ts => if s < t then s :: t :: ts else if s = t then t :: ts else t :: insertSorted s ts

/-- Adds a shift of a production. -/
def addShift (o : Offers) (terminal lhs : Symbol) (precedence : Int) : Offers :=
  { o with
    shifts := alter terminal
      (fun old =>
        match old with
        | some (p, ls) => (max p precedence, insertSorted lhs ls)
        | Option.none => (max lowestPrecedence precedence, [lhs]))
      o.shifts }

/-- Adds a reduction for some tokens. -/
def addReduce (o : Offers) (production : Nat) (terminals : List Symbol) : Offers :=
  { o with
    reduces := terminals.foldl
      (fun rs t => alter t (fun old => old.getD [] ++ [production]) rs) o.reduces }

/-- Adds what an item of the closure offers. -/
def addItem (b : Basis) (o : Offers) (i : LookItem) : Offers :=
  match b.next? i.item with
  | some s =>
    if b.isTerminal s then
      match b.production? i.item.production with
      | some p =>
        o.addShift s p.lhs (((p.steps[i.item.dot]?).bind Step.precedence).getD 0)
      | Option.none => o
    else o
  | Option.none =>
    if i.item.production = 0 then { o with accepts := true }
    else o.addReduce i.item.production (i.lookahead.toList b.terminalCount)

/-- What a kernel offers. -/
def ofKernel (b : Basis) (k : Kernel) : Offers := (b.closure k).foldl (addItem b) none

/-- The tokens something is offered for, in increasing order. -/
def terminals (o : Offers) : List Symbol :=
  let accepted := if o.accepts then [endSymbol] else []
  (SortedList.sort (· ≤ ·)
    (o.shifts.map Prod.fst ++ o.reduces.map Prod.fst ++ accepted)).eraseReps

end Offers

/-- The table under construction. -/
structure Cells where
  entries : Array Nat
  actionLists : Array (List ParseAction)
  lexStates : Array (List Symbol)
  stateLexStates : Array Nat
  /-- The reports, the last one first. -/
  log : List Log.Event

namespace Cells

/-- No states yet; the empty list of actions is list zero. -/
def initial : Cells := ⟨#[], #[[]], #[], #[], []⟩

/-- The number of a list of actions, a new one if need be. -/
def actionListId (c : Cells) (actions : List ParseAction) : Nat × Cells :=
  match c.actionLists.idxOf? actions with
  | some id => (id, c)
  | none => (c.actionLists.size, { c with actionLists := c.actionLists.push actions })

/-- The number of a list of valid tokens, a new one if need be. -/
def lexStateId (c : Cells) (valid : List Symbol) : Nat × Cells :=
  match c.lexStates.idxOf? valid with
  | some id => (id, c)
  | none => (c.lexStates.size, { c with lexStates := c.lexStates.push valid })

/-- The actions of a state for a token, and the reports on their conflicts. -/
def actionsFor (b : Basis) (state : StateId) (transitions : List (Symbol × StateId)) (o : Offers)
    (terminal : Symbol) : List ParseAction × List Log.Event :=
  let accept := if o.accepts && terminal == endSymbol then [ParseAction.accept] else []
  let shift : Option ShiftChoice :=
    match o.shifts.lookup terminal, transitions.lookup terminal with
    | some (precedence, lhs), some target => some ⟨target, precedence, lhs⟩
    | _, _ => none
  let reduces := (o.reduces.lookup terminal).getD []
  let (keepShift, kept, events) := b.resolve state terminal shift reduces
  let shifts := match shift with
    | some s => if keepShift then [ParseAction.shift s.target] else []
    | none => []
  (accept ++ shifts ++ kept.map fun p => .reduce (p - 1), events)

/-- Fills the entry of a token; `row` is the row so far, `valid` the tokens with
actions so far in reverse. -/
def addTerminal (b : Basis) (state : StateId) (transitions : List (Symbol × StateId)) (o : Offers)
    (acc : Cells × Array Nat × List Symbol) (terminal : Symbol) : Cells × Array Nat × List Symbol :=
  let (c, row, valid) := acc
  let (actions, events) := actionsFor b state transitions o terminal
  let c := { c with log := events.reverse ++ c.log }
  if actions.isEmpty then (c, row, valid)
  else
    let (id, c) := c.actionListId actions
    (c, row.setIfInBounds terminal id, terminal :: valid)

/-- Adds the row of a state. -/
def addState (b : Basis) (c : Cells) (state : StateId) (k : Kernel)
    (transitions : List (Symbol × StateId)) : Cells :=
  let o := Offers.ofKernel b k
  let (c, row, valid) := o.terminals.foldl (addTerminal b state transitions o)
    (c, Array.replicate b.grammar.symbols.size 0, [])
  let row := transitions.foldl
    (fun row t => if b.isTerminal t.1 then row else row.setIfInBounds t.1 (t.2 + 1)) row
  let (lexState, c) := c.lexStateId valid.reverse
  { c with entries := c.entries ++ row, stateLexStates := c.stateLexStates.push lexState }

/-- The report on a finished table. -/
def event (c : Cells) : Log.Event :=
  ⟨.debug, "built parse table", [("states", .nat c.stateLexStates.size),
    ("action_lists", .nat c.actionLists.size), ("lex_states", .nat c.lexStates.size)]⟩

/-- The rows of all states. -/
def ofItemSets (b : Basis) (s : ItemSets) : Cells :=
  (s.kernels.zip s.transitions).toList.zipIdx.foldl
    (fun c e => c.addState b e.2 e.1.1 e.1.2) initial

end Cells

end Glr.Automaton
