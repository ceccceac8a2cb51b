import Glr.Automaton.Closure
import Glr.Log
import Glr.Sorted

/-!
# Glr.Automaton.ItemSets

The states of the automaton.  Kernels with the same items are merged, their
lookaheads united, except where a token valid in only one of them competes
with a token valid in the other: the tokens looked for in a state are the
valid ones, so such a merge would let one context take the other's text.

A state whose lookaheads grow is expanded again.
-/

namespace Glr.Automaton

/-- The states built so far. -/
structure ItemSets where
  kernels : Array Kernel
  /-- The tokens that were valid in the kernels merged into each state. -/
  valid : Array TokenSet
  /-- The successors of each state, by symbol in increasing order. -/
  transitions : Array (List (Symbol × StateId))
  /-- Whether each state waits to be expanded. -/
  queued : Array Bool
  /-- The states that wait, first those at the front. -/
  front : List StateId
  /-- Those that came last, the last one first. -/
  back : List StateId
  /-- The states with given items, in increasing order; the first entry for some items counts. -/
  byCore : List (List Item × List StateId)
  /-- How often kernels of the same items were kept apart. -/
  splits : Nat

/-- The items of a kernel. -/
def core (k : Kernel) : List Item := k.map LookItem.item

/-- The order of items in a kernel. -/
def Item.le (i j : Item) : Bool :=
  i.production < j.production || (i.production == j.production && i.dot ≤ j.dot)

/-- The lookaheads of one kernel added to those of another with the same items. -/
def mergeLookaheads (into added : Kernel) : Kernel :=
  into.zipWith (fun i j => { i with lookahead := i.lookahead.union j.lookahead }) added

/-- Whether one kernel holds the lookaheads of another with the same items. -/
def coversLookaheads (big small : Kernel) : Bool :=
  (big.zip small).all fun p => p.2.lookahead.subset p.1.lookahead

namespace Basis

variable (b : Basis)

/-- Whether some token of `one` that is not in `other` competes with a token of
`other`. -/
def clashes (one other : TokenSet) : Bool :=
  (one.toList b.terminalCount).any fun t =>
    !other.contains t && !TokenSet.disjoint (b.overlaps[t]?.getD TokenSet.empty) other

/-- Whether states with these valid tokens may be merged. -/
def compatible (left right : TokenSet) : Bool := !b.clashes left right && !b.clashes right left

/-- The items of a closure moved over a symbol. -/
def advanceOver (closure : List LookItem) (s : Symbol) : Kernel :=
  SortedList.sort (fun i j => i.item.le j.item) (closure.filterMap fun i =>
    if b.next? i.item == some s then some ⟨⟨i.item.production, i.item.dot + 1⟩, i.lookahead⟩
    else none)

/-- The symbols at the positions of some items, in increasing order. -/
def nextSymbols (closure : List LookItem) : List Symbol :=
  (SortedList.sort (· ≤ ·) (closure.filterMap fun i => b.next? i.item)).eraseReps

/-- The successor kernels of a kernel. -/
def successors (k : Kernel) : List (Symbol × Kernel) :=
  let closure := b.closure k
  (b.nextSymbols closure).map fun s => (s, b.advanceOver closure s)

end Basis

namespace ItemSets

/-- The kernel `S' → . start` before the end of the input. -/
def startKernel : Kernel := [⟨⟨0, 0⟩, TokenSet.singleton endSymbol⟩]

/-- The start state alone. -/
def initial (b : Basis) : ItemSets where
  kernels := #[startKernel]
  valid := #[b.validTerminals startKernel]
  transitions := #[[]]
  queued := #[true]
  front := [0]
  back := []
  byCore := [(core startKernel, [0])]
  splits := 0

/-- The states with the same items as a kernel. -/
def withCore (s : ItemSets) (k : Kernel) : List StateId := (s.byCore.lookup (core k)).getD []

/-- Has a state expanded again, unless it waits already. -/
def enqueue (s : ItemSets) (state : StateId) : ItemSets :=
  if s.queued[state]?.getD true then s
  else { s with queued := s.queued.setIfInBounds state true, back := state :: s.back }

/-- Sets the successor of a state. -/
def connect (s : ItemSets) (state : StateId) (symbol : Symbol) (target : StateId) : ItemSets :=
  { s with
    transitions := s.transitions.modify state fun ts =>
      ts.filter (fun t => t.1 < symbol) ++ (symbol, target) :: ts.filter (fun t => symbol < t.1) }

/-- Merges a kernel into a state. -/
def merge (s : ItemSets) (target : StateId) (k : Kernel) (valid : TokenSet) : ItemSets :=
  match s.kernels[target]? with
  | none => s
  | some old =>
    let grown := !coversLookaheads old k
    let s := { s with
      kernels := if grown then s.kernels.setIfInBounds target (mergeLookaheads old k) else s.kernels
      valid := s.valid.modify target (TokenSet.union · valid) }
    if grown then s.enqueue target else s

/-- Adds a state. -/
def create (s : ItemSets) (k : Kernel) (valid : TokenSet) : ItemSets :=
  { s with
    kernels := s.kernels.push k
    valid := s.valid.push valid
    transitions := s.transitions.push []
    queued := s.queued.push true
    byCore := (core k, s.withCore k ++ [s.kernels.size]) :: s.byCore
    back := s.kernels.size :: s.back }

/-- Finds or makes the state of a successor kernel. -/
def arrive (b : Basis) (state : StateId) (s : ItemSets) (successor : Symbol × Kernel) : ItemSets :=
  let (symbol, k) := successor
  let valid := b.validTerminals k
  let same := s.withCore k
  match same.find? fun i => b.compatible (s.valid[i]?.getD TokenSet.empty) valid with
  | some target => (s.merge target k valid).connect state symbol target
  | none =>
    let s := if same.isEmpty then s else { s with splits := s.splits + 1 }
    (s.create k valid).connect state symbol s.kernels.size

/-- The state to expand next. -/
def next? (s : ItemSets) : Option (StateId × ItemSets) :=
  match s.front with
  | state :: front => some (state, { s with front })
  | [] =>
    match s.back.reverse with
    | state :: front => some (state, { s with front, back := [] })
    | [] => none

/-- Expands a state. -/
def expand (b : Basis) (s : ItemSets) (state : StateId) : ItemSets :=
  let s := { s with queued := s.queued.setIfInBounds state false }
  match s.kernels[state]? with
  | some k => (b.successors k).foldl (arrive b state) s
  | none => s

/-- Expands states until none waits; `fuel` bounds how many are expanded. -/
def run (b : Basis) : Nat → ItemSets → ItemSets
  | 0, s => s
  | fuel + 1, s =>
    match s.next? with
    | none => s
    | some (state, s) => run b fuel (s.expand b state)

/-- More expansions than a construction can need: for each set of items and
each set of valid tokens there is at most one state, and it grows at most once
for each item and token. -/
def bound (b : Basis) : Nat :=
  Nat.pow 2 (b.itemCount + b.terminalCount) * (b.itemCount * b.terminalCount + 2)

/-- The states of the automaton of a grammar. -/
def ofBasis (b : Basis) : ItemSets := run b (bound b) (initial b)

/-- The report on the states. -/
def event (s : ItemSets) : Log.Event :=
  ⟨.debug, "built LR(1) item sets", [("states", .nat s.kernels.size), ("splits", .nat s.splits)]⟩

end ItemSets

end Glr.Automaton
