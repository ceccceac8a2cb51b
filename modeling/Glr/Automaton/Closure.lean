import Glr.Automaton.First

/-!
# Glr.Automaton.Closure

Items and their closure.  An item is a production with a position in its
right-hand side; it carries the tokens that may follow the production.  Where
the position stands before a nonterminal `B`, the closure holds every
production of `B`, followed by whatever can begin the rest.

Production 0 is `S' → start`; production `p + 1` is production `p` of the
grammar.
-/

namespace Glr.Automaton

/-- What the construction looks up. -/
structure Basis where
  grammar : FlatGrammar
  /-- The right-hand sides, that of `S' → start` first. -/
  rhs : Array (List Symbol)
  /-- The productions of each symbol. -/
  byLhs : Array (List Nat)
  firstSets : FirstSets
  /-- All tokens are below this. -/
  terminalCount : Nat
  overlaps : Array TokenSet

/-- A production and a position in its right-hand side. -/
structure Item where
  production : Nat
  dot : Nat
  deriving DecidableEq, Repr, Inhabited

/-- An item with the tokens that may follow its production. -/
structure LookItem where
  item : Item
  lookahead : TokenSet
  deriving DecidableEq, Repr, Inhabited

/-- The items that a state is made of. -/
abbrev Kernel := List LookItem

namespace Basis

/-- One more than the largest token. -/
def countTerminals (g : FlatGrammar) : Nat :=
  (List.range g.symbols.size).foldl (fun n s => if g.isTerminal s then s + 1 else n) 0

/-- What the construction looks up for a grammar. -/
def ofGrammar (g : FlatGrammar) : Basis :=
  let terminalCount := max 1 (countTerminals g)
  { grammar := g
    rhs := #[[g.start]] ++ g.productions.map Production.rhs
    byLhs := g.productions.toList.zipIdx.foldl
      (fun lists p => lists.modify p.1.lhs (· ++ [p.2 + 1]))
      (Array.replicate g.symbols.size [])
    firstSets := FirstSets.ofGrammar g
    terminalCount
    overlaps := Automaton.overlaps g terminalCount }

variable (b : Basis)

/-- Whether a symbol is a token. -/
def isTerminal (s : Symbol) : Bool := s < b.terminalCount && b.grammar.isTerminal s

/-- A production of the grammar; `S' → start` is none. -/
def production? (p : Nat) : Option Production :=
  match p with
  | 0 => none
  | p + 1 => b.grammar.productions[p]?

/-- The right-hand side of a production after a position. -/
def after (i : Item) : List Symbol := (b.rhs[i.production]?.getD []).drop i.dot

/-- The symbol at the position of an item. -/
def next? (i : Item) : Option Symbol := (b.after i).head?

/-- The number of items there are. -/
def itemCount : Nat := b.rhs.toList.foldl (fun n r => n + (r.length + 1)) 0

/-- The productions that an item asks for, and the tokens that may follow them. -/
def expands (i : LookItem) : Option (List Nat × TokenSet) :=
  match b.after i.item with
  | [] => none
  | s :: rest =>
    if b.isTerminal s then none
    else some (b.byLhs[s]?.getD [], b.firstSets.firstOfAll i.lookahead rest)

end Basis

namespace Closure

/-- The items so far, and the places of those whose lookaheads grew. -/
structure State where
  items : Array LookItem
  grown : Array Nat

/-- Adds the start of a production, or tokens to its lookaheads. -/
def demand (follow : TokenSet) (s : State) (p : Nat) : State :=
  match s.items.findIdx? fun i => i.item == ⟨p, 0⟩ with
  | some place =>
    match s.items[place]? with
    | some old =>
      if follow.subset old.lookahead then s
      else
        { items := s.items.modify place fun i => { i with lookahead := i.lookahead.union follow }
          grown := s.grown.push place }
    | none => s
  | none => { items := s.items.push ⟨⟨p, 0⟩, follow⟩, grown := s.grown.push s.items.size }

/-- What the item at a place asks for. -/
def visit (b : Basis) (s : State) (place : Nat) : State :=
  match s.items[place]?.bind b.expands with
  | some (ps, follow) => ps.foldl (demand follow) s
  | none => s

/-- Visits the places in `pending` and then those that have grown, until none
has; `fuel` bounds the rounds. -/
def run (b : Basis) : Nat → List Nat → Array LookItem → Array LookItem
  | 0, _, items => items
  | fuel + 1, pending, items =>
    if pending.isEmpty then items
    else
      let s := pending.foldl (visit b) ⟨items, #[]⟩
      run b fuel s.grown.toList s.items

end Closure

namespace Basis

variable (b : Basis)

/-- The closure of a kernel: its items first, then those that they ask for, in
the order in which they come up. -/
def closure (k : Kernel) : List LookItem :=
  let bound := (k.length + b.rhs.size) * (b.terminalCount + 1)
  (Closure.run b (bound + 1) (List.range k.length) k.toArray).toList

/-- The tokens that are looked for in a state with this kernel. -/
def validTerminals (k : Kernel) : TokenSet :=
  (b.closure k).foldl
    (fun valid i =>
      match b.next? i.item with
      | some s => if b.isTerminal s then valid.insert s else valid
      | none => valid.union i.lookahead)
    TokenSet.empty

end Basis

end Glr.Automaton
