import Glr.Automaton.Overlap

/-!
# Glr.Automaton.First

Which symbols can be empty, and which tokens a symbol can begin with.  Both
are least solutions: `FirstSets.round` applies every production once, and the
rounds are repeated until nothing changes.
-/

namespace Glr.Automaton

/-- What is known of each symbol. -/
structure FirstSets where
  nullable : Array Bool
  first : Array TokenSet
  deriving DecidableEq, Repr

namespace FirstSets

/-- Whether a symbol can be empty. -/
def isNullable (f : FirstSets) (s : Symbol) : Bool := f.nullable[s]?.getD false

/-- The tokens that a symbol can begin with. -/
def firstOf (f : FirstSets) (s : Symbol) : TokenSet := f.first[s]?.getD TokenSet.empty

/-- The tokens that some symbols followed by an element of `follow` can begin
with. -/
def firstOfAll (f : FirstSets) (follow : TokenSet) : List Symbol → TokenSet
  | [] => follow
  | s :: rest =>
    if f.isNullable s then (f.firstOf s).union (f.firstOfAll follow rest) else f.firstOf s

/-- Tokens begin with themselves, and nothing is known of other symbols. -/
def start (g : FlatGrammar) : FirstSets where
  nullable := Array.replicate g.symbols.size false
  first := ((List.range g.symbols.size).map fun s =>
    if g.isTerminal s then TokenSet.singleton s else TokenSet.empty).toArray

/-- What a production adds. -/
def apply (f : FirstSets) (p : Production) : FirstSets where
  nullable := if p.rhs.all f.isNullable then f.nullable.setIfInBounds p.lhs true else f.nullable
  first := f.first.modify p.lhs (TokenSet.union (f.firstOfAll TokenSet.empty p.rhs))

/-- What all productions add. -/
def round (g : FlatGrammar) (f : FirstSets) : FirstSets := g.productions.foldl apply f

/-- Repeats rounds until nothing changes; `fuel` bounds their number. -/
def saturate (g : FlatGrammar) : Nat → FirstSets → FirstSets
  | 0, f => f
  | fuel + 1, f =>
    let next := round g f
    if next = f then f else saturate g fuel next

/-- The number of facts there are about the symbols of a grammar. -/
def bound (g : FlatGrammar) : Nat := g.symbols.size * (g.symbols.size + 1)

/-- What the productions of a grammar imply. -/
def ofGrammar (g : FlatGrammar) : FirstSets := saturate g (bound g + 1) (start g)

end FirstSets

end Glr.Automaton
