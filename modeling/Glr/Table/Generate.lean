import Glr.Automaton.Checked
import Glr.FlatGrammar.Flatten

/-!
# Glr.Table.Generate

The table of a grammar.  The grammar is validated and flattened, the states of
its automaton are built, and their actions become the entries of the table.
Conflicts that precedences do not settle are no errors: they are reported and
kept.

The table is built by the construction that checks its indices.  It is the one of
`FlatGrammar.table`, wherever there is one.
-/

namespace Glr

/-- What a production does when it is reduced. -/
def Production.info (p : Production) : ProductionInfo where
  lhs := p.lhs
  fields := p.steps.map Step.field
  labels := p.steps.map Step.label
  dynamicPrecedence := p.dynamicPrecedence

/-- Whether the states of an automaton can be numbered in the table format.  Each state asks for
the number of a further lexical state, whether it takes it or not. -/
def Table.fits (t : Table) : Bool :=
  t.stateCount < 4294967296 && t.stateLexStates.pop.all (· < 65535)

/-- The table of a flat grammar from the states of its automaton and their entries, with the
reports on its construction. -/
def FlatGrammar.tableOf (g : FlatGrammar) (name : String) (sets : Automaton.ItemSets)
    (cells : Automaton.Cells) : Table × List Log.Event :=
  ({ version := tableVersion
     name
     symbols := g.symbols
     fields := g.fields
     productions := g.productions.map Production.info
     stateCount := sets.kernels.size
     entries := cells.entries
     actionLists := cells.actionLists
     lexStates := cells.lexStates
     stateLexStates := cells.stateLexStates
     lexRules := g.lexRules
     extras := g.extras
     externals := g.externals
     word := g.word
     startSymbol := g.start },
    sets.event :: (cells.log.reverse ++ [cells.event]))

/-- The table of a flat grammar, with the reports on its construction. -/
def FlatGrammar.table (g : FlatGrammar) (name : String) : Table × List Log.Event :=
  let b := Automaton.Basis.ofGrammar g
  let sets := Automaton.ItemSets.ofBasis b
  g.tableOf name sets (Automaton.Cells.ofItemSets b sets)

/-- The table of a flat grammar by the construction that checks its indices. -/
def FlatGrammar.table? (g : FlatGrammar) (name : String) : Option (Table × List Log.Event) := do
  let b ← Automaton.Basis.ofGrammar? g
  let sets ← Automaton.ItemSets.ofBasis? b
  return g.tableOf name sets (← Automaton.Cells.ofItemSets? b sets)

/-- Generates the table of a grammar; the reports come with errors too, but where the
construction is given up those on it are lost. -/
def Grammar.generate (g : Grammar) : Except GenerateError Table × List Log.Event :=
  match g.validate with
  | .error e => (.error (.validation e), [])
  | .ok checks =>
    match FlatGrammar.ofGrammar g with
    | .error e => (.error e, checks)
    | .ok flat =>
      let prepared : Log.Event :=
        ⟨.debug, "prepared grammar", [("grammar", .string g.name),
          ("symbols", .nat flat.symbols.size), ("productions", .nat flat.productions.size)]⟩
      match flat.table? g.name with
      | none => (.error .panic, checks ++ [prepared])
      | some (table, events) =>
        if !table.fits then (.error .tooManyStates, checks ++ prepared :: events)
        else
        (.ok table,
          checks ++ prepared :: events
            ++ [⟨.info, "generated parse table",
                  [("grammar", .string g.name), ("states", .nat table.stateCount)]⟩])

end Glr
