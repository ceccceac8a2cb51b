import Glr.Text.Bytes
import Glr.Text.Point
import Glr.Text.Edit
import Glr.Text.Buffer
import Glr.Json.Value
import Glr.Json.Token
import Glr.Json.Parser
import Glr.Json.Printer
import Glr.Json.Decode
import Glr.Log
import Glr.Sorted
import Glr.Dictionary
import Glr.Grammar.Rule
import Glr.Grammar.Basic
import Glr.Grammar.Validate
import Glr.Unicode.CharSet
import Glr.Unicode.Name
import Glr.Unicode.Category
import Glr.Unicode.Script
import Glr.Unicode.Binary
import Glr.Unicode.BreakData
import Glr.Unicode.Break
import Glr.Unicode.Age
import Glr.Unicode.Addition
import Glr.Unicode.Property
import Glr.Unicode.Folding
import Glr.Regex.Syntax
import Glr.Regex.Extent
import Glr.Regex.Normal
import Glr.Regex.Escape
import Glr.Regex.Bracket
import Glr.Regex.Parser
import Glr.Regex.SetSize
import Glr.Regex.Size
import Glr.Regex.Program
import Glr.Regex.Matcher
import Glr.Table.Basic
import Glr.Table.Document
import Glr.FlatGrammar.Basic
import Glr.FlatGrammar.TokenRule
import Glr.FlatGrammar.Numbering
import Glr.FlatGrammar.Flatten
import Glr.Text.Quoted
import Glr.Automaton.TokenSet
import Glr.Automaton.Overlap
import Glr.Automaton.First
import Glr.Automaton.Closure
import Glr.Automaton.ItemSets
import Glr.Automaton.Resolve
import Glr.Automaton.Cells
import Glr.Automaton.Checked
import Glr.Table.Generate
import Glr.Scanner.Basic
import Glr.Language
import Glr.Tree.Subtree
import Glr.Tree.Basic
import Glr.Parse.Event
import Glr.Parse.Token
import Glr.Parse.OldTree
import Glr.Parse.Version
import Glr.Parse.Choice
import Glr.Parse.Move
import Glr.Parse.Recovery
import Glr.Parse.Condense
import Glr.Parse.Run
import Glr.Tree.Edit
import Glr.Tree.ChangedRanges
import Glr.Tree.Node
import Glr.Tree.Cursor
import Glr.Tree.Display
import Glr.Parser
import Glr.Scanner.Script
import Glr.Jcl.Grammar
import Glr.Jcl.Scanner
import Glr.Jcl.Extraction
import Glr.Query.Pattern
import Glr.Query.Error
import Glr.Query.Compile
import Glr.Query.Match
import Glr.Jcl.Report
import Glr.Command
import Glr.Main
import Glr.Proofs.Stateful
import Glr.Proofs.FlatGrammar.Numbered
import Glr.Proofs.FlatGrammar.Flattened
import Glr.Proofs.Automaton.Basis
import Glr.Proofs.Automaton.Closure
import Glr.Proofs.Automaton.Kernel
import Glr.Proofs.Automaton.ItemSets
import Glr.Proofs.Automaton.Finite
import Glr.Proofs.Automaton.Offers
import Glr.Proofs.Automaton.Cells
import Glr.Proofs.Automaton.Path
import Glr.Proofs.Automaton.Checked
import Glr.Proofs.Language
import Glr.Proofs.Tree.Layout
import Glr.Proofs.Parse.Token
import Glr.Proofs.Parse.Stack
import Glr.Proofs.Parse.Effect
import Glr.Proofs.Tree.Edit
import Glr.Proofs.Parse.OldTree
import Glr.Proofs.Parse.Version
import Glr.Proofs.Parse.Condense
import Glr.Proofs.Parse.Run
import Glr.Proofs.Parser
import Glr.Proofs.Reached
import Glr.Proofs.Tree.Shown
import Glr.Proofs.Parse.Derived
import Glr.Proofs.FlatGrammar.Derives
import Glr.Proofs.Automaton.First
import Glr.Proofs.Automaton.Conflict
import Glr.Proofs.Automaton.Lookahead
import Glr.Proofs.Recognition
import Glr.Proofs.FlatGrammar.Lowering
import Glr.Proofs.FlatGrammar.Meaning
import Glr.Proofs.FlatGrammar.Faithful
import Glr.Proofs.FlatGrammar.Safe
import Glr.Proofs.FlatGrammar.Names
import Glr.Proofs.Table
import Glr.Proofs.Parse.Plain
import Glr.Proofs.Reparse
import Glr.Proofs.Automaton.Expansions
import Glr.Proofs.Automaton.Follows
import Glr.Proofs.Automaton.Merging
import Glr.Proofs.FlatGrammar.Operators
import Glr.Proofs.Automaton.Operators
import Glr.Proofs.Automaton.Resolved
import Glr.Proofs.Precedence
import Glr.Proofs.Parse.Ordered
import Glr.Proofs.Operators
import Glr.Proofs.Automaton.Lists
import Glr.Proofs.Tree.Everywhere
import Glr.Proofs.Tree.Fresh
import Glr.Proofs.Parse.Fresh
import Glr.Proofs.Tree.Spelled
import Glr.Proofs.Tree.Framed
import Glr.Proofs.Editing
import Glr.Proofs.Navigation
import Glr.Proofs.Budget
import Glr.Proofs.Query.Embedding
import Glr.Proofs.Query.Matches
import Glr.Proofs.Query.Complete
import Glr.Proofs.Query.Exact
import Glr.Proofs.Text.Buffer
import Glr.Proofs.Grammar.Document
import Glr.Proofs.Tree.Threaded
import Glr.Proofs.Parse.Threaded
import Glr.Proofs.Reloaded
import Glr.Proofs.Tree.Priced
import Glr.Proofs.Parse.Priced
import Glr.Proofs.Parse.Weighed
import Glr.Proofs.Errors
import Glr.Proofs.Parse.Survivors
import Glr.Proofs.Tree.Chain
import Glr.Proofs.Tree.ChangedRanges
import Glr.Proofs.Inverse
import Glr.Proofs.Tree.Words
import Glr.Proofs.Tree.Marks
import Glr.Proofs.Parse.Heedful
import Glr.Proofs.Immediate
import Glr.Proofs.Parse.BestMatch
import Glr.Proofs.Seeking
import Glr.Proofs.Spanning
import Glr.Proofs.Tree.Tour
import Glr.Proofs.Display
import Glr.Proofs.Automaton.Begins
import Glr.Proofs.Automaton.Pairs
import Glr.Proofs.Regex.Prefix
import Glr.Proofs.Automaton.Overlap
import Glr.Proofs.Text.Utf8
import Glr.Proofs.Unicode.CharSet
import Glr.Proofs.Regex.Matcher
import Glr.Proofs.Regex.Program
import Glr.Proofs.Regex.Normal
import Glr.Proofs.Regex.Rendering
import Glr.Proofs.FlatGrammar.TokenRule
import Glr.Proofs.Grammar.Reachable
import Glr.Proofs.FlatGrammar.Levels
import Glr.Proofs.Query.Ranged
import Glr.Proofs.FlatGrammar.Inlining
import Glr.Proofs.Query.Reading
import Glr.Proofs.Query.Closed
import Glr.Proofs.Query.Pruned
import Glr.Proofs.Scanner.Observed
import Glr.Proofs.Scanner.Steps
import Glr.Proofs.Jcl.DataLines
import Glr.Proofs.Jcl.DelimiterValue
import Glr.Proofs.Jcl.Recorded
import Glr.Proofs.Text.Replaced
import Glr.Proofs.Jcl.Report
import Glr.Proofs.Text.Length
import Glr.Proofs.Parse.Inherited
import Glr.Proofs.Parse.Walk
