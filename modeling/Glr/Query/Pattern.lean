import Glr.Regex.Matcher
import Glr.Table.Basic

/-!
# Glr.Query.Pattern

What queries are made of.  A pattern matches one node: a node of some kind with
steps that match its children, or one of some alternatives.  A group matches
consecutive siblings.  Captures are numbers that stand for names.
-/

namespace Glr.Query

/-- Which nodes a pattern is about. -/
inductive KindTest where
  /-- Every node. -/
  | any
  /-- Every node with a name. -/
  | anyNamed
  | named (kind : String)
  | anonymous (kind : String)
  /-- Missing tokens, all of them or those of a kind. -/
  | missing (target : Option (String × Bool))
  deriving DecidableEq, Repr, Inhabited

/-- How often a step matches. -/
inductive Quantifier where
  | one
  | zeroOrOne
  | zeroOrMore
  | oneOrMore
  deriving DecidableEq, Repr, Inhabited

/-- A pattern for a child, with the field that the child has to fill. -/
structure Step (α : Type) where
  field : Option FieldId
  pattern : α
  quantifier : Quantifier
  /-- No node with a name may be skipped to get here. -/
  anchored : Bool
  deriving Repr, Inhabited

/-- A pattern. -/
inductive Pattern where
  /-- A node; with `anchoredEnd` no child with a name follows the last step, and
  the fields in `absent` are not filled. -/
  | node (captures : List Nat) (test : KindTest) (absent : List FieldId) (anchoredEnd : Bool)
      (steps : List (Step Pattern))
  | alternation (captures : List Nat) (alternatives : List Pattern)
  | group (captures : List Nat) (steps : List (Step Pattern))
  deriving Repr, Inhabited

namespace Pattern

/-- The captures of a pattern itself. -/
def captures : Pattern → List Nat
  | .node captures _ _ _ _ => captures
  | .alternation captures _ => captures
  | .group captures _ => captures

/-- Adds captures to a pattern. -/
def addCaptures (p : Pattern) (more : List Nat) : Pattern :=
  match p with
  | .node captures test absent anchoredEnd steps =>
    .node (captures ++ more) test absent anchoredEnd steps
  | .alternation captures alternatives => .alternation (captures ++ more) alternatives
  | .group captures steps => .group (captures ++ more) steps

/-- A pattern for nodes of a kind, whatever their children. -/
def ofTest (test : KindTest) : Pattern := .node [] test [] false []

/-- Whether a pattern is about consecutive siblings. -/
def isGroup : Pattern → Bool
  | .group .. => true
  | _ => false

/-- A group of steps; one of a single plain step is its pattern. -/
def ofGroup (steps : List (Step Pattern)) : Pattern :=
  match steps with
  | [⟨none, p, .one, false⟩] => p
  | steps => .group [] steps

end Pattern

/-- What a text is compared with. -/
inductive Argument where
  | capture (index : Nat)
  | text (s : String)
  deriving DecidableEq, Repr, Inhabited

/-- What a predicate asks of a text. -/
inductive Condition where
  | equals (other : Argument)
  | fits (r : Regex)
  | anyOf (values : List String)
  deriving Repr, Inhabited

/-- A condition on the texts of all nodes with a capture, or on none of them. -/
structure Predicate where
  capture : Nat
  condition : Condition
  negated : Bool
  deriving Repr, Inhabited

/-- A pattern at the top of a query with the predicates in it. -/
structure Rule where
  pattern : Pattern
  predicates : List Predicate
  /-- Where the pattern starts in the text of the query. -/
  startByte : Nat
  deriving Repr, Inhabited

end Glr.Query
