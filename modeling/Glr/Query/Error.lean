import Glr.Text.Point

/-!
# Glr.Query.Error

What can be wrong with a query, and the words for it.
-/

namespace Glr.Query

/-- What an error is about. -/
inductive ErrorKind where
  | syntaxError
  | nodeType
  | field
  | capture
  | predicate
  | structureError
  deriving DecidableEq, Repr

/-- The name of a kind of error. -/
def ErrorKind.name : ErrorKind → String
  | .syntaxError => "syntax"
  | .nodeType => "node type"
  | .field => "field"
  | .capture => "capture"
  | .predicate => "predicate"
  | .structureError => "structure"

/-- What is wrong. -/
inductive Problem where
  | expected (byte : UInt8) (found : Option UInt8)
  | unexpected (byte : UInt8)
  | unexpectedEnd
  | emptyPattern
  | noNodeKind
  | noFieldName
  | noCaptureName
  | noPredicateName
  | unterminatedString
  | unterminatedAlternation
  | unterminatedPredicate
  | unexpectedInPredicate (byte : UInt8)
  | unknownAnonymous (text : String)
  | unknownKind (name : String)
  | unknownField (name : String)
  | undefinedCapture (name : String)
  | noSubject (predicate : String)
  | notTwoArguments (predicate : String)
  | notOnePattern (predicate : String)
  | notStringPattern (predicate : String)
  | invalidRegex
  | notStrings (predicate : String)
  | noValue (predicate : String)
  | unknownPredicate (name : String)
  | looseAnchor
  | looseCapture
  | loosePredicate
  | looseQuantifier
  | badTopGroup
  | emptyGroup
  | groupWithoutParent
  | predicateWithField
  | predicateInAlternation
  | emptyAlternation
  deriving DecidableEq, Repr

/-- What a problem is about. -/
def Problem.kind : Problem → ErrorKind
  | .expected .. | .unexpected _ | .unexpectedEnd | .emptyPattern | .noNodeKind | .noFieldName
  | .noCaptureName | .noPredicateName | .unterminatedString | .unterminatedAlternation
  | .unterminatedPredicate | .unexpectedInPredicate _ => .syntaxError
  | .unknownAnonymous _ | .unknownKind _ => .nodeType
  | .unknownField _ => .field
  | .undefinedCapture _ => .capture
  | .noSubject _ | .notTwoArguments _ | .notOnePattern _ | .notStringPattern _ | .invalidRegex
  | .notStrings _ | .noValue _ | .unknownPredicate _ => .predicate
  | .looseAnchor | .looseCapture | .loosePredicate | .looseQuantifier | .badTopGroup
  | .emptyGroup | .groupWithoutParent | .predicateWithField | .predicateInAlternation
  | .emptyAlternation => .structureError

/-- A byte in quotes, as the character with its number. -/
def quotedByte (b : UInt8) : String := "'" ++ String.singleton (Char.ofNat b.toNat) ++ "'"

/-- The words for a problem. -/
def Problem.message : Problem → String
  | .expected byte found =>
    "expected " ++ quotedByte byte ++ ", found " ++
      match found with
      | some b => quotedByte b
      | none => "end of input"
  | .unexpected byte => "unexpected " ++ quotedByte byte
  | .unexpectedEnd => "unexpected end of input"
  | .emptyPattern => "empty pattern"
  | .noNodeKind => "expected a node kind"
  | .noFieldName => "expected a field name"
  | .noCaptureName => "expected a capture name"
  | .noPredicateName => "expected a predicate name"
  | .unterminatedString => "unterminated string"
  | .unterminatedAlternation => "unterminated alternation"
  | .unterminatedPredicate => "unterminated predicate"
  | .unexpectedInPredicate byte => "unexpected " ++ quotedByte byte ++ " in predicate"
  | .unknownAnonymous text => "unknown anonymous node \"" ++ text ++ "\""
  | .unknownKind name => s!"unknown node kind '{name}'"
  | .unknownField name => s!"unknown field '{name}'"
  | .undefinedCapture name => s!"undefined capture '@{name}'"
  | .noSubject predicate => s!"#{predicate} expects a capture as its first argument"
  | .notTwoArguments predicate => s!"#{predicate} expects two arguments"
  | .notOnePattern predicate => s!"#{predicate} expects a capture and a pattern"
  | .notStringPattern predicate => s!"#{predicate} expects a string pattern"
  | .invalidRegex => "invalid regex"
  | .notStrings predicate => s!"#{predicate} expects strings after the capture"
  | .noValue predicate => s!"#{predicate} expects at least one value"
  | .unknownPredicate name => s!"unknown predicate #{name}"
  | .looseAnchor => "anchor outside of a node"
  | .looseCapture => "capture without a pattern"
  | .loosePredicate => "predicate outside of a pattern"
  | .looseQuantifier => "quantifier on a top-level pattern"
  | .badTopGroup =>
    "a top-level group must start with a single pattern and cannot be captured"
  | .emptyGroup => "empty group"
  | .groupWithoutParent => "anchors and negated fields need a parent node"
  | .predicateWithField => "a predicate cannot take a field or anchor"
  | .predicateInAlternation => "predicate inside an alternation"
  | .emptyAlternation => "empty alternation"

/-- A problem and where it is in the text of the query. -/
structure Error where
  problem : Problem
  offset : Nat
  point : Point
  deriving DecidableEq, Repr

/-- An error at an offset of a text; it is never beyond its end. -/
def Error.at (source : Bytes) (offset : Nat) (problem : Problem) : Error :=
  let offset := min offset source.size
  ⟨problem, offset, extentOf (source.extract 0 offset)⟩

/-- The words for an error. -/
def Error.message (e : Error) : String :=
  s!"{e.problem.kind.name} error at {e.point.row}:{e.point.column} (byte {e.offset}): "
    ++ e.problem.message

end Glr.Query
