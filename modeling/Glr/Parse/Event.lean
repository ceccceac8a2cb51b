import Glr.Log
import Glr.Table.Basic

/-!
# Glr.Parse.Event

What a parse reports.  The parser works with these events; `toLog` gives them
their words.
-/

namespace Glr.Parse

/-- What a parse did, in numbers. -/
structure Stats where
  /-- Steps of hypotheses. -/
  operations : Nat := 0
  /-- Tokens found in the text. -/
  lexed : Nat := 0
  /-- Subtrees taken from the previous tree, and their bytes. -/
  reused : Nat := 0
  reusedBytes : Nat := 0
  /-- Hypotheses that split off. -/
  forks : Nat := 0
  deriving DecidableEq, Repr, Inhabited

/-- One thing that happened. -/
inductive Event where
  /-- The previous tree is of another language or length. -/
  | previousTreeIgnored
  /-- What a scanner reports. -/
  | scanner (report : Log.Event)
  /-- A scanner found a token. -/
  | externalToken (position : Nat) (symbol : Symbol) (length : Nat)
  /-- A token that is not valid here. -/
  | misplacedToken (position : Nat) (symbol : Symbol)
  /-- Text that is no token. -/
  | unrecognized (position length : Nat)
  /-- A subtree of the previous tree. -/
  | reused (position : Nat) (symbol : Symbol) (bytes : Nat)
  | shiftExtra (state : StateId) (symbol : Symbol)
  | shift (version : Nat) (next : StateId) (symbol : Symbol)
  | reduce (version : Nat) (production : ProductionId)
  | accept (version : Nat)
  /-- Too many reductions in one place. -/
  | reductionLimit (version : Nat)
  | recovering (version position : Nat) (kind : String) (options : Nat)
  | noRecovery (version cost : Nat)
  | stopped (operations : Nat)
  | finished (stats : Stats)
  deriving Repr, Inhabited

/-- The event in words. -/
def Event.toLog : Event → Log.Event
  | .previousTreeIgnored =>
    ⟨.debug, "previous tree does not match the input, parsing from scratch", []⟩
  | .scanner report => report
  | .externalToken position symbol length =>
    ⟨.trace, "external token",
      [("position", .nat position), ("symbol", .nat symbol), ("len", .nat length)]⟩
  | .misplacedToken position symbol =>
    ⟨.trace, "lexed in error mode", [("position", .nat position), ("symbol", .nat symbol)]⟩
  | .unrecognized position length =>
    ⟨.debug, "unrecognized input", [("position", .nat position), ("len", .nat length)]⟩
  | .reused position symbol bytes =>
    ⟨.trace, "reused subtree",
      [("position", .nat position), ("symbol", .nat symbol), ("bytes", .nat bytes)]⟩
  | .shiftExtra state symbol =>
    ⟨.trace, "shift extra", [("state", .nat state), ("symbol", .nat symbol)]⟩
  | .shift version next symbol =>
    ⟨.trace, "shift", [("version", .nat version), ("next", .nat next), ("symbol", .nat symbol)]⟩
  | .reduce version production =>
    ⟨.trace, "reduce", [("version", .nat version), ("production", .nat production)]⟩
  | .accept version => ⟨.trace, "accept", [("version", .nat version)]⟩
  | .reductionLimit version =>
    ⟨.debug, "reduction limit reached without progress", [("version", .nat version)]⟩
  | .recovering version position kind options =>
    ⟨.debug, "recovering from syntax error",
      [("version", .nat version), ("position", .nat position), ("symbol", .string kind),
        ("options", .nat options)]⟩
  | .noRecovery version cost =>
    ⟨.debug, "no recovery left, wrapping input in an ERROR root",
      [("version", .nat version), ("cost", .nat cost)]⟩
  | .stopped operations => ⟨.debug, "parse stopped early", [("operations", .nat operations)]⟩
  | .finished s =>
    ⟨.debug, "parse finished",
      [("operations", .nat s.operations), ("lexed", .nat s.lexed), ("reused", .nat s.reused),
        ("reused_bytes", .nat s.reusedBytes), ("forks", .nat s.forks)]⟩

end Glr.Parse
