import Glr.Json.Value

/-!
# Glr.Log

What an operation reports while it works.  Functions that report return their
events in order beside their result; nothing is printed.
-/

namespace Glr.Log

/-- How important an event is. -/
inductive Level where
  | error
  | warn
  | info
  | debug
  | trace
  deriving DecidableEq, Repr

/-- The name of a level. -/
def Level.name : Level → String
  | .error => "ERROR"
  | .warn => "WARN"
  | .info => "INFO"
  | .debug => "DEBUG"
  | .trace => "TRACE"

/-- One report: a message with named values. -/
structure Event where
  level : Level
  message : String
  fields : List (String × Json)
  deriving Repr

end Glr.Log
