import Glr.Grammar.Basic
import Glr.Log
import Glr.Sorted

/-!
# Glr.Grammar.Validate

Checks a grammar before tables are built from it.  A grammar is refused when
it has no start rule or refers to a symbol that is not defined; unreachable
rules, left recursion and mixed precedences are only reported.
-/

namespace Glr

/-- Why a grammar is refused. -/
inductive ValidationError where
  | noRules
  | undefinedStart (name : String)
  /-- A rule refers to a symbol that is not defined. -/
  | undefinedInRule (symbol rule : String)
  /-- A symbol rule carries no name. -/
  | unnamedSymbol (rule : String)
  /-- A declaration refers to a symbol that is not defined. -/
  | undefinedInList (symbol list : String)
  deriving DecidableEq, Repr

/-- The text of a validation error. -/
def ValidationError.message : ValidationError → String
  | .noRules => "grammar has no rules"
  | .undefinedStart name => s!"start rule '{name}' is not defined"
  | .undefinedInRule symbol rule => s!"undefined symbol '{symbol}' referenced in rule '{rule}'"
  | .unnamedSymbol rule => s!"SYMBOL without a name in rule '{rule}'"
  | .undefinedInList symbol list => s!"undefined symbol '{symbol}' referenced in {list}"

namespace Rule

/-! ## Walks over a rule -/

mutual

/-- A rule and all its parts, outermost first. -/
def subrules : Rule → List Rule
  | .node k a c ms => .node k a c ms :: (subrulesOption c ++ subrulesList ms)

/-- The parts of a wrapped rule. -/
def subrulesOption : Option Rule → List Rule
  | none => []
  | some r => subrules r

/-- The parts of some rules. -/
def subrulesList : List Rule → List Rule
  | [] => []
  | r :: rs => subrules r ++ subrulesList rs

end

/-- The names that a rule refers to, at any depth. -/
def references (r : Rule) : List String := r.subrules.filterMap symbolName?

mutual

/-- Whether a rule can begin with a reference to `target` at once. -/
def beginsWith (target : String) : Rule → Bool
  | .node k a c ms =>
    match k with
    | .symbol => a.name == some target
    | .seq => firstBeginsWith target ms
    | .choice => anyBeginsWith target ms
    | .prec | .precLeft | .precRight | .precDynamic | .field | .renamed | .zeroOrMore
    | .oneOrMore =>
      contentBeginsWith target c
    | .blank | .string | .pattern | .token | .immediateToken | .reserved => false

/-- The same of a wrapped rule. -/
def contentBeginsWith (target : String) : Option Rule → Bool
  | none => false
  | some r => beginsWith target r

/-- The same of the first of some rules. -/
def firstBeginsWith (target : String) : List Rule → Bool
  | [] => false
  | r :: _ => beginsWith target r

/-- The same of any of some rules. -/
def anyBeginsWith (target : String) : List Rule → Bool
  | [] => false
  | r :: rs => beginsWith target r || anyBeginsWith target rs

end

mutual

/-- The static precedence levels inside a rule, outside its tokens. -/
def staticLevels : Rule → List Int
  | .node k a c ms =>
    (if k = .precDynamic then [] else (precedence? (.node k a c ms)).toList)
      ++ (if k = .token ∨ k = .immediateToken then []
          else staticLevelsOption c ++ staticLevelsList ms)

/-- The levels inside a wrapped rule. -/
def staticLevelsOption : Option Rule → List Int
  | none => []
  | some r => staticLevels r

/-- The levels inside some rules. -/
def staticLevelsList : List Rule → List Int
  | [] => []
  | r :: rs => staticLevels r ++ staticLevelsList rs

end

end Rule

namespace Grammar

/-! ## Undefined symbols -/

/-- The names that rules may refer to: rules and named external tokens. -/
def definedNames (g : Grammar) : List String :=
  g.rules.keys ++ (g.externals.getD []).filterMap Rule.symbolName?

/-- The first fault among the references of a rule. -/
def referenceError? (defined : List String) (context : String) (r : Rule) :
    Option ValidationError :=
  r.subrules.findSome? fun part =>
    if part.isSymbol then
      match part.attributes.name with
      | none => some (.unnamedSymbol context)
      | some name => if defined.contains name then none else some (.undefinedInRule name context)
    else none

/-- The declarations that list names, with what they are called. -/
def nameLists (g : Grammar) : List (String × List String) :=
  [("word", g.word.toList), ("inline", g.inlined.getD []), ("supertypes", g.supertypes.getD []),
    ("conflicts", (g.conflicts.getD []).flatten)]

/-- The first reference to a symbol that is not defined. -/
def undefinedError? (g : Grammar) : Option ValidationError :=
  let defined := g.definedNames
  (g.rules.entries.findSome? fun e => referenceError? defined e.1 e.2) <|>
    ((g.extras.getD []).findSome? (referenceError? defined "extras")) <|>
    (g.nameLists.findSome? fun l =>
      (l.2.find? fun name => !defined.contains name).map fun name => .undefinedInList name l.1)

/-! ## Reports -/

/-- Follows references from the names in `pending`; `fuel` bounds the number
of rules that are entered. -/
def reach (g : Grammar) : Nat → List String → List String → List String
  | 0, _, seen => seen
  | fuel + 1, pending, seen =>
    match pending.dropWhile seen.contains with
    | [] => seen
    | name :: rest =>
      let next := match g.rules.get? name with
        | some r => r.references
        | none => []
      reach g fuel (next ++ rest) (name :: seen)

/-- The names that can be reached from the start rule or an extra. -/
def reachable (g : Grammar) (start : String) : List String :=
  let roots := start :: (g.extras.getD []).flatMap Rule.references
  let bound := g.rules.values.foldl (fun n r => n + r.references.length) roots.length
  g.reach bound roots []

/-- The rules that are neither inlined nor reachable, in declaration order. -/
def unreachableRules (g : Grammar) (start : String) : List String :=
  let reached := g.reachable start
  g.rules.keys.filter fun name => !reached.contains name && !(g.inlined.getD []).contains name

/-- The distinct values of a list, in increasing order. -/
def sortedDistinct (xs : List Int) : List Int := (SortedList.sort (· ≤ ·) xs).eraseReps

/-- The text of a list of integers. -/
def showInts (xs : List Int) : String := "[" ++ String.intercalate ", " (xs.map toString) ++ "]"

/-- A warning that names a rule. -/
def ruleEvent (level : Log.Level) (message rule : String) (more : List (String × Json)) :
    Log.Event :=
  ⟨level, message, ("rule", .string rule) :: more⟩

/-- Reports rules that cannot be reached. -/
def unreachableEvents (g : Grammar) (start : String) : List Log.Event :=
  (g.unreachableRules start).map fun name => ruleEvent .warn "unreachable rule" name []

/-- Reports rules that begin with themselves. -/
def leftRecursionEvents (g : Grammar) : List Log.Event :=
  (g.rules.entries.filter fun e => e.2.beginsWith e.1).map fun e =>
    ruleEvent .debug "left-recursive rule" e.1 []

/-- Reports rules other than choices that mix precedence levels. -/
def mixedPrecedenceEvents (g : Grammar) : List Log.Event :=
  g.rules.entries.filterMap fun e =>
    let distinct := sortedDistinct e.2.staticLevels
    if distinct.length > 1 && e.2.kind != .choice then
      some (ruleEvent .warn "rule mixes precedence levels" e.1
        [("distinct", .string (showInts distinct))])
    else none

/-- The names in the precedence lists. -/
def declaredPrecedences (g : Grammar) : List String :=
  (g.precedences.getD []).flatten.filterMap fun entry => entry.literal? <|> entry.symbolName?

/-- Reports precedence names that no list declares. -/
def undeclaredPrecedenceEvents (g : Grammar) : List Log.Event :=
  let declared := g.declaredPrecedences
  g.rules.values.flatMap fun r =>
    (r.subrules.filterMap Rule.precedenceName?).filterMap fun name =>
      if declared.contains name then none
      else some ⟨.warn, "precedence name is not declared in \x60precedences\x60",
        [("precedence", .string name)]⟩

/-- What is reported about a grammar that is not refused. -/
def validationEvents (g : Grammar) (start : String) : List Log.Event :=
  g.unreachableEvents start ++ g.leftRecursionEvents ++ g.mixedPrecedenceEvents
    ++ g.undeclaredPrecedenceEvents

/-- Checks a grammar; the reports come with a grammar that is not refused. -/
def validate (g : Grammar) : Except ValidationError (List Log.Event) :=
  match g.startRule? with
  | none => .error .noRules
  | some start =>
    if !g.rules.contains start then .error (.undefinedStart start)
    else
      match g.undefinedError? with
      | some e => .error e
      | none => .ok (g.validationEvents start)

end Grammar

end Glr
