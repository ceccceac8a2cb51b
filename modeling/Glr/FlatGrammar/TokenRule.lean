import Glr.FlatGrammar.Basic
import Glr.Regex.Escape

/-!
# Glr.FlatGrammar.TokenRule

How a rule becomes one lexical rule.  A literal stays a literal; any other
token becomes one regular expression, and the last precedence met on the way
through the rule becomes the lexical precedence.
-/

namespace Glr

/-- A token without its name: rules with equal keys share one symbol. -/
structure TokenKey where
  matcher : TokenMatcher
  precedence : Int
  immediate : Bool
  deriving DecidableEq, Repr

namespace Rule

/-- The text of a rule that must have one. -/
def requireText (r : Rule) : Except GenerateError String :=
  match r.text? with
  | some s => .ok s
  | none => .error (.missingValue r.kind)

/-- The expression of a pattern rule; the flag `i` ignores case. -/
def patternSource (r : Rule) : Except GenerateError String :=
  r.requireText.map fun source =>
    match r.attributes.flags with
    | some flags =>
      if flags.toList.contains 'i' then "(?i:" ++ source ++ ")" else "(?:" ++ source ++ ")"
    | none => "(?:" ++ source ++ ")"

mutual

/-- The expression that matches what a rule matches, with the precedence so
far and after it. -/
def toRegex (precedence : Int) : Rule → Except GenerateError (String × Int)
  | .node k a c ms =>
    match k with
    | .string => (requireText (.node k a c ms)).map fun s => (Regex.quote s, precedence)
    | .pattern => (patternSource (.node k a c ms)).map fun s => (s, precedence)
    | .blank => .ok ("", precedence)
    | .seq => (regexList precedence ms).map fun r => (String.join r.1, r.2)
    | .choice =>
      (regexList precedence ms).map fun r => ("(?:" ++ String.intercalate "|" r.1 ++ ")", r.2)
    | .zeroOrMore => (regexContent precedence k c).map fun r => ("(?:" ++ r.1 ++ ")*", r.2)
    | .oneOrMore => (regexContent precedence k c).map fun r => ("(?:" ++ r.1 ++ ")+", r.2)
    | .prec | .precLeft | .precRight =>
      regexContent ((precedence? (.node k a c ms)).getD precedence) k c
    | .token | .immediateToken | .reserved => regexContent precedence k c
    | .symbol | .field | .renamed | .precDynamic => .error (.nonLexicalToken k)

/-- The expression of a wrapped rule, which must be there. -/
def regexContent (precedence : Int) (k : RuleKind) :
    Option Rule → Except GenerateError (String × Int)
  | some r => toRegex precedence r
  | none => .error (.missingContent k)

/-- The expressions of some rules. -/
def regexList (precedence : Int) : List Rule → Except GenerateError (List String × Int)
  | [] => .ok ([], precedence)
  | r :: rs =>
    match toRegex precedence r with
    | .error e => .error e
    | .ok (s, precedence) => (regexList precedence rs).map fun rest => (s :: rest.1, rest.2)

end

mutual

/-- The matcher of the rule inside a token, with the precedence so far and
after it. -/
def toMatcher (precedence : Int) : Rule → Except GenerateError (TokenMatcher × Int)
  | .node k a c ms =>
    match k with
    | .string => (requireText (.node k a c ms)).map fun s => (.literal s, precedence)
    | .token | .immediateToken => matcherContent precedence k c
    | .prec | .precLeft | .precRight =>
      matcherContent ((precedence? (.node k a c ms)).getD precedence) k c
    | _ => (toRegex precedence (.node k a c ms)).map fun r => (.pattern r.1, r.2)

/-- The matcher of a wrapped rule, which must be there. -/
def matcherContent (precedence : Int) (k : RuleKind) :
    Option Rule → Except GenerateError (TokenMatcher × Int)
  | some r => toMatcher precedence r
  | none => .error (.missingContent k)

end

/-- The token that a rule describes. -/
def tokenKey (r : Rule) : Except GenerateError TokenKey :=
  let immediate := r.kind == .immediateToken
  match r.kind with
  | .pattern => r.patternSource.map fun s => ⟨.pattern s, 0, immediate⟩
  | _ => (r.toMatcher 0).map fun m => ⟨m.1, m.2, immediate⟩

end Rule

end Glr
