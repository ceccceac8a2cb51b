import Glr.Automaton.TokenSet
import Glr.FlatGrammar.Basic
import Glr.Regex.Matcher

/-!
# Glr.Automaton.Overlap

Which tokens compete for the same text.  Literals are compared exactly.  A
pattern competes with a literal when it matches at the start of the literal
followed by some printable byte.  Two patterns, and any token of a scanner, are
taken to compete.
-/

namespace Glr.Automaton

/-- One way in which a token is found. -/
inductive Lexeme where
  | literal (text : Bytes)
  /-- A pattern, `none` when it cannot be compiled. -/
  | pattern (r : Option Regex)
  /-- The scanner decides. -/
  | external
  /-- There is none. -/
  | unmatched
  deriving Repr

/-- The way in which a lexical rule finds its token. -/
def Lexeme.ofMatcher : TokenMatcher → Lexeme
  | .literal s => .literal (Bytes.ofString s)
  | .pattern source => .pattern (Regex.compileToken source).toOption

/-- Printable ASCII and the line feed. -/
def probeBytes : List UInt8 := (List.range 95).map (fun i => (32 + i).toUInt8) ++ [10]

/-- Whether a pattern matches some text at the start of a literal and one more
byte. -/
def patternMeets (r : Option Regex) (literal : Bytes) : Bool :=
  match r with
  | none => true
  | some r =>
    probeBytes.any fun b =>
      match r.findEnd? (literal.push b) 0 with
      | some stop => stop > 0
      | none => false

/-- Whether two ways of finding tokens compete. -/
def Lexeme.competes : Lexeme → Lexeme → Bool
  | .unmatched, _ => false
  | _, .unmatched => false
  | .external, _ => true
  | _, .external => true
  | .literal x, .literal y => x.startsWith y || y.startsWith x
  | .pattern r, .literal x => patternMeets r x
  | .literal x, .pattern r => patternMeets r x
  | .pattern _, .pattern _ => true

/-- The ways in which a token is found. -/
def lexemesOf (g : FlatGrammar) (rules : List (Symbol × Lexeme)) (token : Nat) : List Lexeme :=
  let own := (rules.filter fun r => r.1 == token).map Prod.snd
  match g.symbols[token]? with
  | some info =>
    if info.kind = .external then own ++ [.external]
    else if own.isEmpty then [.unmatched]
    else own
  | none => if own.isEmpty then [.unmatched] else own

/-- For each token below `count`, the tokens that compete with it. -/
def overlaps (g : FlatGrammar) (count : Nat) : Array TokenSet :=
  let rules := g.lexRules.map fun r => (r.symbol, Lexeme.ofMatcher r.matcher)
  let lexemes := (List.range count).map (lexemesOf g rules)
  let competing (a b : List Lexeme) : Bool := a.any fun x => b.any fun y => x.competes y
  let pairs := lexemes.zipIdx.flatMap fun a =>
    (lexemes.zipIdx.drop (a.2 + 1)).filterMap fun b =>
      if competing a.1 b.1 then some (a.2, b.2) else none
  pairs.foldl
    (fun sets p => (sets.modify p.1 (TokenSet.insert · p.2)).modify p.2 (TokenSet.insert · p.1))
    (Array.replicate count TokenSet.empty)

end Glr.Automaton
