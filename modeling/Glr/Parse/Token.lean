import Glr.Parse.Choice
import Glr.Parse.Event
import Glr.Tree.Subtree

/-!
# Glr.Parse.Token

The token at a place in a text.  Only tokens that are valid in the lexical
state count, so the same text reads differently in different places.  Of
several matches the longest one wins, then

```
higher precedence  >  literal before pattern  >  smaller symbol
```

Where no valid token matches, any token does, and where none does at all, the
text up to the next match is an error token.
-/

namespace Glr.Parse

/-- Where to find a token, and what is known there. -/
structure Site where
  position : Length
  lexState : Nat
  /-- Whether an extra stands directly before. -/
  afterExtra : Bool
  /-- What the scanner remembers. -/
  external : ScannerState
  deriving Repr, Inhabited

/-- A match of a lexical rule. -/
structure Candidate where
  symbol : Symbol
  length : Nat
  precedence : Int
  literal : Bool
  deriving DecidableEq, Repr, Inhabited

/-- Whether a match is better than another one. -/
def Candidate.beats (a b : Candidate) : Bool :=
  a.length > b.length || a.length == b.length &&
    (a.precedence > b.precedence || a.precedence == b.precedence &&
      (a.literal && !b.literal || a.literal == b.literal && a.symbol < b.symbol))

/-- The number of bytes that the character at an offset claims, as far as the
text goes. -/
def characterWidth (text : Bytes) (start : Nat) : Nat :=
  match text[start]? with
  | none => 0
  | some b =>
    let rest := text.size - start
    if b < 0x80 then 1
    else if b ≥ 0xF0 then min 4 rest
    else if b ≥ 0xE0 then min 3 rest
    else if b ≥ 0xC0 then min 2 rest
    else 1

theorem characterWidth_pos {text : Bytes} {start : Nat} (h : start < text.size) :
    0 < characterWidth text start := by
  unfold characterWidth
  simp only [Array.getElem?_eq_getElem h]
  split
  · omega
  · split
    · omega
    · split
      · omega
      · split <;> omega

theorem characterWidth_le (text : Bytes) (start : Nat) :
    characterWidth text start ≤ text.size - start := by
  unfold characterWidth
  split
  · omega
  · rename_i b h
    have := (Array.getElem?_eq_some_iff.mp h).1
    simp only
    split
    · omega
    · split
      · omega
      · split
        · omega
        · split <;> omega

/-- How far after a token the text had a say in it: to the end of the line and
over its line feed, or just past the end of the text. -/
def lineLookahead (text : Bytes) (stop : Nat) : Nat :=
  match text.lineFeedFrom? stop with
  | some i => i - stop + 1
  | none => text.size - stop + 1

theorem lineLookahead_pos (text : Bytes) (stop : Nat) : 0 < lineLookahead text stop := by
  unfold lineLookahead
  split <;> omega

section

variable (l : Language) (text : Bytes)

/-- Whether a literal is a keyword: the word token matches all of it. -/
def isKeyword (literal : Bytes) : Bool :=
  match l.wordMatcher? with
  | some m => m.length? literal 0 == some literal.size
  | none => false

/-- The match of a rule at an offset, unless something rules it out.  `valid`
lists the tokens to consider besides extras, `none` admits all; `word` is how
far the word token matches.  An immediate token follows no extra, and a keyword
is no part of a longer word. -/
def candidate? (start : Nat) (valid : Option (Array Symbol)) (afterExtra : Bool)
    (word : Option Nat) (rule : LexRule) (m : Matcher) : Option Candidate :=
  if rule.immediate && afterExtra then none
  else if valid.any fun v => !SortedArray.contains v rule.symbol && !l.isExtra rule.symbol then none
  else
    match m.length? text start with
    | none => none
    | some n =>
      if m.isLiteral && word.any (· > n) && isKeyword l (text.extract start (start + n)) then none
      else some ⟨rule.symbol, n, rule.precedence, m.isLiteral⟩

/-- The best match at an offset. -/
def bestMatch? (start : Nat) (valid : Option (Array Symbol)) (afterExtra : Bool) :
    Option Candidate :=
  let word := l.wordMatcher?.bind fun m => m.length? text start
  firstBest? Candidate.beats
    (l.rules.filterMap fun (rule, m) => candidate? l text start valid afterExtra word rule m)

/-- The end of the unrecognized text that goes on at offset `stop`: where some
rule matches, or the text ends.  `fuel` bounds the characters. -/
def unrecognizedEnd : Nat → Nat → Nat
  | 0, stop => stop
  | fuel + 1, stop =>
    if stop < text.size then
      if l.rules.any fun r => (r.2.length? text stop).isSome then stop
      else unrecognizedEnd fuel (stop + characterWidth text stop)
    else stop

theorem le_unrecognizedEnd (l : Language) (text : Bytes) (fuel stop : Nat) :
    stop ≤ unrecognizedEnd l text fuel stop := by
  induction fuel generalizing stop with
  | zero => exact Nat.le_refl _
  | succ fuel ih =>
    unfold unrecognizedEnd
    split
    · split
      · exact Nat.le_refl _
      · exact Nat.le_trans (Nat.le_add_right _ _) (ih _)
    · exact Nat.le_refl _

/-- A token of some bytes. -/
def tokenAt (site : Site) (s : Symbol) (length lexState : Nat) : Subtree :=
  let start := site.position.bytes
  .mk { Subtree.tokenInfo l s (.of (text.extract start (start + length))) with
        lookahead := lineLookahead text (start + length)
        lexState
        afterExtra := site.afterExtra } []

/-- The token that a scanner found at offset `start`.  It must be valid and have
text. -/
def foundToken? (site : Site) (flags : List Bool) (start : Nat) (found : Scan) :
    Option Subtree :=
  match l.table.externals[found.token]?, flags[found.token]? with
  | some s, some true =>
    let stop := min found.cursor.tokenEnd text.size
    if stop ≤ start then none
    else
      some (.mk { Subtree.tokenInfo l s (.of (text.extract start stop)) with
                  lookahead := max (lineLookahead text stop) (found.cursor.examinedEnd - stop)
                  lexState := site.lexState
                  afterExtra := site.afterExtra
                  lastExternal := some found.state } [])
  | _, _ => none

/-- Asks the scanner for a token, if one of its tokens is valid. -/
def externalToken? (site : Site) : Option Subtree × List Event :=
  match l.scanner with
  | none => (none, [])
  | some scanner =>
    let valid := l.validTokens site.lexState
    let flags := l.table.externals.map (SortedArray.contains valid)
    if !flags.contains true then (none, [])
    else
      let start := min site.position.bytes text.size
      let (found, reports) := scanner.scan (.begin text start) flags site.external
      let reports := reports.map Event.scanner
      match found.bind (foundToken? l text site flags start) with
      | some t => (some t, reports ++ [.externalToken start t.symbol t.size.bytes])
      | none => (none, reports)

/-- The token that lexical rules find at a place.  There is always one: at the
end of the text the end itself, and an error token where no rule matches. -/
def ruleToken (site : Site) : Subtree × List Event :=
  let start := site.position.bytes
  if start ≥ text.size then
    (.mk { Subtree.tokenInfo l endSymbol Length.zero with lexState := site.lexState } [], [])
  else
    match bestMatch? l text start (some (l.validTokens site.lexState)) site.afterExtra with
    | some c => (tokenAt l text site c.symbol c.length site.lexState, [])
    | none =>
      match bestMatch? l text start none site.afterExtra with
      | some c =>
        (tokenAt l text site c.symbol c.length errorLexState, [.misplacedToken start c.symbol])
      | none =>
        let stop := unrecognizedEnd l text text.size (start + characterWidth text start)
        (tokenAt l text site errorSymbol (stop - start) errorLexState,
          [.unrecognized start (stop - start)])

/-- The token at a place: that of the scanner, if it finds one. -/
def token (site : Site) : Subtree × List Event :=
  match externalToken? l text site with
  | (some t, events) => (t, events)
  | (none, events) =>
    let (t, more) := ruleToken l text site
    (t, events ++ more)

end

end Glr.Parse
