import Glr.Json.Value

/-!
# Glr.Json.Token

The tokens of a JSON text, and the scanner that cuts a text into them.  The
scanner is an automaton over characters: `Scan.run` folds `Scan.step`, so a
text is read in one structural pass.

* `Token.text` writes a token;
* `Token.scan` reads the tokens of a text, ignoring blanks between them.
-/

namespace Glr.Json

/-- A token of a JSON text. -/
inductive Token where
  | lbrace
  | rbrace
  | lbracket
  | rbracket
  | colon
  | comma
  | null
  | bool (b : Bool)
  | int (n : Int)
  | string (s : String)
  /-- A number that is not written as an integer. -/
  | fraction
  /-- A string with half of a surrogate pair. -/
  | brokenString
  deriving DecidableEq, Repr, Inhabited

/-! ## Writing -/

/-- A hexadecimal digit. -/
def hexDigit (n : Nat) : Char := if n < 10 then Char.ofNat (48 + n) else Char.ofNat (87 + n)

/-- A character as it stands inside quotes. -/
def escapeChar (c : Char) : List Char :=
  if c = '"' then ['\\', '"']
  else if c = '\\' then ['\\', '\\']
  else if c.toNat = 8 then ['\\', 'b']
  else if c.toNat = 12 then ['\\', 'f']
  else if c = '\n' then ['\\', 'n']
  else if c = '\r' then ['\\', 'r']
  else if c = '\t' then ['\\', 't']
  else if c.toNat < 32 then ['\\', 'u', '0', '0', hexDigit (c.toNat / 16), hexDigit (c.toNat % 16)]
  else [c]

/-- A string in quotes. -/
def quoted (s : String) : List Char := '"' :: s.toList.flatMap escapeChar ++ ['"']

/-- The characters of a token. -/
def Token.text : Token → List Char
  | .lbrace => ['\x7b']
  | .rbrace => ['\x7d']
  | .lbracket => ['[']
  | .rbracket => [']']
  | .colon => [':']
  | .comma => [',']
  | .null => ['n', 'u', 'l', 'l']
  | .bool true => ['t', 'r', 'u', 'e']
  | .bool false => ['f', 'a', 'l', 's', 'e']
  | .int n => (toString n).toList
  | .string s => quoted s
  | .fraction => ['n', 'u', 'l', 'l']
  | .brokenString => ['n', 'u', 'l', 'l']

/-! ## Numbers -/

/-- The digits at the front of a text, and the rest. -/
def spanDigits (cs : List Char) : List Char × List Char :=
  (cs.takeWhile Char.isDigit, cs.dropWhile Char.isDigit)

/-- The value of decimal digits. -/
def digitsValue (ds : List Char) : Nat := ds.foldl (fun n d => n * 10 + (d.toNat - 48)) 0

/-- Passes a fraction, `.` and digits, where one starts; `none` where its digits are
missing. -/
def afterInteger (cs : List Char) : Option (List Char) :=
  match cs with
  | '.' :: rest =>
    match spanDigits rest with
    | ([], _) => none
    | (_, rest) => some rest
  | cs => some cs

/-- Whether a text is empty or an exponent, `e`, a sign and digits. -/
def isExponent (cs : List Char) : Bool :=
  let digits (cs : List Char) : Bool := !cs.isEmpty && cs.all Char.isDigit
  match cs with
  | [] => true
  | e :: rest =>
    (e == 'e' || e == 'E') &&
      (match rest with
       | '+' :: rest => digits rest
       | '-' :: rest => digits rest
       | rest => digits rest)

/-- Reads a number without its sign: the digits carry no leading zero. -/
def unsigned (negative : Bool) (cs : List Char) : Option Token :=
  match spanDigits cs with
  | ([], _) => none
  | (ds, rest) =>
    if ds.length > 1 && ds.head? == some '0' then none
    else if rest.isEmpty then
      if negative then
        if digitsValue ds = 0 then some .fraction else some (.int (-(digitsValue ds : Int)))
      else some (.int (digitsValue ds))
    else
      match afterInteger rest with
      | some rest => if isExponent rest then some .fraction else none
      | none => none

/-- Reads a token that is written without quotes or punctuation. -/
def bareToken (cs : List Char) : Option Token :=
  match cs with
  | ['n', 'u', 'l', 'l'] => some .null
  | ['t', 'r', 'u', 'e'] => some (.bool true)
  | ['f', 'a', 'l', 's', 'e'] => some (.bool false)
  | '-' :: cs => unsigned true cs
  | cs => unsigned false cs

/-! ## Scanning -/

namespace Scan

/-- Where the scanner stands inside quotes. -/
inductive Escape where
  /-- Between characters. -/
  | plain
  /-- After a backslash. -/
  | slash
  /-- Inside `\u`, with digits to go and the value so far. -/
  | hex (left value : Nat)
  deriving DecidableEq, Repr

/-- Where the scanner stands. -/
inductive Mode where
  /-- Between tokens. -/
  | between
  /-- In a word or a number, its characters in reverse. -/
  | bare (rev : List Char)
  /-- Inside quotes: the characters so far in reverse, the high half of a
  surrogate pair that waits for its low half, and whether a half is lost. -/
  | text (rev : List Char) (high : Option Nat) (broken : Bool) (escape : Escape)
  deriving DecidableEq, Repr

/-- The scanner's mode with the tokens read so far in reverse. -/
structure State where
  mode : Mode
  rev : List Token

/-- Whether a character belongs to a word or a number. -/
def isBare (c : Char) : Bool := c.isAlphanum || c == '+' || c == '-' || c == '.'

/-- The punctuation token of a character. -/
def punctuation? (c : Char) : Option Token :=
  if c = '\x7b' then some .lbrace
  else if c = '\x7d' then some .rbrace
  else if c = '[' then some .lbracket
  else if c = ']' then some .rbracket
  else if c = ':' then some .colon
  else if c = ',' then some .comma
  else none

/-- Whether a character is a blank between tokens. -/
def isBlank (c : Char) : Bool := c == ' ' || c == '\n' || c == '\t' || c == '\r'

/-- One character between tokens. -/
def between (rev : List Token) (c : Char) : Option State :=
  if isBlank c then some ⟨.between, rev⟩
  else if c = '"' then some ⟨.text [] none false .plain, rev⟩
  else if isBare c then some ⟨.bare [c], rev⟩
  else (punctuation? c).map fun t => ⟨.between, t :: rev⟩

/-- The value of a hexadecimal digit. -/
def hexValue? (c : Char) : Option Nat :=
  if '0' ≤ c ∧ c ≤ '9' then some (c.toNat - 48)
  else if 'a' ≤ c ∧ c ≤ 'f' then some (c.toNat - 87)
  else if 'A' ≤ c ∧ c ≤ 'F' then some (c.toNat - 55)
  else none

/-- The character that a letter after a backslash stands for. -/
def simpleEscape? (c : Char) : Option Char :=
  if c = '"' ∨ c = '\\' ∨ c = '/' then some c
  else if c = 'b' then some (Char.ofNat 8)
  else if c = 'f' then some (Char.ofNat 12)
  else if c = 'n' then some '\n'
  else if c = 'r' then some '\r'
  else if c = 't' then some '\t'
  else none

/-- Takes the unit of a finished `\u` escape: it is a character, the high half
of a pair, or the low half that completes one. -/
def takeUnit (rev : List Char) (high : Option Nat) (broken : Bool) (unit : Nat) : Mode :=
  if 0xDC00 ≤ unit ∧ unit ≤ 0xDFFF then
    match high with
    | some h =>
      let code := 0x10000 + (h - 0xD800) * 0x400 + (unit - 0xDC00)
      .text (Char.ofNat code :: rev) none broken .plain
    | none => .text rev none true .plain
  else if 0xD800 ≤ unit ∧ unit ≤ 0xDBFF then
    .text rev (some unit) (broken || high.isSome) .plain
  else .text (Char.ofNat unit :: rev) none (broken || high.isSome) .plain

/-- One character inside quotes. -/
def inside (tokens : List Token) (rev : List Char) (high : Option Nat) (broken : Bool)
    (escape : Escape) (c : Char) : Option State :=
  match escape with
  | .plain =>
    if c = '"' then
      let token :=
        if broken || high.isSome then .brokenString else Token.string (String.ofList rev.reverse)
      some ⟨.between, token :: tokens⟩
    else if c = '\\' then some ⟨.text rev high broken .slash, tokens⟩
    else if c.toNat < 32 then none
    else some ⟨.text (c :: rev) none (broken || high.isSome) .plain, tokens⟩
  | .slash =>
    if c = 'u' then some ⟨.text rev high broken (.hex 4 0), tokens⟩
    else
      (simpleEscape? c).map fun d =>
        ⟨.text (d :: rev) none (broken || high.isSome) .plain, tokens⟩
  | .hex left value =>
    (hexValue? c).map fun d =>
      if left ≤ 1 then ⟨takeUnit rev high broken (value * 16 + d), tokens⟩
      else ⟨.text rev high broken (.hex (left - 1) (value * 16 + d)), tokens⟩

/-- One character. -/
def step (s : State) (c : Char) : Option State :=
  match s.mode with
  | .between => between s.rev c
  | .bare rev =>
    if isBare c then some ⟨.bare (c :: rev), s.rev⟩
    else (bareToken rev.reverse).bind fun t => between (t :: s.rev) c
  | .text rev high broken escape => inside s.rev rev high broken escape c

/-- All characters, from a state. -/
def run (s : State) (cs : List Char) : Option State := cs.foldlM step s

/-- The tokens read when the text ends. -/
def finish (s : State) : Option (List Token) :=
  match s.mode with
  | .between => some s.rev.reverse
  | .bare rev => (bareToken rev.reverse).map fun t => (t :: s.rev).reverse
  | .text .. => none

end Scan

/-- The tokens of a text. -/
def Token.scan (cs : List Char) : Option (List Token) :=
  (Scan.run ⟨.between, []⟩ cs).bind Scan.finish

end Glr.Json
