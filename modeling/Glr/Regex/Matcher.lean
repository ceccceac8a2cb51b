import Glr.Regex.Program
import Glr.Regex.Size
import Glr.Text.Bytes

/-!
# Glr.Regex.Matcher

Runs programs.  All threads advance through the text together, in order of
preference; a thread that reaches an instruction after another one did is
dropped, so a run takes time proportional to the text and the program.  The
match of the most preferred thread counts, not the longest one.
-/

namespace Glr

/-- A pattern with its program. -/
structure Regex where
  source : String
  /-- Whether every match starts at the start of the text. -/
  pinned : Bool
  program : Regex.Program
  deriving Repr, Inhabited

namespace Regex

open Unicode (CharSet)

/-! ## Positions -/

/-- Whether a word character of Unicode starts at an offset. -/
def wordAt (text : Bytes) (i : Nat) : Bool :=
  match Utf8.decode? text i with
  | some (c, _) => if c < 128 then asciiWord.contains c else Unicode.wordChars.contains c
  | none => false

/-- The code point that ends before an offset and starts at `base` or later. -/
def charBefore? (text : Bytes) (base i : Nat) : Option Nat :=
  if base < i then Utf8.decodeBefore? (text.extract base i) (i - base) else none

/-- Whether a word character of Unicode ends before an offset. -/
def wordBefore (text : Bytes) (base i : Nat) : Bool :=
  match charBefore? text base i with
  | some c => if c < 128 then asciiWord.contains c else Unicode.wordChars.contains c
  | none => false

/-- Whether the text around an offset is well-formed on both sides. -/
def soundAround (text : Bytes) (base i : Nat) : Bool :=
  (i ≤ base || (charBefore? text base i).isSome) && (i ≥ text.size || (Utf8.decode? text i).isSome)

/-- Whether a byte is a word character of ASCII. -/
def asciiWordByte (b : Option UInt8) : Bool :=
  match b with
  | some b => asciiWord.contains b.toNat
  | none => false

/-- The words before and after an offset. -/
def words (text : Bytes) (base i : Nat) (unicode : Bool) : Bool × Bool :=
  if unicode then (wordBefore text base i, wordAt text i)
  else (asciiWordByte (if base < i then text[i - 1]? else none), asciiWordByte text[i]?)

/-- Whether a position holds at offset `i` of a text that begins at `base`. -/
def Look.holds (l : Look) (text : Bytes) (base i : Nat) : Bool :=
  let before? : Option UInt8 := if base < i then text[i - 1]? else none
  let after? := text[i]?
  match l with
  | .textStart => i == base
  | .textEnd => i ≥ text.size
  | .lineStart false => before?.isNone || before? == some 10
  | .lineStart true =>
    before?.isNone || before? == some 10 || (before? == some 13 && after? != some 10)
  | .lineEnd false => after?.isNone || after? == some 10
  | .lineEnd true =>
    after?.isNone || after? == some 13 || (after? == some 10 && before? != some 13)
  | .wordBoundary u => let w := words text base i u; w.1 != w.2
  | .notWordBoundary u =>
    (!u || soundAround text base i) && (let w := words text base i u; w.1 == w.2)
  | .wordStart u => let w := words text base i u; !w.1 && w.2
  | .wordEnd u => let w := words text base i u; w.1 && !w.2
  | .wordStartHalf u =>
    (!u || i ≤ base || (charBefore? text base i).isSome) && !(words text base i u).1
  | .wordEndHalf u =>
    (!u || i ≥ text.size || (Utf8.decode? text i).isSome) && !(words text base i u).2

/-! ## Threads -/

/-- A thread: the address it goes on at, once `wait` more bytes are passed. -/
structure Thread where
  pc : Nat
  wait : Nat
  deriving Repr, Inhabited

/-- Follows splits and positions from the addresses in `pending`, in order of
preference, to instructions that take text.  `seen` marks the addresses that
were reached at the offset numbered `stamp`; `fuel` bounds the addresses. -/
def spread (instrs : Array Instr) (text : Bytes) (base i stamp : Nat) :
    Nat → List Nat → Array Nat → Array Nat → Array Nat × Array Nat
  | 0, _, seen, out => (seen, out)
  | _, [], seen, out => (seen, out)
  | fuel + 1, pc :: pending, seen, out =>
    if seen[pc]? == some stamp then spread instrs text base i stamp fuel pending seen out
    else
      let seen := seen.setIfInBounds pc stamp
      match instrs[pc]? with
      | none => spread instrs text base i stamp fuel pending seen out
      | some (.split a b) => spread instrs text base i stamp fuel (a :: b :: pending) seen out
      | some (.look l next) =>
        if l.holds text base i then spread instrs text base i stamp fuel (next :: pending) seen out
        else spread instrs text base i stamp fuel pending seen out
      | some _ => spread instrs text base i stamp fuel pending seen (out.push pc)

/-- What the threads that take text at one offset lead to: the threads for the
next offset, and whether one of them matches here. -/
def advance (instrs : Array Instr) (char : Option (Nat × Nat)) (byte : Option UInt8) :
    List Nat → Array Thread → Array Thread × Bool
  | [], next => (next, false)
  | pc :: rest, next =>
    match instrs[pc]? with
    | some .done => (next, true)
    | some (.chars s target) =>
      match char with
      | some (c, width) =>
        advance instrs char byte rest
          (if s.contains c then next.push ⟨target, width - 1⟩ else next)
      | none => advance instrs char byte rest next
    | some (.bytes s target) =>
      match byte with
      | some b =>
        advance instrs char byte rest
          (if s.contains b.toNat then next.push ⟨target, 0⟩ else next)
      | none => advance instrs char byte rest next
    | _ => advance instrs char byte rest next

/-- One offset: each thread waits, or spreads and takes text.  Threads after
one that matches are dropped. -/
def stepThreads (instrs : Array Instr) (text : Bytes) (base i : Nat) (char : Option (Nat × Nat)) :
    List Thread → Array Nat → Array Thread → Array Nat × Array Thread × Bool
  | [], seen, next => (seen, next, false)
  | t :: rest, seen, next =>
    match t.wait with
    | wait + 1 => stepThreads instrs text base i char rest seen (next.push ⟨t.pc, wait⟩)
    | 0 =>
      let (seen, leaves) :=
        spread instrs text base i (i + 1) (2 * instrs.size + 2) [t.pc] seen #[]
      match advance instrs char text[i]? leaves.toList next with
      | (next, true) => (seen, next, true)
      | (next, false) => stepThreads instrs text base i char rest seen next

/-- Runs threads from offset `i` on, remembering the end of the best match so
far; `fuel` bounds the offsets. -/
def runFrom (instrs : Array Instr) (text : Bytes) (base : Nat) :
    Nat → Nat → Array Thread → Array Nat → Option Nat → Option Nat
  | 0, _, _, _, best => best
  | fuel + 1, i, threads, seen, best =>
    if threads.isEmpty then best
    else
      let (seen, next, found) :=
        stepThreads instrs text base i (Utf8.decode? text i) threads.toList seen #[]
      runFrom instrs text base fuel (i + 1) next seen (if found then some i else best)

/-- The end of the match that starts at offset `start` of a text that begins
at `base`. -/
def endFrom? (r : Regex) (text : Bytes) (base start : Nat) : Option Nat :=
  runFrom r.program.instrs text base (text.size - start + 1) start #[⟨r.program.start, 0⟩]
    (Array.replicate r.program.instrs.size 0) none

/-- The end of the match at the start of the text from offset `start` on;
nothing before it is seen. -/
def matchEnd? (r : Regex) (text : Bytes) (start : Nat) : Option Nat := r.endFrom? text start start

/-- The end of the leftmost match in the text from offset `start` on; nothing
before it is seen.  A pinned pattern is tried at `start` only. -/
def findEnd? (r : Regex) (text : Bytes) (start : Nat) : Option Nat :=
  if r.pinned then r.matchEnd? text start
  else (List.range (text.size + 1 - start)).findSome? fun k => r.endFrom? text start (start + k)

/-- Whether a pattern matches somewhere in a text. -/
def isMatch (r : Regex) (text : Bytes) : Bool := (r.findEnd? text 0).isSome

/-- Compiles a pattern. -/
def compile (source : String) : Except Error Regex :=
  match Node.parse source with
  | .error e => .error e
  | .ok n =>
    if n.fits then .ok ⟨source, n.pinned, Program.ofNode n⟩ else .error .tooLarge

/-- Compiles the pattern of a token, which matches at the start of the text.  A
source that closes the group early escapes from that. -/
def compileToken (source : String) : Except Error Regex := compile ("\\A(?:" ++ source ++ ")")

end Regex

end Glr
