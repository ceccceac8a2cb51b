import Glr.Regex.Parser

/-!
# Glr.Regex.Program

Expressions as programs for a machine with many threads.  An instruction
either tests the text and goes on, or splits into two threads of which the
first is preferred.
-/

namespace Glr.Regex

open Unicode (CharSet)

/-- An instruction; the numbers are addresses. -/
inductive Instr where
  /-- Takes one character of a set. -/
  | chars (set : CharSet) (next : Nat)
  /-- Takes one byte of a set. -/
  | bytes (set : CharSet) (next : Nat)
  /-- Goes on where a position holds. -/
  | look (l : Look) (next : Nat)
  /-- Goes on twice, preferably at the first address. -/
  | split (first second : Nat)
  /-- A match. -/
  | done
  deriving Repr, Inhabited

/-- A program and where it starts. -/
structure Program where
  instrs : Array Instr
  start : Nat
  deriving Repr, Inhabited

namespace Program

/-- Adds an instruction and answers its address. -/
def emit (code : Array Instr) (i : Instr) : Nat × Array Instr := (code.size, code.push i)

/-- A split that prefers `body` if `greedy`, else `exit`. -/
def choose (greedy : Bool) (body exit : Nat) : Instr :=
  if greedy then .split body exit else .split exit body

/-- Compiles `count` copies of something, one after another. -/
def copies (compile : Nat → Array Instr → Nat × Array Instr) :
    Nat → Nat → Array Instr → Nat × Array Instr
  | 0, next, code => (next, code)
  | count + 1, next, code =>
    let (start, code) := compile next code
    copies compile count start code

/-- Compiles up to `count` copies of something before `next`, each of which may
go on at `exit` instead. -/
def optionalCopies (compile : Nat → Array Instr → Nat × Array Instr) (greedy : Bool) (exit : Nat) :
    Nat → Nat → Array Instr → Nat × Array Instr
  | 0, next, code => (next, code)
  | count + 1, next, code =>
    let (body, code) := compile next code
    let (start, code) := emit code (choose greedy body exit)
    optionalCopies compile greedy exit count start code

/-- Compiles a loop that runs its body once at least. -/
def loop (compile : Nat → Array Instr → Nat × Array Instr) (greedy : Bool) (next : Nat)
    (code : Array Instr) : Nat × Array Instr :=
  let (again, code) := emit code .done
  let (body, code) := compile again code
  (body, code.setIfInBounds again (choose greedy body next))

/-- Compiles an expression that goes on at `next`; answers where it starts. -/
def compile : Node → Nat → Array Instr → Nat × Array Instr
  | .empty, next, code => (next, code)
  | .chars s, next, code => emit code (.chars s next)
  | .bytes s, next, code => emit code (.bytes s next)
  | .look l, next, code => emit code (.look l next)
  | .seq a b, next, code =>
    let (second, code) := compile b next code
    compile a second code
  | .alt a b, next, code =>
    let (first, code) := compile a next code
    let (second, code) := compile b next code
    emit code (.split first second)
  | .times body least most greedy, next, code =>
    match most, least with
    | some most, least =>
      let (next, code) := optionalCopies (compile body) greedy next (most - least) next code
      copies (compile body) least next code
    | none, 0 =>
      if body.consumes then
        let (again, code) := emit code .done
        let (start, code) := compile body again code
        (again, code.setIfInBounds again (choose greedy start next))
      else
        let (start, code) := loop (compile body) greedy next code
        emit code (choose greedy start next)
    | none, least + 1 =>
      let (start, code) := loop (compile body) greedy next code
      copies (compile body) least start code
  | .group _ body, next, code => compile body next code

/-- The program of an expression. -/
def ofNode (n : Node) : Program :=
  let (start, code) := compile n 0 #[.done]
  ⟨code, start⟩

end Program

end Glr.Regex
