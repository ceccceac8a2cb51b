import Glr.Regex.Normal
import Glr.Regex.SetSize

/-!
# Glr.Regex.Size

The memory that an expression takes in a machine over bytes, read forwards and
read backwards.  A pattern that takes too much either way is refused.

A choice between texts is a tree by their first bytes.  Where a text ends inside
the tree the texts before it are preferred to those after it, so they are kept in
separate runs.  Main statement: the runs keep all texts, and their order
(`intercalate_runs`).
-/

namespace Glr.Regex

/-- Texts that are not empty in groups by their first bytes, without them. -/
def byFirst (texts : List (List Nat)) : List (List (List Nat)) :=
  let heads := (texts.filterMap List.head?).eraseDups
  heads.map fun b => texts.filterMap fun t => if t.head? = some b then some t.tail else none

/-- The runs of texts before, between and after the empty ones. -/
def runs : List (List Nat) → List (List (List Nat))
  | [] => [[]]
  | t :: rest =>
    match t, runs rest with
    | [], rs => [] :: rs
    | t, r :: rs => (t :: r) :: rs
    | t, [] => [[t]]

/-- There is always a run, if only an empty one. -/
theorem runs_ne_nil (texts : List (List Nat)) : runs texts ≠ [] := by
  fun_cases runs texts <;> simp_all

/-- The runs with an empty text between any two of them are all texts. -/
theorem intercalate_runs (texts : List (List Nat)) :
    List.intercalate [[]] (runs texts) = texts := by
  induction texts with
  | nil => rfl
  | cons t rest ih =>
    obtain ⟨r, rs, h⟩ := List.exists_cons_of_ne_nil (runs_ne_nil rest)
    rw [h] at ih
    cases t with
    | nil => simp [runs, h, List.intercalate_cons_cons, ih]
    | cons b t =>
      cases rs with
      | nil => simp_all [runs]
      | cons r' rs =>
        simp only [runs, h]
        rw [List.intercalate_cons_cons] at ih ⊢
        rw [← ih]
        rfl

/-- Some texts without those of the empty ones that start them which follow
another one: they add nothing. -/
def dropEmpty : List (List Nat) → List (List Nat)
  | [] :: [] :: rest => dropEmpty ([] :: rest)
  | texts => texts

/-- Adds the states of a tree of texts, not all of which are empty; `fuel` bounds
its depth. -/
def addTree : Nat → List (List Nat) → Meter → Meter
  | 0, _, m => m
  | fuel + 1, texts, m =>
    let rs := (runs (dropEmpty texts)).map byFirst
    let m := rs.foldl (fun m groups =>
      let m := groups.foldl (fun m g => if g.all List.isEmpty then m else addTree fuel g m) m
      if groups.isEmpty then m
      else
        (m.addState (if groups.length = 1 then 0 else transitionSize * groups.length)).addBytes
          branchSize) m
    m.addState (branchSize * (rs.length - 1))

/-- Adds the states of a choice between texts. -/
def addTexts (m : Meter) (texts : List (List Nat)) : Meter :=
  addTree ((texts.foldl (fun n t => max n t.length) 0) + 1) texts (m.addState 0)

/-- Two texts without a common start: a state for both first bytes, one for each
of the other bytes with what leads to it, and the end. -/
example : addTexts .zero [[97, 98], [99, 100]] = ⟨7, 28⟩ := by decide

/-! ## Expressions -/

open Unicode (CharSet)

/-- The memory that a pattern may take, in bytes. -/
def sizeLimit : Nat := 10 * 1024 * 1024

/-- What an expression adds to a machine, and whether it ends in a branch.  A
branch takes bytes for each way out of it, any other state for none. -/
abbrev Measure := Meter → Meter × Bool

namespace Meter

/-- Adds a way out of a state, which is a branch or not. -/
def link (m : Meter) (branch : Bool) : Meter := if branch then m.addBytes branchSize else m

/-- Adds a branch with some ways out. -/
def addBranch (m : Meter) (ways : Nat) : Meter := m.addState (branchSize * ways)

end Meter

namespace Measure

/-- A single state. -/
def state : Measure := fun m => (m.addState 0, false)

/-- One expression after another, in the order in which they are read. -/
def seq (first second : Measure) : Measure := fun m =>
  let (m, branch) := first m
  second (m.link branch)

/-- Some copies of an expression, one after another, after what ends in a branch
or not.  What is too large already is not measured to the end. -/
def moreCopies (body : Measure) : Nat → Meter → Bool → Meter × Bool
  | 0, m, branch => (m, branch)
  | count + 1, m, branch =>
    if sizeLimit < m.bytes then (m, branch)
    else
      let (m, next) := body (m.link branch)
      moreCopies body count m next

/-- Some copies of an expression, one after another. -/
def copies (body : Measure) : Nat → Measure
  | 0 => state
  | count + 1 => fun m =>
    let (m, branch) := body m
    moreCopies body count m branch

/-- Some copies of an expression, each of which may be the last. -/
def optionalCopies (body : Measure) : Nat → Meter → Bool → Meter × Bool
  | 0, m, branch => (m.link branch, false)
  | count + 1, m, branch =>
    if sizeLimit < m.bytes then (m, branch)
    else
      let (m, next) := body ((m.link branch).addBranch 2)
      optionalCopies body count m next

/-- One expression or another; the states that hold a choice together come after
its second one. -/
def options : List Measure → Measure
  | [] => state
  | [a] => a
  | a :: b :: rest => fun m =>
    let (m, branchA) := a m
    let (m, branchB) := b m
    let m := (((m.addBranch 2).addState 0).link branchA).link branchB
    let add (m : Meter) (c : Measure) : Meter :=
      let (m, branch) := c m
      (m.addBytes branchSize).link branch
    (rest.foldl add m, false)

/-- An expression that is repeated; `consumes` says whether each of its matches
takes bytes. -/
def repeated (body : Measure) (consumes : Bool) (least : Nat) (most : Option Nat) : Measure :=
  fun m =>
    match least, most with
    | 0, some 1 =>
      let (m, branch) := body (m.addBranch 2)
      ((m.addState 0).link branch, false)
    | 0, none =>
      if consumes then
        let (m, branch) := body (m.addBranch 1)
        (m.link branch, true)
      else
        let (m, branch) := body m
        ((((m.link branch).addBranch 2).addBranch 2).addState 0, false)
    | least + 1, none =>
      let (m, branch) := copies body (least + 1) m
      ((m.link branch).addBranch 1, true)
    | least, some most =>
      if least = most then copies body least m
      else
        let (m, branch) := copies body least m
        optionalCopies body (most - least) (m.addState 0) branch

end Measure

namespace Node

/-- The texts that an expression chooses from, if it is a choice between texts
only. -/
def texts? : Node → Option (List (List Nat))
  | .alt a b => (Node.alt a b).options.mapM literal?
  | _ => none

/-- The measure of a choice from the measures of its options. -/
def choiceMeasure (backwards : Bool) (texts : Option (List (List Nat))) (options : List Measure) :
    Measure :=
  match texts with
  | some texts => fun m => (addTexts m (if backwards then texts.map List.reverse else texts), false)
  | none => .options options

/-- The measures of what an expression chooses from. -/
def measures (backwards : Bool) : Node → List Measure
  | .empty => [.state]
  | .look _ => [.state]
  | .chars s =>
    if s.below 128 then [fun m => (addByteSet m s, false)]
    else
      let sequences := byteRanges s.ranges.toList
      [fun m => (addCharSet backwards m sequences, false)]
  | .bytes s => [if s.single?.isSome then .state else fun m => (addByteSet m s, false)]
  | .seq a b =>
    let first := choiceMeasure backwards a.texts? (measures backwards a)
    let second := choiceMeasure backwards b.texts? (measures backwards b)
    [if backwards then second.seq first else first.seq second]
  | .alt a b => measures backwards a ++ measures backwards b
  | .times body least most _ =>
    let inner := choiceMeasure backwards body.texts? (measures backwards body)
    [inner.repeated body.consumes least most]
  | .group _ body =>
    let inner := choiceMeasure backwards body.texts? (measures backwards body)
    [if backwards then inner else (Measure.state.seq inner).seq .state]

/-- The measure of an expression. -/
def measure (backwards : Bool) (n : Node) : Measure :=
  choiceMeasure backwards n.texts? (n.measures backwards)

/-- The size of the machine of an expression, in bytes.  It starts by skipping
text, unless matches are pinned; read forwards it notes where a match starts and
ends. -/
def size (backwards : Bool) (n : Node) : Nat :=
  let pinned := if backwards then n.pinnedAtEnd else n.pinned
  let start : Meter :=
    if pinned then Meter.zero.addState 0
    else (addByteSet (Meter.zero.addBranch 1) (.interval 0 255)).addBytes branchSize
  let whole : Meter × Bool :=
    if backwards then n.measure true start
    else (Measure.state.seq (n.measure false) |>.seq .state) start
  ((whole.1.link whole.2).addState 0).bytes

/-- The number of texts from which on a choice between them is searched for
without a machine. -/
def manyTexts : Nat := 3000

/-- Whether an expression is small enough. -/
def fits (n : Node) : Bool :=
  (n.texts?.any fun texts => manyTexts ≤ texts.length) ||
    (n.size false ≤ sizeLimit && n.size true ≤ sizeLimit)

end Node

end Glr.Regex
