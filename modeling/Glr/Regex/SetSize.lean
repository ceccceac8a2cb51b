import Glr.Text.Bytes
import Glr.Unicode.CharSet
import Std.Data.HashMap

/-!
# Glr.Regex.SetSize

The memory that a set of characters takes in a machine over bytes.  The encoded
forms of the characters between two code points are sequences of byte ranges: a
character belongs to a sequence if each of its bytes lies in the range at its
place.  The characters are cut where this is not so, and the sequences come in
increasing order.

Read forwards, the encoded forms of a set are a tree whose equal subtrees are
shared; read backwards, the sequences share what they end with.  What is to be
shared is found in a table with a fixed number of slots, where a later entry
takes the place of an earlier one.
-/

namespace Glr.Regex

/-- The first and last of some numbers. -/
abbrev Interval := Nat × Nat

namespace Interval

/-- The first of the bounds where encoded forms get longer that lies inside a
range. -/
def lengthCut? (r : Interval) : Option Nat :=
  [0x7F, 0x7FF, 0xFFFF].find? fun cut => r.1 ≤ cut && cut < r.2

/-- Where to cut a range of characters of one length so that the last bytes of
its first half, or of its second half, run through all their values; `none` if
they do on both sides.  A block holds the characters that differ in their last
byte, or in their last two or three bytes. -/
def blockCut? (r : Interval) : Option Nat :=
  [64, 4096, 262144].findSome? fun block =>
    if r.1 / block = r.2 / block then none
    else if r.1 % block ≠ 0 then some (r.1 / block * block + (block - 1))
    else if r.2 % block ≠ block - 1 then some (r.2 / block * block - 1)
    else none

/-- Where to cut a range of characters, if it is to be cut. -/
def cut? (r : Interval) : Option Nat :=
  r.lengthCut? <|> (if r.2 ≤ 0x7F then none else r.blockCut?)

/-- The sequences of byte ranges for a range of characters. -/
def encoded (r : Interval) : List (List Interval) :=
  match r.cut? with
  | some cut =>
    if _h : r.1 ≤ cut ∧ cut < r.2 then encoded (r.1, cut) ++ encoded (cut + 1, r.2)
    else [(Utf8.encode r.1).zip (Utf8.encode r.2)]
  | none => [(Utf8.encode r.1).zip (Utf8.encode r.2)]
  termination_by r.2 - r.1
  decreasing_by
    · omega
    · omega

/-- The parts of a range of code points on both sides of the surrogates. -/
def withoutSurrogates (r : Interval) : List Interval :=
  [(r.1, min r.2 0xD7FF), (max r.1 0xE000, r.2)].filter fun r => r.1 ≤ r.2

/-- A range without surrogates has all of its code points that are characters. -/
theorem mem_withoutSurrogates {r : Interval} {c : Nat} :
    (∃ s ∈ r.withoutSurrogates, s.1 ≤ c ∧ c ≤ s.2) ↔
      (r.1 ≤ c ∧ c ≤ r.2) ∧ (c < 0xD800 ∨ 0xE000 ≤ c) := by
  simp only [withoutSurrogates, List.mem_filter, List.mem_cons, List.not_mem_nil, or_false,
    decide_eq_true_eq]
  constructor
  · rintro ⟨s, ⟨rfl | rfl, hs⟩, h⟩ <;> simp only at h <;> omega
  · rintro ⟨h, hc | hc⟩
    · exact ⟨_, ⟨.inl rfl, by simp only; omega⟩, by simp only; omega⟩
    · exact ⟨_, ⟨.inr rfl, by simp only; omega⟩, by simp only; omega⟩

end Interval

/-- The sequences of byte ranges for some ranges of code points. -/
def byteRanges (rs : List Interval) : List (List Interval) :=
  rs.flatMap fun r => r.withoutSurrogates.flatMap Interval.encoded

/-! ## Meters -/

open Unicode (CharSet)

/-- The states of a machine so far, and the bytes that they take beside their
own size. -/
structure Meter where
  states : Nat
  extra : Nat
  deriving DecidableEq, Repr

namespace Meter

/-- The meter of a machine without states. -/
def zero : Meter := ⟨0, 0⟩

/-- The size of a state, in bytes. -/
def stateSize : Nat := 32

/-- The size of a machine, in bytes. -/
def bytes (m : Meter) : Nat := stateSize * m.states + m.extra

/-- Adds a state with some bytes beside its own size. -/
def addState (m : Meter) (extra : Nat) : Meter := ⟨m.states + 1, m.extra + extra⟩

/-- Adds bytes to a state. -/
def addBytes (m : Meter) (extra : Nat) : Meter := ⟨m.states, m.extra + extra⟩

/-- A state takes its own size and its further bytes. -/
theorem bytes_addState (m : Meter) (extra : Nat) :
    (m.addState extra).bytes = m.bytes + stateSize + extra := by
  simp only [bytes, addState, Nat.mul_add, Nat.mul_one]
  omega

end Meter

/-- The size of a transition to another state, in bytes. -/
def transitionSize : Nat := 8

/-- The size of one way out of a branch, in bytes. -/
def branchSize : Nat := 4

/-! ## Shared states -/

/-- A transition: bytes, and the state that they lead to. -/
abbrev Transition := Interval × Nat

/-- A number of 64 bits that depends on all of some numbers. -/
def hashNumbers (ns : List Nat) : UInt64 :=
  ns.foldl (fun h n => (UInt64.xor h n.toUInt64) * 1099511628211) 14695981039346656037

/-- A machine that grows, with a table of states by what they do. -/
structure Sharing where
  meter : Meter
  slots : UInt64
  known : Std.HashMap Nat (List Transition × Nat)

namespace Sharing

/-- A table without entries. -/
def start (meter : Meter) (slots : UInt64) : Sharing := ⟨meter, slots, ∅⟩

/-- The state that the table has in a slot, if it does what `key` says. -/
def find? (t : Sharing) (slot : Nat) (key : List Transition) : Option Nat :=
  match t.known[slot]? with
  | some (k, i) => if k = key then some i else none
  | none => none

/-- The state that does what `key` says, a new one if the table has none; a new
state takes `extra` bytes beside its own size.  `code` says where to look. -/
def state (t : Sharing) (key : List Transition) (code : List Nat) (extra : Nat) : Nat × Sharing :=
  let slot := (hashNumbers code % t.slots).toNat
  match t.find? slot key with
  | some i => (i, t)
  | none =>
    let new := t.meter.states
    (new, { t with meter := t.meter.addState extra, known := t.known.insert slot (key, new) })

end Sharing

/-! ## Forwards -/

/-- A state that is not finished: its transitions, and the bytes of a last one
that leads to a state not yet there. -/
structure OpenState where
  transitions : List Transition
  last : Option Interval
  deriving Repr

namespace OpenState

/-- The transitions of a state whose last one leads to `target`. -/
def finish (s : OpenState) (target : Nat) : List Transition :=
  s.transitions ++ s.last.toList.map fun r => (r, target)

end OpenState

/-- Finishes states, each of which leads to the one before it and the first one
to `target`; answers the last one. -/
def finishAll (t : Sharing) (target : Nat) : List OpenState → Nat × Sharing
  | [] => (target, t)
  | s :: rest =>
    let key := s.finish target
    let (i, t) := t.state key (key.flatMap fun e => [e.1.1, e.1.2, e.2])
      (transitionSize * key.length)
    finishAll t i rest

/-- Adds a sequence of byte ranges that ends in the state `final`.  The path
leads through the sequence before it, which is not greater. -/
def addSequence (final : Nat) (t : Sharing) (path : List OpenState) (q : List Interval) :
    Sharing × List OpenState :=
  let shared := ((path.zip q).takeWhile fun p => p.1.last = some p.2).length
  let (target, t) := finishAll t final (path.drop (shared + 1)).reverse
  match path.drop shared, q.drop shared with
  | s :: _, r :: rest =>
    (t, path.take shared ++ ⟨s.finish target, some r⟩ :: rest.map fun r => ⟨[], some r⟩)
  | _, _ => (t, path)

/-- Adds a set of characters that is read forwards. -/
def addForwards (m : Meter) (sequences : List (List Interval)) : Meter :=
  let start : Sharing × List OpenState := (.start (m.addState 0) 10000, [⟨[], none⟩])
  let (t, path) := sequences.foldl (fun p q => addSequence m.states p.1 p.2 q) start
  (finishAll t m.states path.reverse).2.meter

/-! ## Backwards -/

/-- Adds a sequence of byte ranges that is read from its end to its start. -/
def addBackwards (final : Nat) (t : Sharing) (q : List Interval) : Sharing :=
  let step (p : Nat × Sharing) (r : Interval) : Nat × Sharing :=
    p.2.state [(r, p.1)] [p.1, r.1, r.2] 0
  let t := (q.foldl step (final, t)).2
  { t with meter := t.meter.addBytes branchSize }

/-! ## Sets -/

/-- Adds a set whose elements take one byte each. -/
def addByteSet (m : Meter) (s : CharSet) : Meter :=
  (m.addState 0).addState (transitionSize * s.ranges.size)

/-- Adds a set of characters with some sequences of byte ranges. -/
def addCharSet (backwards : Bool) (m : Meter) (sequences : List (List Interval)) : Meter :=
  if backwards then
    let branch := (m.addState 0).addState 0
    (sequences.foldl (addBackwards (m.states + 1)) (.start branch 1000)).meter
  else addForwards m sequences

end Glr.Regex
