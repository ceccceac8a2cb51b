/-!
# Glr.Unicode.CharSet

Sets of numbers (code points or bytes) as ranges.  A set is kept in normal
form: its ranges are in increasing order and no two of them touch.
-/

namespace Glr.Unicode

/-- A set as ranges, first and last element of each. -/
structure CharSet where
  ranges : Array (Nat × Nat)
  deriving DecidableEq, Repr, Inhabited

namespace CharSet

/-- Joins ranges, sorted by their first elements, that overlap or touch. -/
def joinRanges : List (Nat × Nat) → List (Nat × Nat)
  | [] => []
  | [r] => [r]
  | r :: s :: rest =>
    if s.1 ≤ r.2 + 1 then joinRanges ((r.1, max r.2 s.2) :: rest) else r :: joinRanges (s :: rest)
  termination_by rs => rs.length

/-- Joining ranges neither adds nor loses an element. -/
theorem mem_joinRanges {rs : List (Nat × Nat)} (hs : rs.Pairwise fun r s => r.1 ≤ s.1) {c : Nat} :
    (∃ r ∈ joinRanges rs, r.1 ≤ c ∧ c ≤ r.2) ↔ ∃ r ∈ rs, r.1 ≤ c ∧ c ≤ r.2 := by
  induction rs using joinRanges.induct with
  | case1 => simp [joinRanges]
  | case2 r => simp [joinRanges]
  | case3 r s rest h ih =>
    obtain ⟨hr, hrest⟩ := List.pairwise_cons.mp hs
    have hrs := hr s (by simp)
    rw [joinRanges, if_pos h, ih (List.pairwise_cons.mpr
      ⟨fun t ht => hr t (by simp [ht]), (List.pairwise_cons.mp hrest).2⟩)]
    simp only [List.mem_cons, exists_eq_or_imp]
    rw [← or_assoc]
    refine or_congr_left ?_
    omega
  | case4 r s rest h ih =>
    rw [joinRanges, if_neg h]
    simp only [List.mem_cons, exists_eq_or_imp] at ih ⊢
    rw [ih (List.pairwise_cons.mp hs).2]

/-- The set of some ranges, in any order. -/
def ofRanges (rs : List (Nat × Nat)) : CharSet :=
  ⟨(joinRanges (rs.mergeSort fun r s => r.1 ≤ s.1)).toArray⟩

/-- The set without elements. -/
def empty : CharSet := ⟨#[]⟩

/-- The set of one element. -/
def singleton (c : Nat) : CharSet := ⟨#[(c, c)]⟩

/-- The elements from `low` to `high`. -/
def interval (low high : Nat) : CharSet := ⟨#[(low, high)]⟩

/-- The set of some elements. -/
def ofElements (cs : List Nat) : CharSet := ofRanges (cs.map fun c => (c, c))

/-- Whether a set has no elements. -/
def isEmpty (s : CharSet) : Bool := s.ranges.isEmpty

/-- The least element. -/
def first? (s : CharSet) : Option Nat := s.ranges[0]?.map Prod.fst

/-- The greatest element. -/
def last? (s : CharSet) : Option Nat := s.ranges.back?.map Prod.snd

/-- The element of a set that has just one. -/
def single? (s : CharSet) : Option Nat :=
  match s.ranges.toList with
  | [r] => if r.1 = r.2 then some r.1 else none
  | _ => none

/-- The element of a set of one element. -/
theorem single?_singleton (c : Nat) : (singleton c).single? = some c := by
  simp [single?, singleton]

/-- Searches the ranges with indices from `low` below `high`; `fuel` bounds
the number of halvings. -/
def search (ranges : Array (Nat × Nat)) (c : Nat) : Nat → Nat → Nat → Bool
  | 0, _, _ => false
  | fuel + 1, low, high =>
    if low < high then
      let mid := (low + high) / 2
      match ranges[mid]? with
      | none => false
      | some r =>
        if c < r.1 then search ranges c fuel low mid
        else if r.2 < c then search ranges c fuel (mid + 1) high
        else true
    else false

/-- Whether `c` is an element. -/
def contains (s : CharSet) (c : Nat) : Bool := search s.ranges c s.ranges.size 0 s.ranges.size

/-- The elements of either set. -/
def union (s t : CharSet) : CharSet := ofRanges (s.ranges.toList ++ t.ranges.toList)

/-- The last code point. -/
def maxChar : Nat := 0x10FFFF

/-- The character after `c`; surrogates are no characters. -/
def next (c : Nat) : Nat := if c = 0xD7FF then 0xE000 else c + 1

/-- The character before `c`. -/
def previous (c : Nat) : Nat := if c = 0xE000 then 0xD7FF else c - 1

/-- The first and last characters of the gaps between a range that ends at
`last` and the ranges after it, up to `limit`. -/
def gapsAfter (limit last : Nat) : List (Nat × Nat) → List (Nat × Nat)
  | [] => if last < limit then [(next last, limit)] else []
  | r :: rest => (next last, previous r.1) :: gapsAfter limit r.2 rest

/-- The first and last characters of the gaps between some ranges, up to
`limit`.  Where surrogates alone lie between two ranges the gap is empty, and
its last character comes before its first. -/
def gaps (limit : Nat) : List (Nat × Nat) → List (Nat × Nat)
  | [] => [(0, limit)]
  | r :: rest => (if 0 < r.1 then [(0, previous r.1)] else []) ++ gapsAfter limit r.2 rest

/-- The characters up to `limit` that are no elements. -/
def complement (limit : Nat) (s : CharSet) : CharSet :=
  ⟨((gaps limit s.ranges.toList).filter fun r => r.1 ≤ r.2).toArray⟩

/-- What a negation in a pattern stands for: the complement, except that an
empty gap gives the two characters around it. -/
def negate (limit : Nat) (s : CharSet) : CharSet :=
  ⟨((gaps limit s.ranges.toList).map fun r => (min r.1 r.2, max r.1 r.2)).toArray⟩

/-- The ranges that two lists of ranges have in common. -/
def commonRanges : List (Nat × Nat) → List (Nat × Nat) → List (Nat × Nat)
  | r :: rs, s :: ss =>
    let rest := if r.2 < s.2 then commonRanges rs (s :: ss) else commonRanges (r :: rs) ss
    let low := max r.1 s.1
    let high := min r.2 s.2
    if low ≤ high then (low, high) :: rest else rest
  | _, _ => []
  termination_by rs ss => rs.length + ss.length

/-- The elements of both sets. -/
def inter (s t : CharSet) : CharSet :=
  ⟨(commonRanges s.ranges.toList t.ranges.toList).toArray⟩

/-- The elements of `s` that are none of `t`. -/
def diff (s t : CharSet) : CharSet := s.inter (t.complement maxChar)

/-- The elements of exactly one of the sets. -/
def symmDiff (s t : CharSet) : CharSet := (s.union t).diff (s.inter t)

/-- The elements of any of some sets. -/
def unions (ss : List CharSet) : CharSet := ofRanges (ss.flatMap fun s => s.ranges.toList)

/-- Whether every element is below `bound`. -/
def below (bound : Nat) (s : CharSet) : Bool := s.ranges.all fun r => r.2 < bound

end CharSet

/-! ## Reading data -/

/-- The value of a hexadecimal digit in lower case. -/
def hexDigit? (c : Char) : Option Nat :=
  if '0' ≤ c ∧ c ≤ '9' then some (c.toNat - 48)
  else if 'a' ≤ c ∧ c ≤ 'f' then some (c.toNat - 87)
  else none

/-- The hexadecimal numbers of a text, separated by other characters. -/
def hexNumbers (cs : List Char) (current : Option Nat) : List Nat :=
  match cs with
  | [] => current.toList
  | c :: rest =>
    match hexDigit? c with
    | some d => hexNumbers rest (some (current.getD 0 * 16 + d))
    | none => current.toList ++ hexNumbers rest none

/-- The hexadecimal numbers on some lines. -/
def dataNumbers (lines : List String) : List Nat := lines.flatMap fun l => hexNumbers l.toList none

/-- The ranges told by gaps and distances, from `start`. -/
def gapRanges (start : Nat) : List Nat → List (Nat × Nat)
  | gap :: distance :: rest =>
    (start + gap, start + gap + distance) :: gapRanges (start + gap + distance + 1) rest
  | _ => []

/-- The set told by a table of gaps and distances. -/
def dataSet (lines : List String) : CharSet := ⟨(gapRanges 0 (dataNumbers lines)).toArray⟩

/-- The single elements told by runs: a first element, how many there are, and
the step between them. -/
def stepRanges : List Nat → List (Nat × Nat)
  | first :: count :: step :: rest =>
    (List.range count).map (fun i => (first + i * step, first + i * step)) ++ stepRanges rest
  | _ => []

/-- The set told by a table of runs with steps. -/
def steppedSet (lines : List String) : CharSet := .ofRanges (stepRanges (dataNumbers lines))

/-- Reads runs: a length in hexadecimal, then a label of `width` characters. -/
def runsFrom (width : Nat) (start length : Nat) (label : List Char) : List Char →
    List (Nat × Nat × String)
  | [] => []
  | c :: rest =>
    if label.isEmpty then
      match hexDigit? c with
      | some d => runsFrom width start (length * 16 + d) [] rest
      | none => runsFrom width start length [c] rest
    else if label.length + 1 < width then runsFrom width start length (c :: label) rest
    else
      (start, start + length - 1, String.ofList (c :: label).reverse)
        :: runsFrom width (start + length) 0 [] rest

/-- The labelled ranges told by a table of runs. -/
def dataRuns (width : Nat) (lines : List String) : List (Nat × Nat × String) :=
  runsFrom width 0 0 [] (lines.flatMap String.toList)

/-- The set of the ranges whose label satisfies a test. -/
def runsWhere (runs : List (Nat × Nat × String)) (test : String → Bool) : CharSet :=
  CharSet.ofRanges ((runs.filter fun r => test r.2.2).map fun r => (r.1, r.2.1))

end Glr.Unicode
