import Glr.Tree.Basic

/-!
# Glr.Tree.ChangedRanges

Where the structure of two trees differs.  The trees are walked together as
long as they have the same shape; a pair of nodes that is neither the same nor
of the same shape counts as changed from its start to the later of its ends.
-/

namespace Glr

/-- Adds a range to some ranges, the last one first; a range that meets the last
one extends it. -/
def Range.addTo (ranges : List Range) (r : Range) : List Range :=
  match ranges with
  | [] => [r]
  | last :: before =>
    if r.startByte ≤ last.endByte then
      if r.endByte > last.endByte then
        { last with endByte := r.endByte, endPoint := r.endPoint } :: before
      else last :: before
    else r :: last :: before

namespace Subtree

/-- The range that counts as changed for a pair of nodes. -/
def changedRange (old : Subtree) (oldStart : Length) (new : Subtree) (newStart : Length) : Range :=
  let newEnd := newStart + new.size
  let oldEnd := oldStart + old.size
  .between newStart (if oldEnd.bytes > newEnd.bytes then oldEnd else newEnd)

mutual
/-- Adds to `ranges`, the last one first, what differs between two nodes. -/
def addChanges (oldStart newStart : Length) (ranges : List Range) : Subtree → Subtree → List Range
  | .mk a as, .mk b bs =>
    if oldStart.bytes == newStart.bytes && sameAs (.mk a as) (.mk b bs) then ranges
    else if a.symbol == b.symbol && oldStart.bytes == newStart.bytes && as.length == bs.length
        && !as.isEmpty then
      addChangesAll oldStart newStart ranges as bs
    else Range.addTo ranges (changedRange (.mk a as) oldStart (.mk b bs) newStart)
/-- Adds what differs between the children at the same places. -/
def addChangesAll (oldStart newStart : Length) (ranges : List Range) :
    List (Child Subtree) → List (Child Subtree) → List Range
  | ⟨_, s⟩ :: as, ⟨_, t⟩ :: bs =>
    addChangesAll (oldStart + s.size) (newStart + t.size) (addChanges oldStart newStart ranges s t)
      as bs
  | _, _ => ranges
end

end Subtree

/-- The ranges in which the structure of a tree differs from a later one. -/
def Tree.changedRanges (old new : Tree) : List Range :=
  (old.root.addChanges Length.zero Length.zero [] new.root).reverse

end Glr
