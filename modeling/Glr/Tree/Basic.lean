import Glr.Tree.Subtree

/-!
# Glr.Tree.Basic

Trees of texts, and their tokens and errors in the order of the text.
-/

namespace Glr

/-- The tree of a text. -/
structure Tree where
  root : Subtree
  language : Language
  /-- Whether parsing reached the end of the text. -/
  complete : Bool

/-- A token of a tree. -/
structure Leaf where
  symbol : Symbol
  range : Range
  missing : Bool
  deriving DecidableEq, Repr

/-- An error in a tree: text that fits nowhere, or a token that is missing. -/
structure SyntaxError where
  /-- The kind of the missing token, or of an error node. -/
  kind : String
  missing : Bool
  range : Range
  deriving DecidableEq, Repr

/-- The text of an error. -/
def SyntaxError.message (e : SyntaxError) : String :=
  if e.missing then s!"missing {e.kind} at {e.range.startPoint.display}"
  else s!"syntax error at {e.range.display}"

/-- The span of a node that starts at a place. -/
def Subtree.rangeAt (t : Subtree) (start : Length) : Range := .between start (start + t.size)

namespace Subtree

mutual
/-- The tokens of a node that starts at a place. -/
def leavesAt (start : Length) : Subtree → List Leaf
  | .mk info [] => [⟨info.symbol, .between start (start + info.size), info.missing⟩]
  | .mk _ (c :: cs) => leavesAll start (c :: cs)
/-- The tokens of some children, the first of which starts at a place. -/
def leavesAll (start : Length) : List (Child Subtree) → List Leaf
  | [] => []
  | ⟨_, t⟩ :: rest => leavesAt start t ++ leavesAll (start + t.size) rest
end

mutual
/-- The errors of a node that starts at a place.  An error node counts once, with
all that is in it; a node without error has none. -/
def errorsAt (l : Language) (start : Length) : Subtree → List SyntaxError
  | .mk info children =>
    let t := Subtree.mk info children
    if !t.hasError then []
    else if t.isError then [⟨"ERROR", false, t.rangeAt start⟩]
    else if info.missing then [⟨l.kindOf info.symbol, true, t.rangeAt start⟩]
    else errorsAll l start children
/-- The errors of some children, the first of which starts at a place. -/
def errorsAll (l : Language) (start : Length) : List (Child Subtree) → List SyntaxError
  | [] => []
  | ⟨_, t⟩ :: rest => errorsAt l start t ++ errorsAll l (start + t.size) rest
end

end Subtree

namespace Tree

/-- The length of the text that the tree spans. -/
def lenBytes (t : Tree) : Nat := t.root.size.bytes

/-- Whether there is an error node or a missing token. -/
def hasError (t : Tree) : Bool := t.root.hasError

/-- The error nodes and missing tokens, in the order of the text. -/
def errors (t : Tree) : List SyntaxError := t.root.errorsAt t.language Length.zero

/-- The tokens, in the order of the text; extras and hidden ones too. -/
def leaves (t : Tree) : List Leaf := t.root.leavesAt Length.zero

/-- The texts of all tokens, one after another. -/
def unparse (t : Tree) (source : Bytes) : Bytes :=
  t.leaves.foldl
    (fun text leaf =>
      if leaf.range.endByte ≤ source.size then
        text ++ source.extract leaf.range.startByte leaf.range.endByte
      else text)
    #[]

/-- Whether two trees have the same structure. -/
def sameAs (a b : Tree) : Bool := a.root.sameAs b.root

end Tree

end Glr
