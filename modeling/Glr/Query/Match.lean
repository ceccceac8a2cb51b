import Glr.Query.Compile
import Glr.Tree.Node

/-!
# Glr.Query.Match

Running queries.  The steps of a node match its visible children in order;
children may be skipped unless an anchor forbids it.  Every way in which a
pattern matches counts, but of a repetition only the longest run with which the
rest can match.
-/

namespace Glr

namespace Query

/-- A node with the number of its capture. -/
structure Capture where
  index : Nat
  node : Node

/-- Captured nodes, those of outer patterns first. -/
abbrev Captures := List Capture

/-- Whether two lists of captures have the same nodes under the same numbers. -/
def sameCaptures : Captures → Captures → Bool
  | [], [] => true
  | a :: as, b :: bs => a.index == b.index && a.node.isSame b.node && sameCaptures as bs
  | _, _ => false

/-- Adds captures behind some others unless they are among them. -/
def addUnique (out : List Captures) (captures : Captures) : List Captures :=
  if out.any fun c => sameCaptures c captures then out else out ++ [captures]

/-- Each of some captures once, in order. -/
def unique (all : List Captures) : List Captures := all.foldl addUnique []

/-- Whether a node is of the kind that a pattern is about. -/
def KindTest.accepts (t : KindTest) (n : Node) : Bool :=
  match t with
  | .any => true
  | .anyNamed => n.isNamed
  | .named kind => n.isNamed && n.kind == kind
  | .anonymous kind => !n.isNamed && n.kind == kind
  | .missing none => n.subtree.info.missing
  | .missing (some (kind, ofRule)) =>
    n.subtree.info.missing && n.isNamed == ofRule && n.kind == kind

/-- The nodes of a list that a step may match, with their numbers from `i` on.
Where it is anchored, it may not go past a node with a name. -/
def reachable (anchored : Bool) (i : Nat) : List Node → List (Nat × Node)
  | [] => []
  | n :: rest => (i, n) :: if anchored && n.isNamed then [] else reachable anchored (i + 1) rest

/-- The runs of a repeated step from a place on, the empty one first: where each
ends and what it captures.  `once` finds the first match of the step; between
the matches no node with a name is skipped.  `fuel` bounds the matches. -/
def repeated (once : Nat → Bool → Option (Nat × Captures)) :
    Nat → Bool → Nat → Captures → List (Nat × Captures)
  | 0, _, place, captures => [(place, captures)]
  | fuel + 1, anchored, place, captures =>
    (place, captures) ::
      match once place anchored with
      | some (next, more) =>
        if next ≤ place then [] else repeated once fuel true next (captures ++ more)
      | none => []

/-- The first nonempty list that a function finds. -/
def firstNonempty {α β : Type} (f : α → List β) (xs : List α) : List β :=
  (xs.findSome? fun x =>
    let found := f x
    if found.isEmpty then none else some found).getD []

mutual
/-- What a pattern captures, in every way in which it matches a node. -/
def matchNode : Pattern → Node → List Captures
  | .node captures test absent anchoredEnd steps, n =>
    if !test.accepts n || absent.any fun f => (n.childOfField? f).isSome then []
    else
      let own := captures.map fun i => (⟨i, n⟩ : Capture)
      if steps.isEmpty && !anchoredEnd then [own]
      else
        let children := n.children
        let found := (matchSteps steps children 0 [] false).filter fun (stop, _) =>
          !(anchoredEnd && (children.drop stop).any Node.isNamed)
        unique (found.map fun (_, more) => own ++ more)
  | .alternation captures alternatives, n =>
    let own := captures.map fun i => (⟨i, n⟩ : Capture)
    unique ((matchAny alternatives n).map fun found => found ++ own)
  | .group .., _ => []
/-- What some patterns capture, one after another. -/
def matchAny : List Pattern → Node → List Captures
  | [], _ => []
  | p :: rest, n => matchNode p n ++ matchAny rest n
/-- What steps capture behind `captures`, in every way in which they match nodes
of a list from a place on, with the place after the last match. -/
def matchSteps : List (Step Pattern) → List Node → Nat → Captures → Bool → List (Nat × Captures)
  | [], _, place, captures, _ => [(place, captures)]
  | s :: rest, nodes, place, captures, forced =>
    let anchored := s.anchored || forced
    let goOn (found : Nat × Captures) : List (Nat × Captures) :=
      matchSteps rest nodes found.1 (captures ++ found.2) false
    let runs (least : Nat) : List (Nat × Captures) :=
      let once (place : Nat) (anchored : Bool) : Option (Nat × Captures) :=
        (matchOnce s nodes place anchored).head?
      firstNonempty goOn ((repeated once (nodes.length + 1) anchored place []).drop least).reverse
    match s.quantifier with
    | .one => (matchOnce s nodes place anchored).flatMap goOn
    | .zeroOrOne =>
      let found := (matchOnce s nodes place anchored).flatMap goOn
      if found.isEmpty then goOn (place, []) else found
    | .zeroOrMore => runs 0
    | .oneOrMore => runs 1
/-- What a step captures, in every way in which it matches once. -/
def matchOnce : Step Pattern → List Node → Nat → Bool → List (Nat × Captures)
  | ⟨field, p, _, _⟩, nodes, place, anchored =>
    match p with
    | .group _ steps => matchSteps steps nodes place [] anchored
    | p =>
      (reachable anchored place (nodes.drop place)).flatMap fun (i, n) =>
        if field.isSome && n.field? != field then []
        else (matchNode p n).map fun captures => (i + 1, captures)
end

/-- What a rule captures at a node.  A group starts at the node and goes on with
its siblings. -/
def Rule.matchAt (r : Rule) (n : Node) : List Captures :=
  match r.pattern with
  | .group _ [] => []
  | .group _ (first :: rest) =>
    let siblings := match n.parent? with
      | some p => p.children
      | none => [n]
    match siblings.findIdx? n.isSame with
    | none => []
    | some i =>
      if first.field.isSome && first.field != n.field? then []
      else
        unique ((matchNode first.pattern n).flatMap fun captures =>
          (matchSteps rest siblings (i + 1) captures false).map Prod.snd)
  | p => matchNode p n

/-! ## Predicates -/

/-- The bytes of a node; none where it reaches beyond the text. -/
def textOf (source : Bytes) (n : Node) : Bytes :=
  if n.endByte ≤ source.size then source.extract n.startByte n.endByte else #[]

/-- The texts of the nodes with a capture. -/
def textsOf (source : Bytes) (captures : Captures) (index : Nat) : List Bytes :=
  (captures.filter fun c => c.index == index).map fun c => textOf source c.node

/-- Whether a condition holds for a text. -/
def Condition.holds (c : Condition) (source : Bytes) (captures : Captures) (text : Bytes) : Bool :=
  match c with
  | .equals (.text s) => text == Bytes.ofString s
  | .equals (.capture other) => (textsOf source captures other).all (· == text)
  | .fits r => r.isMatch text
  | .anyOf values => values.any fun v => Bytes.ofString v == text

/-- Whether a predicate holds for what was captured. -/
def Predicate.holds (p : Predicate) (source : Bytes) (captures : Captures) : Bool :=
  (textsOf source captures p.capture).all fun text =>
    p.condition.holds source captures text != p.negated

/-! ## Running -/

/-- One way in which a pattern of a query matched. -/
structure Match where
  /-- The number of the pattern. -/
  pattern : Nat
  captures : Captures

/-- Whether a node meets a range of bytes.  A node without text may lie at its
ends. -/
def meets (range : Option (Nat × Nat)) (n : Node) : Bool :=
  match range with
  | none => true
  | some (start, stop) =>
    if n.startByte = n.endByte then start ≤ n.startByte && n.startByte ≤ stop
    else n.startByte < stop && n.endByte > start

/-- The visible nodes from one on down that meet a range, in the order in which
they begin; nothing is looked for under a node that does not.  `fuel` bounds the
levels. -/
def visited (range : Option (Nat × Nat)) : Nat → Node → List Node
  | 0, _ => []
  | fuel + 1, n =>
    if meets range n then n :: n.children.flatMap (visited range fuel) else []

/-- The matches of the rules at a node. -/
def matchesAt (rules : List Rule) (source : Bytes) (n : Node) : List Match :=
  rules.zipIdx.flatMap fun (r, i) =>
    ((r.matchAt n).filter fun captures => r.predicates.all fun p => p.holds source captures).map
      fun captures => ⟨i, captures⟩

end Query

/-- All matches of a query at a node and the nodes under it, or at those of them
that meet a range of bytes. -/
def Query.run (q : Query) (n : Node) (source : Bytes) (range : Option (Nat × Nat)) :
    List Query.Match :=
  (visited range n.subtree.count n).flatMap (matchesAt q.rules source)

/-- The number of the capture of a name. -/
def Query.captureIndex? (q : Query) (name : String) : Option Nat :=
  q.captureNames.findIdx? (· == name)

/-- The nodes that a match has under a capture. -/
def Query.Match.nodesOf (m : Query.Match) (index : Nat) : List Node :=
  (m.captures.filter fun c => c.index == index).map Query.Capture.node

end Glr
