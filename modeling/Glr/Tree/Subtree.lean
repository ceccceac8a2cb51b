import Glr.Language
import Glr.Text.Point

/-!
# Glr.Tree.Subtree

What trees are made of.  A subtree knows its size but not where it starts: a
child starts where the children before it end, so text that only moves changes
nothing here.

A visible node never keeps a hidden nonterminal among its children.  The
children of the hidden node stand in its place,

```
node (… hidden(a, b) …)  =  node (… a b …)
```

and one without a field takes the field that the hidden node had.
-/

namespace Glr

/-- The lexical state of tokens that were found with every rule allowed. -/
def errorLexState : Nat := 65535

/-- What is stored of a node, its children apart. -/
structure NodeInfo where
  symbol : Symbol
  size : Length
  /-- How many bytes after its end had a say in it. -/
  lookahead : Nat
  /-- The state in which it was built. -/
  parseState : StateId := 0
  /-- The lexical state in which a token was found. -/
  lexState : Nat := 0
  visible : Bool
  named : Bool
  /-- Stands where the grammar does not speak of it. -/
  extra : Bool := false
  /-- Put in by recovery, without text. -/
  missing : Bool := false
  /-- An edit touched it. -/
  changed : Bool := false
  /-- Built while several hypotheses were alive, or by recovery. -/
  fragile : Bool := false
  /-- A token directly after an extra. -/
  afterExtra : Bool := false
  errorCost : Nat := 0
  dynamicPrecedence : Int := 0
  /-- How many children are visible. -/
  visibleCount : Nat := 0
  /-- How many of those have a name. -/
  namedCount : Nat := 0
  /-- What the scanner remembers after the last of its tokens in here. -/
  lastExternal : Option ScannerState := none
  deriving DecidableEq, Repr, Inhabited

/-- A child with the field it fills. -/
structure Child (α : Type) where
  field : Option FieldId
  node : α
  deriving Repr, Inhabited

/-- A node with everything below it. -/
inductive Subtree where
  | mk (info : NodeInfo) (children : List (Child Subtree))
  deriving Repr, Inhabited

namespace Subtree

/-- What is stored of the node itself. -/
def info : Subtree → NodeInfo
  | .mk info _ => info

/-- The children, hidden ones too. -/
def children : Subtree → List (Child Subtree)
  | .mk _ children => children

/-- The symbol of the node. -/
def symbol (t : Subtree) : Symbol := t.info.symbol

/-- The length of the text of the node. -/
def size (t : Subtree) : Length := t.info.size

/-- Whether there are no children. -/
def isLeaf (t : Subtree) : Bool := t.children.isEmpty

/-- Whether this is an error node. -/
def isError (t : Subtree) : Bool := t.symbol == errorSymbol

/-- Whether there is an error in or under the node. -/
def hasError (t : Subtree) : Bool := t.info.errorCost > 0 || t.isError || t.info.missing

/-- Changes what is stored of the node itself. -/
def withInfo (t : Subtree) (f : NodeInfo → NodeInfo) : Subtree := .mk (f t.info) t.children

theorem withInfo_mk (info : NodeInfo) (children : List (Child Subtree)) (f : NodeInfo → NodeInfo) :
    (Subtree.mk info children).withInfo f = .mk (f info) children := rfl

theorem withInfo_id (t : Subtree) : t.withInfo id = t := by
  cases t
  rfl

mutual
/-- The number of nodes. -/
def count : Subtree → Nat
  | .mk _ children => 1 + countAll children
/-- The number of nodes of some children. -/
def countAll : List (Child Subtree) → Nat
  | [] => 0
  | ⟨_, t⟩ :: rest => t.count + countAll rest
end

theorem countAll_append (as bs : List (Child Subtree)) :
    countAll (as ++ bs) = countAll as + countAll bs := by
  induction as with
  | nil => simp [countAll]
  | cons a as ih => simp [countAll, ih, Nat.add_assoc]

/-! ## Building -/

/-- What is stored of a token. -/
def tokenInfo (l : Language) (s : Symbol) (size : Length) : NodeInfo where
  symbol := s
  size
  lookahead := 1
  visible := l.isVisible s
  named := l.isNamed s

/-- A token without text that recovery puts in. -/
def missing (l : Language) (s : Symbol) (state : StateId) (cost : Nat) : Subtree :=
  .mk { tokenInfo l s Length.zero with
        missing := true, parseState := state, errorCost := cost, fragile := true } []

/-- Whether a child gives way to its own children. -/
def isHidden (l : Language) (t : Subtree) : Bool := !t.info.visible && l.isNonterminal t.symbol

mutual
/-- A child under a visible node, in front of the children `after` it: itself, or
what stands in its place. -/
def splice (l : Language) (field : Option FieldId) (after : List (Child Subtree)) :
    Subtree → List (Child Subtree)
  | .mk info children =>
    if isHidden l (.mk info children) then spliceAll l field after children
    else ⟨field, .mk info children⟩ :: after
/-- Some children under a visible node; those without a field fill `outer`. -/
def spliceAll (l : Language) (outer : Option FieldId) (after : List (Child Subtree)) :
    List (Child Subtree) → List (Child Subtree)
  | [] => after
  | ⟨field, t⟩ :: rest => splice l (field.or outer) (spliceAll l outer after rest) t
end

mutual
theorem splice_eq_append (l : Language) (field : Option FieldId) (after : List (Child Subtree)) :
    ∀ t : Subtree, splice l field after t = splice l field [] t ++ after
  | .mk info children => by
    unfold splice
    split
    · exact spliceAll_eq_append l field after children
    · rfl

theorem spliceAll_eq_append (l : Language) (outer : Option FieldId)
    (after : List (Child Subtree)) :
    ∀ cs : List (Child Subtree), spliceAll l outer after cs = spliceAll l outer [] cs ++ after
  | [] => by simp [spliceAll]
  | ⟨field, t⟩ :: rest => by
    simp only [spliceAll]
    rw [splice_eq_append l _ (spliceAll l outer after rest) t,
      splice_eq_append l _ (spliceAll l outer [] rest) t,
      spliceAll_eq_append l outer after rest, List.append_assoc]
end

mutual
theorem isHidden_eq_false_of_mem_splice (l : Language) (field : Option FieldId) :
    ∀ (t : Subtree), ∀ c ∈ splice l field [] t, isHidden l c.node = false
  | .mk info children => by
    unfold splice
    split
    · exact isHidden_eq_false_of_mem_spliceAll l field children
    · rename_i h
      simpa using h

theorem isHidden_eq_false_of_mem_spliceAll (l : Language) (outer : Option FieldId) :
    ∀ (cs : List (Child Subtree)), ∀ c ∈ spliceAll l outer [] cs, isHidden l c.node = false
  | [] => by simp [spliceAll]
  | ⟨field, t⟩ :: rest => by
    intro c hc
    rw [spliceAll, splice_eq_append] at hc
    rcases List.mem_append.mp hc with hc | hc
    · exact isHidden_eq_false_of_mem_splice l _ t c hc
    · exact isHidden_eq_false_of_mem_spliceAll l outer rest c hc
end

/-- What a node is made with beside its children. -/
structure Spec where
  symbol : Symbol
  parseState : StateId := 0
  dynamicPrecedence : Int := 0
  errorCost : Nat := 0
  fragile : Bool := false
  /-- How many bytes after the end were looked at when the node was made. -/
  lookahead : Nat := 0

/-- What the children of a node add up to. -/
structure Sum where
  size : Length := Length.zero
  /-- The end of everything that had a say in some child. -/
  reach : Nat := 0
  errorCost : Nat := 0
  dynamicPrecedence : Int := 0
  fragile : Bool := false
  visibleCount : Nat := 0
  namedCount : Nat := 0
  lastExternal : Option ScannerState := none

/-- Adds the next child. -/
def Sum.add (s : Sum) (t : Subtree) : Sum :=
  let size := s.size + t.size
  { size
    reach := max s.reach (size.bytes + t.info.lookahead)
    errorCost := s.errorCost + t.info.errorCost
    dynamicPrecedence := s.dynamicPrecedence + t.info.dynamicPrecedence
    fragile := s.fragile || t.info.fragile
    visibleCount := s.visibleCount + if t.info.visible then 1 else 0
    namedCount := s.namedCount + if t.info.visible && t.info.named then 1 else 0
    lastExternal := t.info.lastExternal.or s.lastExternal }

/-- What some children add up to. -/
def Sum.of (children : List (Child Subtree)) : Sum := children.foldl (fun s c => s.add c.node) {}

namespace Sum

theorem size_add (s : Sum) (t : Subtree) : (s.add t).size = s.size + t.size := rfl

theorem size_foldl (s : Sum) (cs : List (Child Subtree)) :
    (cs.foldl (fun s c => s.add c.node) s).size = s.size + (Sum.of cs).size := by
  induction cs generalizing s with
  | nil => rfl
  | cons c cs ih =>
    have hc : Sum.of (c :: cs) = cs.foldl (fun s c => s.add c.node) (({} : Sum).add c.node) := rfl
    rw [List.foldl_cons, ih, hc, ih, size_add, size_add]
    show _ = s.size + (Length.zero + c.node.size + (Sum.of cs).size)
    rw [Length.zero_add, Length.add_assoc]

theorem size_of_nil : (Sum.of []).size = Length.zero := rfl

/-- Children stand one after another. -/
theorem size_of_cons (c : Child Subtree) (cs : List (Child Subtree)) :
    (Sum.of (c :: cs)).size = c.node.size + (Sum.of cs).size := by
  have h := size_foldl (({} : Sum).add c.node) cs
  rw [size_add, show ({} : Sum).size = Length.zero from rfl, Length.zero_add] at h
  exact h

theorem size_of_append (as bs : List (Child Subtree)) :
    (Sum.of (as ++ bs)).size = (Sum.of as).size + (Sum.of bs).size := by
  rw [← size_foldl (Sum.of as) bs, Sum.of, List.foldl_append, Sum.of]

end Sum

/-- An inner node. -/
def node (l : Language) (spec : Spec) (children : List (Child Subtree)) : Subtree :=
  let visible := l.isVisible spec.symbol
  let children := if visible then spliceAll l none [] children else children
  let sum := Sum.of children
  .mk { symbol := spec.symbol
        size := sum.size
        lookahead := max (sum.reach - sum.size.bytes) spec.lookahead
        parseState := spec.parseState
        visible
        named := l.isNamed spec.symbol
        fragile := spec.fragile || sum.fragile
        errorCost := spec.errorCost + sum.errorCost
        dynamicPrecedence := spec.dynamicPrecedence + sum.dynamicPrecedence
        visibleCount := sum.visibleCount
        namedCount := sum.namedCount
        lastExternal := sum.lastExternal } children

/-- A node is as long as its children. -/
theorem size_node (l : Language) (spec : Spec) (cs : List (Child Subtree)) :
    (node l spec cs).size = (Sum.of (node l spec cs).children).size := rfl

/-- A visible node keeps no hidden nonterminal. -/
theorem isHidden_eq_false_of_mem_children (l : Language) (spec : Spec) (cs : List (Child Subtree))
    (h : l.isVisible spec.symbol = true) :
    ∀ c ∈ (node l spec cs).children, isHidden l c.node = false := by
  simp only [node, h, if_true, children]
  exact isHidden_eq_false_of_mem_spliceAll l none cs

/-- An error node around what was skipped or given up. -/
def error (l : Language) (state : StateId) (cost : Nat) (children : List Subtree) : Subtree :=
  node l { symbol := errorSymbol, parseState := state, errorCost := cost, fragile := true }
    (children.map fun t => ⟨none, t⟩)

/-- The node as an extra, or as none. -/
def withExtra (t : Subtree) (extra : Bool) : Subtree := t.withInfo fun i => { i with extra }

/-- The node as built in another state. -/
def withParseState (t : Subtree) (state : StateId) : Subtree :=
  t.withInfo fun i => { i with parseState := state }

/-- The node shown under another symbol. -/
def withSymbol (l : Language) (t : Subtree) (s : Symbol) : Subtree :=
  if t.symbol = s then t
  else t.withInfo fun i => { i with symbol := s, visible := l.isVisible s, named := l.isNamed s }

/-! ## Comparing -/

mutual
/-- Whether two nodes have the same symbols, sizes and fields throughout, and
the same extras and missing tokens. -/
def sameAs : Subtree → Subtree → Bool
  | .mk a as, .mk b bs =>
    a.symbol == b.symbol && a.size.bytes == b.size.bytes && a.missing == b.missing
      && a.extra == b.extra && sameAll as bs
/-- Whether two lists of children are the same in that way. -/
def sameAll : List (Child Subtree) → List (Child Subtree) → Bool
  | [], [] => true
  | ⟨f, s⟩ :: as, ⟨g, t⟩ :: bs => f == g && s.sameAs t && sameAll as bs
  | _, _ => false
end

end Subtree

end Glr
