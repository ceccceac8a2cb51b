import Glr.Parse.Version

/-!
# Glr.Parse.Move

What one action of the automaton does to a hypothesis, and the tree of one that
is accepted.
-/

namespace Glr.Parse

/-- Takes a token or a reused node; an extra leaves the state as it is. -/
def Version.shift (v : Version) (next : StateId) (token : Subtree) (extra : Bool) : Version :=
  let state := v.state
  let node := (token.withParseState state).withExtra extra
  { v.push (if extra then state else next) node with
    position := v.position + token.size
    lookahead := none
    afterExtra := extra && node.isLeaf
    reductions := 0 }

/-- Takes nodes off a stack until `count` of them are no extras; answers them in
the order of the text, in front of `after`, and the stack that is left. -/
def takeNodes : Nat → List Entry → List Subtree → Option (List Subtree × List Entry)
  | 0, stack, after => some (after, stack)
  | _ + 1, [], _ => none
  | count + 1, e :: stack, after =>
    takeNodes (if e.node.info.extra then count + 1 else count) stack (e.node :: after)

/-- Nodes are taken from the top of the stack in one piece, and the lowest of them is no extra. -/
theorem takeNodes_eq_some {count : Nat} {stack rest : List Entry} {after nodes : List Subtree}
    (h : takeNodes count stack after = some (nodes, rest)) :
    ∃ taken, stack = taken ++ rest ∧ nodes = (taken.map Entry.node).reverse ++ after ∧
      (count = 0 ∧ taken = [] ∨ ∃ e, taken.getLast? = some e ∧ e.node.info.extra = false) := by
  induction stack generalizing count after with
  | nil =>
    cases count with
    | zero =>
      simp only [takeNodes, Option.some.injEq, Prod.mk.injEq] at h
      exact ⟨[], by simp [h.2], by simp [h.1], .inl ⟨rfl, rfl⟩⟩
    | succ n => simp [takeNodes] at h
  | cons e stack ih =>
    cases count with
    | zero =>
      simp only [takeNodes, Option.some.injEq, Prod.mk.injEq] at h
      exact ⟨[], by simp [h.2], by simp [h.1], .inl ⟨rfl, rfl⟩⟩
    | succ n =>
      rw [takeNodes] at h
      obtain ⟨taken, hs, hn, hlowest⟩ := ih h
      refine ⟨e :: taken, by simp [hs], by simp [hn], .inr ?_⟩
      rcases hlowest with ⟨hcount, rfl⟩ | ⟨d, hd, hx⟩
      · refine ⟨e, rfl, ?_⟩
        cases hx : e.node.info.extra with
        | false => rfl
        | true => simp [hx] at hcount
      · exact ⟨d, by rw [List.getLast?_cons, hd]; rfl, hx⟩

/-- The children of a production: each node that is no extra fills the next
field and is shown under the next symbol that the production has for it. -/
def dress (l : Language) :
    List (Option FieldId) → List (Option Symbol) → List Subtree → List (Child Subtree)
  | _, _, [] => []
  | fields, labels, t :: ts =>
    if t.info.extra then ⟨none, t⟩ :: dress l fields labels ts
    else
      let t' := match labels.head?.join with
        | some s => t.withSymbol l s
        | none => t
      ⟨fields.head?.join, t'⟩ :: dress l fields.tail labels.tail ts

/-- The bytes of some nodes. -/
def totalBytes (ts : List Subtree) : Nat := ts.foldl (fun n t => n + t.size.bytes) 0

/-- Reduces by a production.  Extras on top of the stack stay outside the new
node.  Where the production does not fit, what is left of the stack is the error. -/
def Version.reduce (l : Language) (v : Version) (p : ProductionInfo) (fragile : Bool)
    (lookahead : Subtree) : Except Version Version :=
  let (trailing, stack) := v.stack.span fun e => e.node.info.extra
  match takeNodes p.childCount stack [] with
  | none => .error { v with stack := [] }
  | some (nodes, stack) =>
    let state := Version.stateOf stack
    match l.goto? state p.lhs with
    | none => .error { v with stack }
    | some next =>
      let stop := (Version.stopOf stack).bytes + totalBytes nodes
      let reach := v.position.bytes + lookahead.size.bytes + lookahead.info.lookahead
      let node := Subtree.node l
        { symbol := p.lhs
          parseState := state
          dynamicPrecedence := p.dynamicPrecedence
          fragile
          lookahead := reach - stop }
        (dress l p.fields p.labels nodes)
      let v := { v with stack, dynamicPrecedence := v.dynamicPrecedence + p.dynamicPrecedence }
      .ok ((v.push next node).pushAll next (trailing.map Entry.node).reverse)

/-- The root of a tree from the nodes on the stack: the start node, with the
extras around it as its children, or an error node if there is no start node or
not it alone. -/
def rootOf (l : Language) (nodes : List Subtree) (errorCost : Nat) : Subtree :=
  match nodes.filter fun t => !t.info.extra with
  | [start] =>
    if start.symbol = l.table.startSymbol then
      let inner := start.children.foldl (fun n c => n + c.node.info.dynamicPrecedence) (0 : Int)
      Subtree.node l
        { symbol := start.symbol
          dynamicPrecedence := start.info.dynamicPrecedence - inner
          fragile := start.info.fragile }
        (nodes.flatMap fun t => if t.info.extra then [⟨none, t⟩] else t.children)
    else Subtree.error l 0 errorCost nodes
  | _ => Subtree.error l 0 errorCost nodes

end Glr.Parse
