import Glr.Parse.Move
import Glr.Proofs.Language
import Glr.Proofs.Tree.Layout
import Mathlib.Data.List.TakeDrop
import Mathlib.Data.List.TakeWhile

/-!
# Glr.Proofs.Parse.Stack

What stands on the stack of a hypothesis.  Its states are a path of the automaton
that spells the symbols of its nodes, extras apart:

```
stack   =  extra?  node  extra?  node  …
path    =          (symbol, state)  (symbol, state)  …
```

So the nodes of a production stand on top of the stack where it is reduced, and
the node that they make stands for the left-hand side.
-/

namespace Glr

/-! ## Empty productions -/

namespace FlatGrammar

variable {g : FlatGrammar} {x : Symbol}

/-- A symbol that can stand for no text. -/
inductive Nullable (g : FlatGrammar) : Symbol → Prop where
  | intro {p : Production} (hp : p ∈ g.productions) (h : ∀ x ∈ p.rhs, Nullable g x) :
      Nullable g p.lhs

/-- A symbol that a node without text is shown under: its own, or the one that some
step gives it. -/
def Emptied (g : FlatGrammar) (s : Symbol) : Prop :=
  ∃ x, g.Nullable x ∧
    (s = x ∨ ∃ p ∈ g.productions, ∃ st ∈ p.steps, st.symbol = x ∧ st.label = some s)

theorem Nullable.emptied (h : g.Nullable x) : g.Emptied x := ⟨x, h, .inl rfl⟩

end FlatGrammar

namespace Parse

open Subtree Automaton

variable {g : FlatGrammar} {l : Language} {Spans : Nat → Length → Prop} {start : Nat}

/-! ## Leaves -/

/-- What a leaf of a parse is: some text that may stand there, or nothing. -/
inductive LeafOf (g : FlatGrammar) (l : Language) (Spans : Nat → Length → Prop) (start : Nat)
    (i : NodeInfo) : Prop where
  | text (hpos : 0 < i.size.bytes) (hspans : Spans start i.size) (hend : i.symbol ≠ endSymbol)
      (hshown : i.visible = true ∨ l.isNonterminal i.symbol = false)
  | empty (hsize : i.size = Length.zero)
      (hwhy : i.missing = true ∨ i.symbol = errorSymbol ∨ g.Emptied i.symbol)

/-- Nothing else that is stored of a leaf counts. -/
theorem LeafOf.same {i j : NodeInfo} (h : LeafOf g l Spans start i) (hsize : j.size = i.size)
    (hsymbol : j.symbol = i.symbol) (hvisible : j.visible = i.visible)
    (hmissing : j.missing = i.missing) : LeafOf g l Spans start j := by
  cases h with
  | text hpos hspans hend hshown =>
    exact .text (hsize ▸ hpos) (hsize ▸ hspans) (hsymbol ▸ hend) (by rwa [hvisible, hsymbol])
  | empty hzero hwhy => exact .empty (hsize.trans hzero) (by rwa [hmissing, hsymbol])

theorem hiddenEmpty_leafOf : HiddenEmpty l (LeafOf g l Spans) := by
  intro s i h hidden
  obtain ⟨hv, hn⟩ : i.visible = false ∧ l.isNonterminal i.symbol = true := by
    simpa [isHidden, Subtree.info, symbol] using hidden
  cases h with
  | text _ _ _ hshown => simp [hv, hn] at hshown
  | empty hsize _ => exact hsize

/-- Where a leaf stands counts no more than what it may span there. -/
theorem LeafOf.imp {Spans' : Nat → Length → Prop} (h : ∀ s n, Spans s n → Spans' s n) (s : Nat)
    (i : NodeInfo) (hi : LeafOf g l Spans s i) : LeafOf g l Spans' s i := by
  cases hi with
  | text hpos hspans hend hshown => exact .text hpos (h _ _ hspans) hend hshown
  | empty hsize hwhy => exact .empty hsize hwhy

/-- Nothing of this becomes nothing. -/
def Lasting (l : Language) (t : Subtree) : Prop := ∀ field, splice l field [] t ≠ []

theorem lasting_of_isHidden_eq_false {t : Subtree} (h : isHidden l t = false) : Lasting l t := by
  obtain ⟨info, cs⟩ := t
  intro field
  rw [splice, if_neg (by simp [h])]
  simp

theorem lasting_of_terminal {t : Subtree} (h : l.isNonterminal t.symbol = false) : Lasting l t :=
  lasting_of_isHidden_eq_false (by simp [isHidden, h])

/-- What has text leaves something of it. -/
theorem lasting_of_laid {A : LeafRule} (hA : HiddenEmpty l A) {t : Subtree} (h : Laid A start t)
    (hpos : 0 < t.size.bytes) : Lasting l t := by
  intro field he
  have := (laidAll_splice hA field h).2
  rw [he, List.map_nil, span_nil] at this
  rw [← this, bytes_zero] at hpos
  exact Nat.lt_irrefl 0 hpos

theorem lasting_withInfo {t : Subtree} {f : NodeInfo → NodeInfo} (h : Lasting l t)
    (hs : ∀ i, (f i).symbol = i.symbol) (hv : ∀ i, (f i).visible = i.visible) :
    Lasting l (t.withInfo f) := by
  obtain ⟨info, cs⟩ := t
  intro field he
  have hidden : isHidden l (.mk (f info) cs) = isHidden l (.mk info cs) := by
    simp only [isHidden, Subtree.info, symbol, hs, hv]
  have := h field
  simp only [withInfo, Subtree.info, Subtree.children, splice, hidden] at he this
  split at he
  · rename_i hh
    rw [if_pos hh] at this
    exact this he
  · simp at he

mutual
/-- The field that a child fills is none of this. -/
theorem splice_eq_nil_of_field (field field' : Option FieldId) :
    ∀ t : Subtree, splice l field [] t = [] → splice l field' [] t = []
  | .mk info cs, h => by
    unfold splice at h ⊢
    split at h
    · rename_i hidden
      rw [if_pos hidden]
      exact spliceAll_eq_nil_of_field field field' cs h
    · simp at h

theorem spliceAll_eq_nil_of_field (field field' : Option FieldId) :
    ∀ cs : List (Child Subtree), spliceAll l field [] cs = [] → spliceAll l field' [] cs = []
  | [], _ => rfl
  | ⟨f, t⟩ :: rest, h => by
    rw [spliceAll, splice_eq_append, List.append_eq_nil_iff] at h ⊢
    exact ⟨splice_eq_nil_of_field _ _ t h.1, spliceAll_eq_nil_of_field field field' rest h.2⟩
end

/-- Children without hidden nodes all stay. -/
theorem eq_nil_of_spliceAll_eq_nil {outer : Option FieldId} {cs : List (Child Subtree)}
    (hc : ∀ c ∈ cs, isHidden l c.node = false) (h : spliceAll l outer [] cs = []) : cs = [] := by
  cases cs with
  | nil => rfl
  | cons c rest =>
    obtain ⟨f, t⟩ := c
    rw [spliceAll, splice_eq_append, List.append_eq_nil_iff] at h
    exact absurd h.1 (lasting_of_isHidden_eq_false (hc ⟨f, t⟩ (by simp)) _)

/-- Nothing becomes of a node's children only if nothing becomes of what it is made of. -/
theorem spliceAll_eq_nil_of_node {spec : Spec} {cs : List (Child Subtree)}
    (h : spliceAll l none [] (node l spec cs).children = []) : spliceAll l none [] cs = [] := by
  by_cases hv : l.isVisible spec.symbol = true
  · have hnone := eq_nil_of_spliceAll_eq_nil (isHidden_eq_false_of_mem_children l spec cs hv) h
    have : (node l spec cs).children = spliceAll l none [] cs := by
      simp [node, hv, Subtree.children]
    rw [← this, hnone]
  · have : (node l spec cs).children = cs := by simp [node, hv, Subtree.children]
    rwa [← this]

theorem size_eq_zero_of_node {spec : Spec} {cs : List (Child Subtree)}
    (h : (node l spec cs).children = []) : (node l spec cs).size = Length.zero := by
  rw [size_node, h]
  rfl

/-! ## Nodes that stand for symbols -/

/-- A node that stands for its symbol, which is why it may have no text. -/
structure Stands (g : FlatGrammar) (l : Language) (t : Subtree) : Prop where
  token : t.children = [] → t.size ≠ Length.zero → l.isNonterminal t.symbol = false
  nothing : t.size = Length.zero → spliceAll l none [] t.children = [] →
    t.info.missing = true ∧ l.isNonterminal t.symbol = false ∨ g.Nullable t.symbol

/-- Nothing becomes of a node only if its symbol can stand for no text. -/
theorem Stands.nullable {A : LeafRule} (hA : HiddenEmpty l A) {t : Subtree} (h : Stands g l t)
    (hlaid : Laid A start t) {field : Option FieldId} (hnil : splice l field [] t = []) :
    g.Nullable t.symbol := by
  have hsize : t.size = Length.zero := by
    have := (laidAll_splice hA field hlaid).2
    rw [hnil] at this
    exact this.symm
  obtain ⟨info, cs⟩ := t
  rw [splice] at hnil
  split at hnil
  · rename_i hidden
    rcases h.nothing hsize (spliceAll_eq_nil_of_field field none cs hnil) with ⟨-, hn⟩ | hn
    · rw [isHidden, Bool.and_eq_true, hn] at hidden
      exact absurd hidden.2 Bool.false_ne_true
    · exact hn
  · simp at hnil

/-- Some nodes, extras among them, stand for some symbols. -/
inductive Fills (g : FlatGrammar) (l : Language) : List Symbol → List Subtree → Prop where
  | nil : Fills g l [] []
  | extra {xs : List Symbol} {t : Subtree} {ts : List Subtree} (hx : t.info.extra = true)
      (hl : Lasting l t) (h : Fills g l xs ts) : Fills g l xs (t :: ts)
  | node {xs : List Symbol} {t : Subtree} {ts : List Subtree} (hx : t.info.extra = false)
      (ht : Stands g l t) (h : Fills g l xs ts) : Fills g l (t.symbol :: xs) (t :: ts)

theorem Fills.append {xs ys : List Symbol} {ts us : List Subtree} (h : Fills g l xs ts)
    (h' : Fills g l ys us) : Fills g l (xs ++ ys) (ts ++ us) := by
  induction h with
  | nil => exact h'
  | extra hx hl _ ih => exact .extra hx hl ih
  | node hx ht _ ih => exact .node hx ht ih

/-! ## Children of productions -/

section

variable {steps : List Step} {ts : List Subtree} {fields : List (Option FieldId)}

/-- The node that a step takes, under the symbol that the step gives it. -/
def shownBy (l : Language) (st : Step) (t : Subtree) : Subtree :=
  match st.label with
  | some s => t.withSymbol l s
  | none => t

theorem dress_cons_node {t : Subtree} (hx : t.info.extra = false) (st : Step) :
    dress l fields ((st :: steps).map Step.label) (t :: ts)
      = ⟨fields.head?.join, shownBy l st t⟩
        :: dress l fields.tail (steps.map Step.label) ts := by
  rw [dress, if_neg (by simp [hx])]
  rfl

theorem size_shownBy (st : Step) (t : Subtree) : (shownBy l st t).size = t.size := by
  unfold shownBy withSymbol
  split
  · split <;> rfl
  · rfl

variable {p : Production} {st : Step} {t : Subtree}

/-- A node can be shown under the symbol that a step gives it. -/
theorem laid_shownBy (hg : l.Sound g) (hp : p ∈ g.productions) (hst : st ∈ p.steps)
    (hsymbol : st.symbol = t.symbol) (ht : Stands g l t) (h : Laid (LeafOf g l Spans) start t) :
    Laid (LeafOf g l Spans) start (shownBy l st t) := by
  unfold shownBy
  split
  · rename_i s hlabel
    have hshown := ((hg.grammar.productions p hp).steps st hst).label s hlabel
    unfold withSymbol
    split
    · exact h
    · refine h.withInfo (fun _ => rfl) fun hleaf hi => ?_
      cases hi with
      | text hpos hspans _ _ =>
        exact .text hpos hspans (hg.grammar.ne_end_of_shown hshown)
          (.inl (hg.isVisible_of_isShown hshown))
      | empty hsize _ =>
        refine .empty hsize ?_
        rcases ht.nothing hsize (by rw [hleaf]; rfl) with ⟨hm, -⟩ | hn
        · exact .inl hm
        · exact .inr (.inr ⟨t.symbol, hn, .inr ⟨p, hp, st, hst, hsymbol, hlabel⟩⟩)
  · exact h

/-- A node that is shown under a symbol of its own does not give way. -/
theorem nullable_of_splice_shownBy (hg : l.Sound g) (hp : p ∈ g.productions) (hst : st ∈ p.steps)
    (ht : Stands g l t) (h : Laid (LeafOf g l Spans) start t) {field : Option FieldId}
    (hnil : splice l field [] (shownBy l st t) = []) : g.Nullable t.symbol := by
  unfold shownBy at hnil
  split at hnil
  · rename_i s hlabel
    have hv := hg.isVisible_of_isShown
      (((hg.grammar.productions p hp).steps st hst).label s hlabel)
    unfold withSymbol at hnil
    split at hnil
    · exact ht.nullable hiddenEmpty_leafOf h hnil
    · refine absurd hnil (lasting_of_isHidden_eq_false ?_ _)
      simp [isHidden, withInfo, Subtree.info, hv]
  · exact ht.nullable hiddenEmpty_leafOf h hnil

/-- The children of a production are laid out as the nodes that they are made of. -/
theorem laidList_dress (hg : l.Sound g) (fields : List (Option FieldId))
    (hsteps : ∀ st ∈ steps, ∃ p ∈ g.productions, st ∈ p.steps)
    (h : Fills g l (steps.map Step.symbol) ts) (hlaid : LaidList (LeafOf g l Spans) start ts) :
    LaidList (LeafOf g l Spans) start
        ((dress l fields (steps.map Step.label) ts).map Child.node)
      ∧ span ((dress l fields (steps.map Step.label) ts).map Child.node) = span ts := by
  generalize hxs : steps.map Step.symbol = xs at h
  induction h generalizing steps fields start with
  | nil => exact ⟨trivial, rfl⟩
  | extra hx _ _ ih =>
    obtain ⟨h₁, h₂⟩ := ih fields hsteps hlaid.2 hxs
    rw [dress, if_pos hx]
    exact ⟨⟨hlaid.1, h₁⟩, by rw [List.map_cons, span_cons, h₂, span_cons]⟩
  | @node xs t ts hx ht _ ih =>
    cases steps with
    | nil => contradiction
    | cons st rest =>
      obtain ⟨hsymbol, hrest⟩ := List.cons.inj hxs
      obtain ⟨h₁, h₂⟩ := ih fields.tail (fun st' hst' => hsteps st' (by simp [hst']))
        hlaid.2 hrest
      obtain ⟨p, hp, hst⟩ := hsteps st (by simp)
      rw [dress_cons_node hx, List.map_cons, span_cons, size_shownBy, h₂, span_cons]
      refine ⟨⟨laid_shownBy hg hp hst hsymbol ht hlaid.1, ?_⟩, rfl⟩
      rw [size_shownBy]
      exact h₁

/-- Nothing becomes of the children of a production only if all its symbols can stand
for no text. -/
theorem nullable_of_dress (hg : l.Sound g) (fields : List (Option FieldId))
    (hsteps : ∀ st ∈ steps, ∃ p ∈ g.productions, st ∈ p.steps)
    (h : Fills g l (steps.map Step.symbol) ts) (hlaid : LaidList (LeafOf g l Spans) start ts)
    {outer : Option FieldId}
    (hnil : spliceAll l outer [] (dress l fields (steps.map Step.label) ts) = []) :
    ∀ st ∈ steps, g.Nullable st.symbol := by
  generalize hxs : steps.map Step.symbol = xs at h
  induction h generalizing steps fields start with
  | nil =>
    obtain rfl := List.map_eq_nil_iff.mp hxs
    simp
  | extra hx hlasting _ _ =>
    rw [dress, if_pos hx, spliceAll, splice_eq_append, List.append_eq_nil_iff] at hnil
    exact absurd hnil.1 (hlasting _)
  | @node xs t ts hx ht _ ih =>
    cases steps with
    | nil => contradiction
    | cons st rest =>
      obtain ⟨hsymbol, hrest⟩ := List.cons.inj hxs
      rw [dress_cons_node hx, spliceAll, splice_eq_append, List.append_eq_nil_iff] at hnil
      obtain ⟨hfirst, hothers⟩ := hnil
      obtain ⟨p, hp, hst⟩ := hsteps st (by simp)
      have hnull := nullable_of_splice_shownBy hg hp hst ht hlaid.1 hfirst
      rw [← hsymbol] at hnull
      have hothers := ih fields.tail (fun st' hst' => hsteps st' (by simp [hst'])) hlaid.2 hothers
        hrest
      intro st' hst'
      rcases List.mem_cons.mp hst' with rfl | hst'
      · exact hnull
      · exact hothers st' hst'

end

/-! ## Nodes of productions -/

/-- The node of a production stands for its left-hand side. -/
theorem stands_node (hg : l.Sound g) {p : Production} (hp : p ∈ g.productions) {spec : Spec}
    (hspec : spec.symbol = p.lhs) (fields : List (Option FieldId)) {ts : List Subtree}
    (h : Fills g l p.rhs ts) (hlaid : LaidList (LeafOf g l Spans) start ts) :
    let t := Subtree.node l spec (dress l fields (p.steps.map Step.label) ts)
    Stands g l t ∧ Laid (LeafOf g l Spans) start t ∧ t.size = span ts := by
  intro t
  have hsteps : ∀ st ∈ p.steps, ∃ p ∈ g.productions, st ∈ p.steps := fun st hst => ⟨p, hp, hst⟩
  obtain ⟨hlaid', hspan⟩ := laidList_dress hg fields hsteps h hlaid
  -- a node from which nothing becomes has nullable symbols only
  have hnull (hnil : spliceAll l none [] t.children = []) : g.Nullable p.lhs := by
    refine .intro hp fun x hx => ?_
    obtain ⟨st, hst, rfl⟩ := List.mem_map.mp hx
    exact nullable_of_dress hg fields hsteps h hlaid (spliceAll_eq_nil_of_node hnil) st hst
  have hzero (hc : t.children = []) : t.size = Length.zero := size_eq_zero_of_node hc
  have hsymbol : t.symbol = p.lhs := hspec
  obtain ⟨h₁, h₂⟩ := laid_node hiddenEmpty_leafOf hlaid' fun hc : t.children = [] =>
    .empty (hzero hc) (.inr (.inr (by
      show g.Emptied t.symbol
      rw [hsymbol]
      exact (hnull (by rw [show t.children = [] from hc]; rfl)).emptied)))
  refine ⟨⟨fun hc hs => absurd (hzero hc) hs, fun _ hnil => .inr ?_⟩, h₁, h₂.trans hspan⟩
  rw [hsymbol]
  exact hnull hnil

/-! ## Stacks -/

open Version (stateOf stopOf)

/-- The nodes of a stack stand for the symbols of a path of the automaton. -/
inductive Stacked (g : FlatGrammar) (l : Language) : List Entry → Prop where
  | nil : Stacked g l []
  | extra {e : Entry} {stack : List Entry} (h : Stacked g l stack) (hx : e.node.info.extra = true)
      (hl : Lasting l e.node) (hs : e.state = stateOf stack) : Stacked g l (e :: stack)
  | node {e : Entry} {stack : List Entry} (h : Stacked g l stack)
      (hx : e.node.info.extra = false) (ht : Stands g l e.node)
      (he : l.Edge (stateOf stack) e.node.symbol e.state) : Stacked g l (e :: stack)

/-- The path of a stack. -/
def pathOf : List Entry → List (Symbol × StateId)
  | [] => []
  | e :: stack =>
    if e.node.info.extra then pathOf stack else (e.node.symbol, e.state) :: pathOf stack

variable {stack : List Entry} {e : Entry}

theorem pathOf_extra (hx : e.node.info.extra = true) : pathOf (e :: stack) = pathOf stack := by
  rw [pathOf, if_pos hx]

theorem pathOf_node (hx : e.node.info.extra = false) :
    pathOf (e :: stack) = (e.node.symbol, e.state) :: pathOf stack := by
  rw [pathOf, if_neg (by simp [hx])]

theorem Stacked.lastState (h : Stacked g l stack) : lastState (pathOf stack) = stateOf stack := by
  induction h with
  | nil => rfl
  | extra _ hx _ hs ih => rw [pathOf_extra hx, ih, stateOf, hs]
  | node _ hx _ _ _ => rw [pathOf_node hx, Automaton.lastState, stateOf]

theorem Stacked.path (h : Stacked g l stack) : Path l.Edge (pathOf stack) := by
  induction h with
  | nil => exact .nil
  | extra _ hx _ _ ih => rwa [pathOf_extra hx]
  | node h hx _ he ih =>
    rw [pathOf_node hx]
    exact .cons ih (by rwa [h.lastState])

theorem Stacked.of_append {top stack : List Entry} (h : Stacked g l (top ++ stack)) :
    Stacked g l stack := by
  induction top with
  | nil => exact h
  | cons e top ih =>
    cases h with
    | extra h => exact ih h
    | node h => exact ih h

theorem spelled_cons (x : Symbol) (t : StateId) (steps : List (Symbol × StateId)) :
    spelled ((x, t) :: steps) = spelled steps ++ [x] := by
  simp [spelled]

/-- The nodes of a stack stand for what its path spells. -/
theorem Stacked.fills (h : Stacked g l stack) :
    Fills g l (spelled (pathOf stack)) (stack.map Entry.node).reverse := by
  induction h with
  | nil => exact .nil
  | extra _ hx hl _ ih =>
    rw [pathOf_extra hx, List.map_cons, List.reverse_cons, ← List.append_nil (spelled _)]
    exact ih.append (.extra hx hl .nil)
  | node _ hx ht _ ih =>
    rw [pathOf_node hx, List.map_cons, List.reverse_cons, spelled_cons]
    exact ih.append (.node hx ht .nil)

/-- As many nodes as the path is long can be taken off a stack. -/
theorem Stacked.takeNodes (h : Stacked g l stack) {count : Nat}
    (hc : count ≤ (pathOf stack).length) (after : List Subtree) :
    ∃ taken rest, stack = taken ++ rest ∧ Stacked g l rest ∧
      pathOf rest = (pathOf stack).drop count ∧
      takeNodes count stack after = some ((taken.map Entry.node).reverse ++ after, rest) ∧
      Fills g l (spelled ((pathOf stack).take count)) (taken.map Entry.node).reverse := by
  induction h generalizing count after with
  | nil =>
    obtain rfl : count = 0 := Nat.le_zero.mp hc
    exact ⟨[], [], rfl, .nil, rfl, rfl, .nil⟩
  | @extra e stack h hx hl hs ih =>
    cases count with
    | zero => exact ⟨[], e :: stack, rfl, .extra h hx hl hs, rfl, rfl, .nil⟩
    | succ n =>
      rw [pathOf_extra hx] at hc ⊢
      obtain ⟨taken, rest, rfl, hrest, hpath, htake, hfills⟩ := ih hc (e.node :: after)
      refine ⟨e :: taken, rest, rfl, hrest, hpath, ?_, ?_⟩
      · rw [Parse.takeNodes, if_pos hx, htake, List.map_cons, List.reverse_cons, List.append_assoc]
        rfl
      · rw [List.map_cons, List.reverse_cons, ← List.append_nil (spelled _)]
        exact hfills.append (.extra hx hl .nil)
  | @node e stack h hx ht he ih =>
    cases count with
    | zero => exact ⟨[], e :: stack, rfl, .node h hx ht he, rfl, rfl, .nil⟩
    | succ n =>
      rw [pathOf_node hx] at hc ⊢
      obtain ⟨taken, rest, rfl, hrest, hpath, htake, hfills⟩ :=
        ih (Nat.le_of_succ_le_succ hc) (e.node :: after)
      refine ⟨e :: taken, rest, rfl, hrest, hpath, ?_, ?_⟩
      · rw [Parse.takeNodes, if_neg (by simp [hx]), htake, List.map_cons, List.reverse_cons,
          List.append_assoc]
        rfl
      · rw [List.take_succ_cons, spelled_cons, List.map_cons, List.reverse_cons]
        exact hfills.append (.node hx ht .nil)

/-! ## Reductions -/

/-- Nodes that are put on a stack as extras. -/
theorem stacked_pushAll {v : Version} {ts : List Subtree} (h : Stacked g l v.stack)
    (hts : ∀ t ∈ ts, t.info.extra = true ∧ Lasting l t) :
    Stacked g l (v.pushAll v.state ts).stack := by
  have key (ts : List Subtree) (v : Version) (s : StateId) (hs : v.state = s)
      (h : Stacked g l v.stack) (hts : ∀ t ∈ ts, t.info.extra = true ∧ Lasting l t) :
      Stacked g l (v.pushAll s ts).stack := by
    induction ts generalizing v with
    | nil => exact h
    | cons t ts ih =>
      obtain ⟨hx, hl⟩ := hts t (by simp)
      exact ih (v.push s t) rfl (.extra h hx hl hs.symm) fun u hu => hts u (by simp [hu])
  exact key ts v _ rfl h hts

/-- Extras on top of a stack leave its state and its path as they are. -/
theorem Stacked.below_extras {top : List Entry} (h : Stacked g l (top ++ stack))
    (hx : ∀ e ∈ top, e.node.info.extra = true) :
    stateOf (top ++ stack) = stateOf stack ∧ pathOf (top ++ stack) = pathOf stack ∧
      ∀ e ∈ top, Lasting l e.node := by
  induction top with
  | nil => exact ⟨rfl, rfl, by simp⟩
  | cons e top ih =>
    have hxe := hx e (by simp)
    cases h with
    | extra h _ hl hs =>
      obtain ⟨h₁, h₂, h₃⟩ := ih h fun e' he' => hx e' (by simp [he'])
      refine ⟨?_, by rw [List.cons_append, pathOf_extra hxe, h₂], ?_⟩
      · exact hs.trans h₁
      · intro e' he'
        rcases List.mem_cons.mp he' with rfl | he'
        · exact hl
        · exact h₃ e' he'
    | node _ hx' => simp [hxe] at hx'

theorem nodes_eq (v : Version) : v.nodes = (v.stack.map Entry.node).reverse := rfl

/-- A reduction for which there are enough nodes and a state to go on in. -/
theorem reduce_eq_ok {v : Version} {p : ProductionInfo} (fragile : Bool) (t : Subtree)
    {top stack rest : List Entry} {nodes : List Subtree} {next : StateId}
    (hspan : v.stack.span (fun e => e.node.info.extra) = (top, stack))
    (htake : takeNodes p.childCount stack [] = some (nodes, rest))
    (hnext : l.goto? (stateOf rest) p.lhs = some next) :
    ∃ spec : Spec, spec.symbol = p.lhs ∧ spec.errorCost = 0 ∧
      spec.dynamicPrecedence = p.dynamicPrecedence ∧
      spec.lookahead = v.position.bytes + t.size.bytes + t.info.lookahead
        - ((stopOf rest).bytes + totalBytes nodes) ∧
      Version.reduce l v p fragile t = .ok
        ((({ v with
              stack := rest
              dynamicPrecedence := v.dynamicPrecedence + p.dynamicPrecedence } : Version).push next
          (Subtree.node l spec (dress l p.fields p.labels nodes))).pushAll next
            (top.map Entry.node).reverse) := by
  unfold Version.reduce
  simp only [hspan, htake, hnext]
  exact ⟨_, rfl, rfl, rfl, rfl, rfl⟩

/-- Where the automaton asks for a reduction, the nodes of the production stand below the
extras on top of the stack, and the state below them goes on over its left-hand side. -/
theorem Stacked.exists_reduction (hg : l.Sound g) (hs : Stacked g l stack) {p : ProductionId}
    {a : Symbol} (ha : .reduce p ∈ l.actions (stateOf stack) a) :
    ∃ prod top taken rest next, g.productions[p]? = some prod ∧
      stack = top ++ (taken ++ rest) ∧
      stack.span (fun e => e.node.info.extra) = (top, taken ++ rest) ∧
      (∀ e ∈ top, e.node.info.extra = true ∧ Lasting l e.node) ∧
      Parse.takeNodes prod.info.childCount (taken ++ rest) []
        = some ((taken.map Entry.node).reverse, rest) ∧
      Fills g l prod.rhs (taken.map Entry.node).reverse ∧ Stacked g l rest ∧
      l.goto? (stateOf rest) prod.lhs = some next := by
  have hspan := List.span_eq_takeWhile_dropWhile (fun e : Entry => e.node.info.extra) stack
  have hsplit := List.takeWhile_append_dropWhile (p := fun e : Entry => e.node.info.extra)
    (l := stack)
  have htop : ∀ e ∈ stack.takeWhile (fun e => e.node.info.extra), e.node.info.extra = true :=
    fun e he => List.mem_takeWhile_imp (p := fun e : Entry => e.node.info.extra) he
  generalize stack.takeWhile (fun e => e.node.info.extra) = top at hspan hsplit htop
  generalize stack.dropWhile (fun e => e.node.info.extra) = below at hspan hsplit
  rw [← hsplit] at hs
  obtain ⟨hstate, -, hlasting⟩ := hs.below_extras htop
  have hbelow := hs.of_append
  rw [← hsplit, hstate, ← hbelow.lastState] at ha
  obtain ⟨prod, hprod, hle, hspelled, next, hnext⟩ := hg.reduce hbelow.path ha
  have hcount : prod.info.childCount = prod.rhs.length := by
    simp [ProductionInfo.childCount, Production.info, Production.rhs]
  obtain ⟨taken, rest, rfl, hrest, hdrop, htake, hfills⟩ := hbelow.takeNodes hle []
  rw [List.append_nil, ← hcount] at htake
  rw [hspelled] at hfills
  rw [← hdrop, hrest.lastState] at hnext
  exact ⟨prod, top, taken, rest, next, hprod, hsplit.symm, hspan,
    fun e he => ⟨htop e he, hlasting e he⟩, htake, hfills, hrest, hnext⟩

/-- How a reduction parts the nodes of a hypothesis: those before, the nodes of the production,
with no extra at either end, and the extras after them. -/
structure Parted (before ts after : List Subtree) : Prop where
  before : ts = [] → ∀ t ∈ before.getLast?, t.info.extra = false
  first : ∀ t ∈ ts.head?, t.info.extra = false
  last : ∀ t ∈ ts.getLast?, t.info.extra = false
  after : ∀ t ∈ after, t.info.extra = true

theorem Parted.of_span {count : Nat} {nodes : List Subtree} {top taken rest : List Entry}
    (hspan : stack.span (fun e => e.node.info.extra) = (top, taken ++ rest))
    (htake : Parse.takeNodes count (taken ++ rest) [] = some (nodes, rest)) :
    Parted (rest.map Entry.node).reverse (taken.map Entry.node).reverse
      (top.map Entry.node).reverse := by
  rw [List.span_eq_takeWhile_dropWhile, Prod.mk.injEq] at hspan
  obtain ⟨htop, hbelow⟩ := hspan
  have highest (e : Entry) (he : e ∈ (taken ++ rest).head?) : e.node.info.extra = false := by
    rw [← hbelow] at he
    have hhead := List.head?_dropWhile_not (fun e : Entry => e.node.info.extra) stack
    rwa [Option.mem_def.mp he] at hhead
  refine ⟨fun hnil t ht => ?_, fun t ht => ?_, fun t ht => ?_, fun t ht => ?_⟩
  · rw [List.reverse_eq_nil_iff, List.map_eq_nil_iff] at hnil
    rw [List.getLast?_reverse, List.head?_map] at ht
    obtain ⟨e, he, rfl⟩ := Option.map_eq_some_iff.mp ht
    exact highest e (by rwa [hnil])
  · rw [List.head?_reverse, List.getLast?_map] at ht
    obtain ⟨e, he, rfl⟩ := Option.map_eq_some_iff.mp ht
    obtain ⟨taken', hsplit, -, hlowest⟩ := takeNodes_eq_some htake
    obtain rfl := List.append_cancel_right hsplit
    rcases hlowest with ⟨-, rfl⟩ | ⟨d, hd, hx⟩
    · contradiction
    · obtain rfl := Option.some.inj (he.symm.trans hd)
      exact hx
  · rw [List.getLast?_reverse, List.head?_map] at ht
    obtain ⟨e, he, rfl⟩ := Option.map_eq_some_iff.mp ht
    exact highest e (List.mem_head?_append_of_mem_head? he)
  · obtain ⟨e, he, rfl⟩ := List.mem_map.mp (List.mem_reverse.mp ht)
    rw [← htop] at he
    exact List.mem_takeWhile_imp (p := fun e : Entry => e.node.info.extra) he

/-- What a reduction did: the nodes of the production, below the extras on top of the stack, gave
way to the node over them. -/
theorem Stacked.exists_reduced (hg : l.Sound g) {v w : Version} {t : Subtree}
    (hs : Stacked g l v.stack) {p : ProductionId} {a : Symbol} (ha : .reduce p ∈ l.actions v.state a)
    {n : Nat} {info : ProductionInfo} {fragile : Bool} (hinfo : l.production? p = some info)
    (hw : Version.reduce l { v with reductions := n } info fragile t = .ok w) :
    ∃ (prod : Production) (top taken rest : List Entry) (next : StateId) (spec : Spec),
      g.productions[p]? = some prod ∧
      v.stack = top ++ (taken ++ rest) ∧
      Parted (rest.map Entry.node).reverse (taken.map Entry.node).reverse
        (top.map Entry.node).reverse ∧
      Fills g l prod.rhs (taken.map Entry.node).reverse ∧
      spec.symbol = prod.lhs ∧ spec.errorCost = 0 ∧
      spec.dynamicPrecedence = prod.info.dynamicPrecedence ∧
      spec.lookahead = v.position.bytes + t.size.bytes + t.info.lookahead
        - ((stopOf rest).bytes + totalBytes (taken.map Entry.node).reverse) ∧
      w = (({ v with
            reductions := n
            stack := rest
            dynamicPrecedence := v.dynamicPrecedence + prod.info.dynamicPrecedence } : Version).push
          next (Subtree.node l spec (dress l prod.info.fields prod.info.labels
          (taken.map Entry.node).reverse))).pushAll next (top.map Entry.node).reverse := by
  obtain ⟨prod, top, taken, rest, next, hprod, hsplit, hspan, -, htake, hfills, -, hnext⟩ :=
    hs.exists_reduction hg ha
  have hinfo' : l.production? p = some prod.info := by
    rw [hg.production?_eq, hprod]
    rfl
  obtain rfl := Option.some.inj (hinfo.symm.trans hinfo')
  obtain ⟨spec, hspec, hcost, hprecedence, hlookahead, hreduce⟩ := reduce_eq_ok
    (v := { v with reductions := n }) fragile t hspan htake hnext
  exact ⟨prod, top, taken, rest, next, spec, hprod, hsplit, .of_span hspan htake, hfills,
    hspec, hcost, hprecedence, hlookahead, Except.ok.inj (hw.symm.trans hreduce)⟩

/-- What a reduction did to the nodes of a hypothesis. -/
theorem Stacked.nodes_reduced (hg : l.Sound g) {v w : Version} {t : Subtree}
    (hs : Stacked g l v.stack) {p : ProductionId} {a : Symbol} (ha : .reduce p ∈ l.actions v.state a)
    {n : Nat} {info : ProductionInfo} {fragile : Bool} (hinfo : l.production? p = some info)
    (hw : Version.reduce l { v with reductions := n } info fragile t = .ok w) :
    ∃ (prod : Production) (before ts after : List Subtree) (spec : Spec),
      g.productions[p]? = some prod ∧ v.nodes = before ++ (ts ++ after) ∧
      Parted before ts after ∧ Fills g l prod.rhs ts ∧ spec.symbol = prod.lhs ∧
      spec.errorCost = 0 ∧ spec.dynamicPrecedence = prod.info.dynamicPrecedence ∧
      w.dynamicPrecedence = v.dynamicPrecedence + prod.info.dynamicPrecedence ∧
      w.nodes = before ++
        (Subtree.node l spec (dress l prod.info.fields prod.info.labels ts) :: after) := by
  obtain ⟨prod, top, taken, rest, next, spec, hprod, hsplit, hparted, hfills, hspec, hcost,
    hprecedence, -, rfl⟩ := hs.exists_reduced hg ha hinfo hw
  refine ⟨prod, _, _, _, spec, hprod, ?_, hparted, hfills, hspec, hcost, hprecedence, ?_, ?_⟩
  · rw [nodes_eq, hsplit]
    simp
  · obtain ⟨_, _, hpush⟩ := Version.pushAll_eq _ next (top.map Entry.node).reverse
    rw [hpush]
    rfl
  · rw [Version.nodes_pushAll, Version.nodes_push, List.append_assoc]
    rfl

/-- A reduction that the automaton asks for is possible, and keeps the stack one that
its path spells, with the same text. -/
theorem reduce_spec (hg : l.Sound g) {v : Version} (hs : Stacked g l v.stack)
    (hlaid : LaidList (LeafOf g l Spans) 0 v.nodes) {p : ProductionId} {a : Symbol}
    (ha : .reduce p ∈ l.actions v.state a) :
    ∃ info, l.production? p = some info ∧ ∀ n fragile t, ∃ w,
      Version.reduce l { v with reductions := n } info fragile t = .ok w ∧
      Stacked g l w.stack ∧ LaidList (LeafOf g l Spans) 0 w.nodes ∧ span w.nodes = span v.nodes := by
  obtain ⟨prod, top, taken, rest, next, hprod, hsplit, hspan, htop, htake, hfills, hrest, hnext⟩ :=
    hs.exists_reduction hg ha
  refine ⟨prod.info, by rw [hg.production?_eq, hprod]; rfl, fun n fragile t => ?_⟩
  -- the text of the stack comes in three parts
  have hnodes : v.nodes = (rest.map Entry.node).reverse
      ++ ((taken.map Entry.node).reverse ++ (top.map Entry.node).reverse) := by
    rw [nodes_eq, hsplit]
    simp
  rw [hnodes] at hlaid
  have hlaid₂ := (laidList_append.mp (laidList_append.mp hlaid).2).1
  obtain ⟨spec, hspec, -, -, -, hreduce⟩ := reduce_eq_ok (v := { v with reductions := n })
    (p := prod.info) fragile t hspan htake hnext
  refine ⟨_, hreduce, ?_⟩
  obtain ⟨hstands, hlaid', hsize⟩ := stands_node hg
    (Array.mem_of_getElem? hprod) hspec prod.info.fields hfills hlaid₂
  have hrule : l.isNonterminal prod.lhs = true := hg.isNonterminal_of_isRule
    (hg.grammar.productions prod (Array.mem_of_getElem? hprod)).lhs
  refine ⟨?_, ?_⟩
  · refine stacked_pushAll (v := Version.push _ next _) (.node hrest rfl hstands ?_) ?_
    · show l.Edge (stateOf rest) spec.symbol next
      rw [hspec, Language.Edge, show prod.info.lhs = prod.lhs from rfl, if_pos hrule]
      exact hnext
    · intro u hu
      obtain ⟨e, he, rfl⟩ := List.mem_map.mp (List.mem_reverse.mp hu)
      exact htop e he
  · -- the new node has the text of the nodes that it is made of
    rw [Version.nodes_pushAll, Version.nodes_push, hnodes]
    exact laidList_replace hlaid hlaid' hsize

/-! ## Roots -/

theorem spliceAll_append (outer : Option FieldId) (cs ds : List (Child Subtree)) :
    spliceAll l outer [] (cs ++ ds) = spliceAll l outer [] cs ++ spliceAll l outer [] ds := by
  induction cs with
  | nil => rfl
  | cons c cs ih =>
    obtain ⟨f, t⟩ := c
    rw [List.cons_append, spliceAll, splice_eq_append, ih, spliceAll,
      splice_eq_append _ _ (spliceAll l outer [] cs), List.append_assoc]

theorem spliceAll_flatMap_eq_nil {ts : List Subtree} {f : Subtree → List (Child Subtree)}
    (h : spliceAll l none [] (ts.flatMap f) = []) : ∀ t ∈ ts, spliceAll l none [] (f t) = [] := by
  induction ts with
  | nil => simp
  | cons t ts ih =>
    rw [List.flatMap_cons, spliceAll_append, List.append_eq_nil_iff] at h
    intro u hu
    rcases List.mem_cons.mp hu with rfl | hu
    · exact h.1
    · exact ih h.2 u hu

/-- The nodes that are no extras stand for the symbols. -/
theorem Fills.stands {xs : List Symbol} {ts : List Subtree} (h : Fills g l xs ts) :
    ∀ t ∈ ts, t.info.extra = false → Stands g l t ∧ t.symbol ∈ xs := by
  induction h with
  | nil => simp
  | extra hx _ _ ih =>
    intro u hu hn
    rcases List.mem_cons.mp hu with rfl | hu
    · simp [hx] at hn
    · exact ih u hu hn
  | node _ ht _ ih =>
    intro u hu hn
    rcases List.mem_cons.mp hu with rfl | hu
    · exact ⟨ht, by simp⟩
    · obtain ⟨h₁, h₂⟩ := ih u hu hn
      exact ⟨h₁, List.mem_cons_of_mem _ h₂⟩

/-- An error node is laid out as what it holds; it may hold nothing. -/
theorem laid_errorOf (state : StateId) (cost : Nat) {ts : List Subtree}
    (h : LaidList (LeafOf g l Spans) start ts) :
    Laid (LeafOf g l Spans) start (Subtree.error l state cost ts)
      ∧ (Subtree.error l state cost ts).size = span ts := by
  exact laid_error hiddenEmpty_leafOf h fun hc =>
    .empty (size_eq_zero_of_node hc) (.inr (.inl rfl))

/-- The root over all nodes of a stack that is accepted has their text. -/
theorem laid_rootOf (hg : l.Sound g) {v : Version} (hs : Stacked g l v.stack)
    (hlaid : LaidList (LeafOf g l Spans) 0 v.nodes) {a : Symbol}
    (ha : .accept ∈ l.actions v.state a) (cost : Nat) :
    Laid (LeafOf g l Spans) 0 (rootOf l v.nodes cost)
      ∧ (rootOf l v.nodes cost).size = span v.nodes := by
  rw [Version.state, ← hs.lastState] at ha
  obtain ⟨hstart, t, hpath⟩ := hg.accept hs.path ha
  have hfills := hs.fills
  rw [← nodes_eq, hpath, show spelled [(g.start, t)] = [g.start] from rfl] at hfills
  unfold rootOf
  split
  · rename_i start hfilter
    have hmem : start ∈ v.nodes ∧ start.info.extra = false := by
      have : start ∈ v.nodes.filter fun t => !t.info.extra := by simp [hfilter]
      simpa using this
    split
    · -- what is no extra gives way to its children, and only that
      have hvanish (u : Subtree) (hu : u ∈ v.nodes) (hx : u.info.extra = false) :
          u.children = [] → u.size = Length.zero := by
        intro hc
        obtain ⟨hstands, hsymbol⟩ := hfills.stands u hu hx
        by_contra hsize
        have := hstands.token hc hsize
        rw [List.mem_singleton.mp hsymbol, hstart] at this
        contradiction
      obtain ⟨h₁, h₂⟩ := laidList_flatMap
        (f := fun t => if t.info.extra then [⟨none, t⟩] else t.children) hlaid fun u hu s hlaidu => by
          by_cases hx : u.info.extra = true
          · rw [if_pos hx]
            exact ⟨laidList_singleton.mpr hlaidu, span_singleton _⟩
          · rw [if_neg hx]
            exact laidList_children hlaidu (hvanish u hu (by simpa using hx))
      refine (laid_node hiddenEmpty_leafOf h₁ fun hc => .empty (size_eq_zero_of_node hc) ?_).imp_right
        fun hsize => hsize.trans h₂
      have hnil := spliceAll_flatMap_eq_nil
        (spliceAll_eq_nil_of_node (by rw [hc]; rfl)) start hmem.1
      rw [if_neg (by simp [hmem.2])] at hnil
      obtain ⟨s, hlaids⟩ := exists_laid_of_mem hlaid hmem.1
      obtain ⟨h₃, h₄⟩ := laidList_children hlaids (hvanish start hmem.1 hmem.2)
      have hspan := (laidAll_spliceAll hiddenEmpty_leafOf none (laidAll_iff.mpr h₃)).2
      rw [hnil, h₄] at hspan
      obtain ⟨hstands, hsymbol⟩ := hfills.stands start hmem.1 hmem.2
      rcases hstands.nothing hspan.symm hnil with ⟨-, hn⟩ | hn
      · rw [List.mem_singleton.mp hsymbol, hstart] at hn
        contradiction
      · exact .inr (.inr hn.emptied)
    · exact laid_errorOf _ _ hlaid
  · exact laid_errorOf _ _ hlaid

end Parse

end Glr
