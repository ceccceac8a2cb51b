import Glr.Parser
import Glr.Proofs.Table.Document
import Glr.Proofs.Tree.Plain

/-!
# Glr.Proofs.Reloaded

A language that is written as the text of its table and loaded again has another handle
and is the same in everything else.

A parse asks a language for its table, its rules and its scanner, and never for its
handle.  The handle only tells whether a previous tree is of the same language, so two
languages that differ in it build the same tree and report the same events:

```
(l.withHandle h).parse limits text old' = l.parse limits text old, under the handle h
```

where the previous trees `old` and `old'` are one to their languages (`Twins`).  Every
function of a parse is the same under another handle by unfolding it, once the
recursive ones are: those are taken by induction.
-/

namespace Glr

open Parse

/-- A language under another handle. -/
def Language.withHandle (l : Language) (handle : Nat) : Language := { l with handle }

/-- A tree of a language under another handle. -/
def Tree.withHandle (t : Tree) (handle : Nat) : Tree :=
  { t with language := t.language.withHandle handle }

variable (l : Language) (h : Nat) (text : Bytes)

/-! ## Nodes -/

namespace Subtree

mutual

theorem splice_withHandle (field : Option FieldId) (after : List (Child Subtree)) :
    ∀ t, splice (l.withHandle h) field after t = splice l field after t
  | .mk info children => by
    rw [splice, splice, spliceAll_withHandle _ _ children]
    rfl

theorem spliceAll_withHandle (outer : Option FieldId) (after : List (Child Subtree)) :
    ∀ cs, spliceAll (l.withHandle h) outer after cs = spliceAll l outer after cs
  | [] => rfl
  | ⟨field, t⟩ :: rest => by
    rw [spliceAll, spliceAll, spliceAll_withHandle _ _ rest, splice_withHandle _ _ t]

end

theorem node_withHandle (spec : Spec) (children : List (Child Subtree)) :
    node (l.withHandle h) spec children = node l spec children := by
  simp only [node, spliceAll_withHandle]
  rfl

theorem error_withHandle (state : StateId) (cost : Nat) (children : List Subtree) :
    error (l.withHandle h) state cost children = error l state cost children :=
  node_withHandle l h _ _

end Subtree

namespace Parse

/-! ## Tokens -/

theorem unrecognizedEnd_withHandle (fuel stop : Nat) :
    unrecognizedEnd (l.withHandle h) text fuel stop = unrecognizedEnd l text fuel stop := by
  induction fuel generalizing stop with
  | zero => rfl
  | succ fuel ih =>
    rw [unrecognizedEnd, unrecognizedEnd, ih]
    rfl

theorem ruleToken_withHandle (site : Site) :
    ruleToken (l.withHandle h) text site = ruleToken l text site := by
  simp only [ruleToken, unrecognizedEnd_withHandle]
  rfl

theorem token_withHandle (site : Site) :
    token (l.withHandle h) text site = token l text site := by
  simp only [token, ruleToken_withHandle]
  rfl

/-! ## Moves -/

theorem dress_withHandle (ts : List Subtree) (fields : List (Option FieldId))
    (labels : List (Option Symbol)) :
    dress (l.withHandle h) fields labels ts = dress l fields labels ts := by
  induction ts generalizing fields labels with
  | nil => rfl
  | cons t ts ih =>
    rw [dress, dress, ih, ih]
    rfl

namespace Version

variable (v : Version) (t : Subtree)

theorem reduce_withHandle (p : ProductionInfo) (fragile : Bool) :
    v.reduce (l.withHandle h) p fragile t = v.reduce l p fragile t := by
  simp only [reduce, dress_withHandle, Subtree.node_withHandle]
  rfl

theorem giveUp?_withHandle (s : Symbol) (stack : List Entry) (after : List Subtree) :
    giveUp? (l.withHandle h) s stack after = giveUp? l s stack after := by
  induction stack generalizing after with
  | nil => rfl
  | cons e stack ih =>
    rw [giveUp?, giveUp?, ih]
    rfl

theorem popUntilValid?_withHandle :
    v.popUntilValid? (l.withHandle h) t = v.popUntilValid? l t := by
  simp only [popUntilValid?, giveUp?_withHandle, Subtree.error_withHandle]

theorem recoveries_withHandle : v.recoveries (l.withHandle h) t = v.recoveries l t := by
  simp only [recoveries, popUntilValid?_withHandle]
  rfl

theorem flush_withHandle : v.flush (l.withHandle h) = v.flush l := by
  simp only [flush, Subtree.error_withHandle]

end Version

theorem rootOf_withHandle (nodes : List Subtree) (errorCost : Nat) :
    rootOf (l.withHandle h) nodes errorCost = rootOf l nodes errorCost := by
  simp only [rootOf, Subtree.node_withHandle, Subtree.error_withHandle]
  rfl

theorem OldTree.reuse?_withHandle (site : ReuseSite) (w : OldTree) :
    w.reuse? (l.withHandle h) site = w.reuse? l site := by
  induction hn : movesLeft w.path using Nat.strongRecOn generalizing w with
  | _ n ih =>
    have hpass : ∀ o above, w.path = o :: above →
        w.pass.reuse? (l.withHandle h) site = w.pass.reuse? l site := fun _ _ hw =>
      ih _ (hn ▸ movesLeft_pass hw) _ rfl
    have hdescend : ∀ v, w.descend? = some v →
        v.reuse? (l.withHandle h) site = v.reuse? l site := fun _ hv =>
      ih _ (hn ▸ movesLeft_descend hv) _ rfl
    rw [reuse?.eq_def (l.withHandle h) site w, reuse?.eq_def l site w]
    split
    · rfl
    · rename_i o above hw
      simp only [hpass o above hw]
      split
      · rfl
      · split
        · split
          · rfl
          · split
            · exact hdescend _ ‹_›
            · rfl
        · have heq : o.fits (l.withHandle h) site w.external = o.fits l site w.external := rfl
          by_cases hfits : o.fits l site w.external = true
          · rw [if_pos hfits, if_pos (heq ▸ hfits)]
          · rw [if_neg hfits, if_neg (heq ▸ hfits)]
            split
            · exact hdescend _ ‹_›
            · rfl

/-! ## The run -/

namespace Run

variable (r : Run) (i : Nat) (v : Version) (t : Subtree)

theorem fetch_withHandle : r.fetch (l.withHandle h) text i v = r.fetch l text i v := by
  simp only [fetch, OldTree.reuse?_withHandle, token_withHandle]
  rfl

theorem giveUp_withHandle : r.giveUp (l.withHandle h) i v = r.giveUp l i v := by
  simp only [giveUp, Subtree.error_withHandle]

theorem recover_withHandle : r.recover (l.withHandle h) i v t = r.recover l i v t := by
  simp only [recover, Version.recoveries_withHandle, giveUp_withHandle]
  rfl

theorem accept_withHandle : r.accept (l.withHandle h) i v = r.accept l i v := by
  simp only [accept, rootOf_withHandle]

theorem apply_withHandle (action : ParseAction) :
    r.apply (l.withHandle h) i action t = r.apply l i action t := by
  simp only [apply, giveUp_withHandle, recover_withHandle, accept_withHandle,
    Version.reduce_withHandle]
  rfl

theorem act_withHandle (actions : List ParseAction) :
    r.act (l.withHandle h) i v t actions = r.act l i v t actions := by
  simp only [act, fork, apply_withHandle, recover_withHandle]
  rfl

theorem step_withHandle : r.step (l.withHandle h) text i = r.step l text i := by
  simp only [step, fetch_withHandle, act_withHandle, recover_withHandle, Version.flush_withHandle]
  rfl

theorem partialTree_withHandle :
    r.partialTree (l.withHandle h) = (r.partialTree l).withHandle h := by
  simp only [partialTree, Subtree.error_withHandle]
  rfl

theorem bestTree_withHandle : r.bestTree (l.withHandle h) = (r.bestTree l).withHandle h := by
  unfold bestTree
  split
  · rfl
  · exact partialTree_withHandle l h r

theorem loop_withHandle (limits : Limits) (fuel : Nat) :
    r.loop (l.withHandle h) text limits fuel =
      ((r.loop l text limits fuel).1.withHandle h, (r.loop l text limits fuel).2) := by
  induction fuel generalizing r with
  | zero => simp only [loop, partialTree_withHandle]
  | succ fuel ih =>
    simp only [loop, partialTree_withHandle, bestTree_withHandle, step_withHandle, ih]
    split
    · rfl
    · split <;> rfl

end Run

end Parse

/-! ## Previous trees -/

/-- Previous trees for two languages: the same nodes, in a tree of the language or in a
tree of another one on both sides. -/
inductive Language.Twins (l l' : Language) : Option Tree → Option Tree → Prop where
  | none : Twins l l' none none
  | some {t t' : Tree} (hroot : t'.root = t.root)
      (hsame : t'.language.sameAs l' = t.language.sameAs l) : Twins l l' (some t) (some t')

theorem Language.startRun_withHandle {old old' : Option Tree}
    (hold : Twins l (l.withHandle h) old old') :
    (l.withHandle h).startRun text old' = l.startRun text old := by
  cases hold with
  | none => rfl
  | @some t t' hroot hsame =>
    have husable : t'.isUsable (l.withHandle h) text = t.isUsable l text := by
      rw [Tree.isUsable, Tree.isUsable, hsame, Tree.lenBytes, hroot]
      rfl
    cases hu : t.isUsable l text with
    | false => simp [startRun, Option.filter, husable, hu]
    | true => simp [startRun, Option.filter, husable, hu, hroot]

/-- What a parse answers for the tree and the run that its loop ends with. -/
def Parse.Run.reported (result : Tree × Run) : Tree × List Event :=
  (result.1, result.2.events.reverse)

theorem Parse.Run.reported_withHandle (result : Tree × Run) :
    reported (result.1.withHandle h, result.2) =
      ((reported result).1.withHandle h, (reported result).2) := rfl

theorem Language.parse_eq_reported (limits : Limits) (old : Option Tree) :
    l.parse limits text old =
      Run.reported ((l.startRun text old).loop l text limits (Run.stepBound text)) := rfl

/-- Under another handle a language builds the same trees and reports the same events. -/
theorem Language.parse_withHandle (limits : Limits) {old old' : Option Tree}
    (hold : Twins l (l.withHandle h) old old') :
    (l.withHandle h).parse limits text old' =
      ((l.parse limits text old).1.withHandle h, (l.parse limits text old).2) := by
  rw [parse_eq_reported, parse_eq_reported, startRun_withHandle l h text hold,
    Run.loop_withHandle, Run.reported_withHandle]

/-! ## Loading a language again -/

/-- What a table makes under one handle it makes under every other. -/
theorem Language.ofTable_withHandle (handle handle' : Nat) (t : Table) (scanner : Option Scanner) :
    ofTable handle' t scanner = (ofTable handle t scanner).map fun l => l.withHandle handle' := by
  unfold ofTable
  simp only
  split
  · rfl
  · split
    · rfl
    · split
      · rfl
      · cases t.lexRules.mapM (compileRule t) <;> rfl

/-- The text of a table is read as the table, in either form, and makes the language that
the table makes: it has that table, and its parses build the same trees and report the
same events. -/
theorem Language.ofJson_table {t : Table} (ht : t.InRange) {text : String}
    (htext : text = t.toJson ∨ text = t.toPrettyJson) :
    Table.parse? text = some t ∧
      ∀ handle scanner l, ofTable handle t scanner = .ok l → ∀ handle',
        ∃ l', ofJson handle' text scanner = .ok l' ∧ l'.table = l.table ∧
          ∀ limits source old old', Twins l l' old old' →
            (l'.parse limits source old').1.sameAs (l.parse limits source old).1 = true ∧
            (l'.parse limits source old').1.complete = (l.parse limits source old).1.complete ∧
            (l'.parse limits source old').2 = (l.parse limits source old).2 := by
  have hread : Table.parse? text = some t := by
    rcases htext with rfl | rfl
    · exact Table.parse?_toJson_eq ht
    · exact Table.parse?_toPrettyJson_eq ht
  refine ⟨hread, fun handle scanner l hl handle' => ⟨l.withHandle handle', ?_, rfl, ?_⟩⟩
  · rw [ofJson, hread]
    simp only
    rw [ofTable_withHandle handle, hl]
    rfl
  · intro limits source old old' hold
    have halike : ∀ x y : Tree × List Event, x = (y.1.withHandle handle', y.2) →
        x.1.sameAs y.1 = true ∧ x.1.complete = y.1.complete ∧ x.2 = y.2 := by
      rintro _ y rfl
      exact ⟨Subtree.sameAs_of_plain_eq rfl, rfl, rfl⟩
    exact halike _ _ (parse_withHandle l handle' source limits hold)

/-- The table of one letter, which is found by a pattern with a quote and a backslash in it. -/
def Table.oneLetter : Table where
  version := 1
  name := "one \"letter\""
  symbols := #[⟨"end", false, true, .endOfInput⟩, ⟨"a", false, true, .terminal⟩,
    ⟨"s", true, true, .nonterminal⟩]
  fields := #["only"]
  productions := #[⟨2, [some 0], [none], -1⟩]
  stateCount := 3
  entries := #[0, 1, 3, 2, 0, 0, 3, 0, 0]
  actionLists := #[[], [.shift 1], [.reduce 0], [.accept]]
  lexStates := #[[1]]
  stateLexStates := #[0, 0, 0]
  lexRules := [⟨1, .pattern "a|\"\\\"", 0, false⟩]
  extras := []
  externals := []
  word := none
  startSymbol := 2

theorem Table.inRange_oneLetter : oneLetter.InRange where
  version := by decide
  productions := by
    intro p hp
    obtain rfl : p = ⟨2, [some 0], [none], -1⟩ := by simpa [oneLetter] using hp
    exact ⟨by decide, by decide, by decide, by decide⟩
  stateCount := by decide
  entries := by decide
  actionLists := by decide
  lexStates := by decide
  stateLexStates := by decide
  lexRules := by
    intro r hr
    obtain rfl : r = ⟨1, .pattern "a|\"\\\"", 0, false⟩ := by simpa [oneLetter] using hr
    exact ⟨by decide, by decide⟩
  extras := by decide
  externals := by decide
  word := by decide
  startSymbol := by decide

/-- The table of one letter from its indented text, and the letter parsed. -/
theorem Language.ofJson_table_oneLetter : ∃ l l',
    ofTable 0 .oneLetter none = .ok l ∧ Table.parse? Table.oneLetter.toPrettyJson = some .oneLetter ∧
    ofJson 1 Table.oneLetter.toPrettyJson none = .ok l' ∧ l'.table = l.table ∧
    (l'.parse {} (Bytes.ofString "a") none).1.sameAs (l.parse {} (Bytes.ofString "a") none).1 =
      true := by
  have hok : (ofTable 0 .oneLetter none).toOption.isSome = true := by decide +kernel
  obtain ⟨hread, hload⟩ := ofJson_table Table.inRange_oneLetter (.inr rfl)
  cases hl : ofTable 0 .oneLetter none with
  | error e => simp [hl, Except.toOption] at hok
  | ok l =>
    obtain ⟨l', hl', htable, hparse⟩ := hload 0 none l hl 1
    exact ⟨l, l', rfl, hread, hl', htable, (hparse {} _ none none .none).1⟩

end Glr
