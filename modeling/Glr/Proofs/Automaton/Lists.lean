import Glr.Proofs.Automaton.Cells

/-!
# Glr.Proofs.Automaton.Lists

The lists that the table numbers.  A list of actions stands in the table once, the
empty one at zero, and is what some state has for some token.  The lexical state of a
state is the increasing list of the tokens that it has actions for.
-/

namespace Glr.Automaton

/-- Leaving out repetitions makes an increasing list strictly increasing. -/
theorem pairwise_eraseReps {xs : List Nat} (h : xs.Pairwise (· ≤ ·)) :
    xs.eraseReps.Pairwise (· < ·) := by
  have key (x : Nat) (ys zs : List Nat) (hs : (ys.reverse ++ x :: zs).Pairwise (· ≤ ·))
      (hy : (ys.reverse ++ [x]).Pairwise (· < ·)) :
      (List.eraseRepsBy.loop (· == ·) x zs ys).Pairwise (· < ·) := by
    induction zs generalizing x ys with
    | nil => simpa [List.eraseRepsBy.loop] using hy
    | cons z zs ih =>
      unfold List.eraseRepsBy.loop
      have hxz : x ≤ z := by
        have := (List.pairwise_append.mp hs).2.1
        exact (List.pairwise_cons.mp this).1 z (by simp)
      split
      · rename_i he
        obtain rfl : x = z := by simpa using he
        refine ih x ys (hs.sublist ?_) hy
        simp
      · rename_i hne
        have hlt : x < z := Nat.lt_of_le_of_ne hxz (by simpa using hne)
        refine ih z (x :: ys) (by simpa using hs) ?_
        rw [List.reverse_cons]
        refine List.pairwise_append.mpr ⟨hy, List.pairwise_singleton _ _, ?_⟩
        intro a ha c hc
        obtain rfl := List.mem_singleton.mp hc
        rcases List.mem_append.mp ha with ha | ha
        · exact Nat.lt_trans ((List.pairwise_append.mp hy).2.2 a ha x (by simp)) hlt
        · exact List.mem_singleton.mp ha ▸ hlt
  cases xs with
  | nil => exact .nil
  | cons x xs => exact key x [] xs (by simpa using h) (by simp)

theorem Offers.pairwise_terminals (o : Offers) : o.terminals.Pairwise (· < ·) := by
  refine pairwise_eraseReps ((SortedList.pairwise_sort (fun a b c => ?_) (fun a b => ?_)).imp ?_)
  · simpa using Nat.le_trans
  · simpa using Nat.le_total a b
  · simp

namespace Cells

variable {b : Basis} {c : Cells} {row : Array Nat} {state : StateId} {k : Kernel}
  {ts : List (Symbol × StateId)} {o : Offers} {P Q : List ParseAction → Prop}

/-- The tokens that a state has actions for. -/
def tokensFor (b : Basis) (state : StateId) (ts : List (Symbol × StateId)) (o : Offers) :
    List Symbol :=
  o.terminals.filter fun t => !(actionsFor b state ts o t).1.isEmpty

theorem mem_tokensFor {x : Symbol} : x ∈ tokensFor b state ts o ↔
    x ∈ o.terminals ∧ (actionsFor b state ts o x).1 ≠ [] := by
  simp [tokensFor]

/-! ## Lists of actions -/

/-- Every list of actions stands once and is empty or of some kind. -/
structure Lists (P : List ParseAction → Prop) (c : Cells) : Prop where
  nodup : c.actionLists.toList.Nodup
  origin : ∀ acts ∈ c.actionLists, acts = [] ∨ P acts

theorem Lists.imp (h : c.Lists P) (hpq : ∀ acts, P acts → Q acts) : c.Lists Q :=
  ⟨h.nodup, fun acts ha => (h.origin acts ha).imp_right (hpq acts)⟩

theorem Lists.actionListId {actions : List ParseAction} (h : c.Lists P) (hp : P actions) :
    (c.actionListId actions).2.Lists P := by
  unfold Cells.actionListId
  cases hid : c.actionLists.idxOf? actions with
  | some id => exact h
  | none =>
    have hnew : actions ∉ c.actionLists := Array.idxOf?_eq_none_iff.mp hid
    refine ⟨?_, fun acts ha => ?_⟩
    · rw [Array.toList_push]
      refine List.nodup_append.mpr ⟨h.nodup, by simp, fun acts ha acts' ha' he => ?_⟩
      obtain rfl := he.trans (List.mem_singleton.mp ha')
      exact hnew (by simpa using ha)
    · rcases Array.mem_push.mp ha with ha | rfl
      · exact h.origin acts ha
      · exact .inr hp

theorem Lists.addTerminal {valid : List Symbol} {t : Symbol} (h : c.Lists P)
    (hp : P (actionsFor b state ts o t).1) :
    (addTerminal b state ts o (c, row, valid) t).1.Lists P := by
  unfold Cells.addTerminal
  simp only
  split
  · exact ⟨h.nodup, h.origin⟩
  · exact Lists.actionListId ⟨h.nodup, h.origin⟩ hp

/-! ## Lexical states -/

/-- Filling an entry adds its token to the valid ones, if there is an action for it. -/
theorem addTerminal_valid (b : Basis) (state : StateId) (ts : List (Symbol × StateId))
    (o : Offers) (acc : Cells × Array Nat × List Symbol) (t : Symbol) :
    (addTerminal b state ts o acc t).2.2
        = ([t].filter fun t => !(actionsFor b state ts o t).1.isEmpty) ++ acc.2.2
      ∧ (addTerminal b state ts o acc t).1.lexStates = acc.1.lexStates
      ∧ (addTerminal b state ts o acc t).1.stateLexStates = acc.1.stateLexStates := by
  obtain ⟨c, row, valid⟩ := acc
  unfold addTerminal
  cases he : (actionsFor b state ts o t).1.isEmpty with
  | true => simp [he]
  | false =>
    simp only [he, Bool.false_eq_true, if_false, actionListId]
    split <;> simp [he]

/-- The tokens of a row, in the order in which they are filled in. -/
theorem foldl_addTerminal_valid (terminals : List Symbol) (acc : Cells × Array Nat × List Symbol)
    (hp : ∀ t ∈ terminals, P (actionsFor b state ts o t).1) (h : acc.1.Lists P) :
    let acc' := terminals.foldl (addTerminal b state ts o) acc
    acc'.2.2 = (terminals.filter fun t => !(actionsFor b state ts o t).1.isEmpty).reverse
        ++ acc.2.2
      ∧ acc'.1.lexStates = acc.1.lexStates ∧ acc'.1.stateLexStates = acc.1.stateLexStates
      ∧ acc'.1.Lists P := by
  induction terminals generalizing acc with
  | nil => exact ⟨rfl, rfl, rfl, h⟩
  | cons t rest ih =>
    obtain ⟨hvalid, hlex, hids⟩ := addTerminal_valid b state ts o acc t
    obtain ⟨hvalid', hlex', hids', h'⟩ := ih (addTerminal b state ts o acc t)
      (fun t ht => hp t (by simp [ht])) (h.addTerminal (hp t (by simp)))
    refine ⟨?_, hlex'.trans hlex, hids'.trans hids, h'⟩
    rw [List.foldl_cons, hvalid', hvalid, List.filter_cons, List.filter_cons]
    split <;> simp

theorem lexStateId_actionLists (c : Cells) (valid : List Symbol) :
    (c.lexStateId valid).2.actionLists = c.actionLists := by
  unfold lexStateId
  split <;> rfl

/-- A list of tokens is found under its number, and the others keep theirs. -/
theorem lexStateId_reads (c : Cells) (valid : List Symbol) :
    (c.lexStateId valid).2.lexStates[(c.lexStateId valid).1]? = some valid
      ∧ ∀ (id : Nat) l, c.lexStates[id]? = some l → (c.lexStateId valid).2.lexStates[id]? = some l := by
  unfold lexStateId
  cases h : c.lexStates.idxOf? valid with
  | some id => exact ⟨getElem?_of_idxOf? h, fun _ _ h => h⟩
  | none =>
    refine ⟨Array.getElem?_push_size, fun id l hl => ?_⟩
    exact (ItemSets.getElem?_push_of_lt (Array.getElem?_eq_some_iff.mp hl).1).trans hl

/-! ## All rows -/

/-- One of the states has these actions for a token. -/
def Stated (b : Basis) (states : List (Kernel × List (Symbol × StateId)))
    (acts : List ParseAction) : Prop :=
  ∃ (i : Nat) (k : Kernel) (ts : List (Symbol × StateId)) (x : Symbol),
    states[i]? = some (k, ts) ∧ acts = (actionsFor b i ts (Offers.ofKernel b k) x).1

/-- The lists that the rows of some states number. -/
structure Listed (b : Basis) (states : List (Kernel × List (Symbol × StateId))) (c : Cells) :
    Prop where
  lists : c.Lists (Stated b states)
  size : c.stateLexStates.size = states.length
  tokens : ∀ (i : Nat) k ts, states[i]? = some (k, ts) → ∃ id, c.stateLexStates[i]? = some id ∧
    c.lexStates[id]? = some (tokensFor b i ts (Offers.ofKernel b k))

variable {states : List (Kernel × List (Symbol × StateId))}

theorem Listed.addState (h : Listed b states c) (k : Kernel) (ts : List (Symbol × StateId)) :
    Listed b (states ++ [(k, ts)]) (c.addState b states.length k ts) := by
  have hold (i : Nat) (hi : i < states.length) : (states ++ [(k, ts)])[i]? = states[i]? :=
    List.getElem?_append_left hi
  have hlists : c.Lists (Stated b (states ++ [(k, ts)])) := by
    refine h.lists.imp ?_
    rintro acts ⟨i, k', ts', x, hi, rfl⟩
    exact ⟨i, k', ts', x, (hold i (List.getElem?_eq_some_iff.mp hi).1).trans hi, rfl⟩
  obtain ⟨hvalid, hlex, hids, hlists'⟩ := foldl_addTerminal_valid (Offers.ofKernel b k).terminals
    (c, Array.replicate b.grammar.symbols.size 0, [])
    (fun x _ => ⟨states.length, k, ts, x, by simp, rfl⟩) hlists
  unfold Cells.addState
  simp only
  generalize hacc : (Offers.ofKernel b k).terminals.foldl
    (addTerminal b states.length ts (Offers.ofKernel b k))
    (c, Array.replicate b.grammar.symbols.size 0, []) = acc at hvalid hlex hids hlists'
  obtain ⟨c', row, valid⟩ := acc
  simp only at hvalid hlex hids hlists'
  have htokens : valid.reverse = tokensFor b states.length ts (Offers.ofKernel b k) := by
    simp [hvalid, tokensFor]
  obtain ⟨hread, hkept⟩ := lexStateId_reads c' valid.reverse
  have hrest := lexStateId_spec c' valid.reverse
  refine ⟨⟨?_, ?_⟩, ?_, fun i k' ts' hi => ?_⟩
  · rw [lexStateId_actionLists]
    exact hlists'.nodup
  · rw [lexStateId_actionLists]
    exact hlists'.origin
  · rw [Array.size_push, hrest.stateLexStates, hids, h.size, List.length_append, List.length_singleton]
  · simp only [hrest.stateLexStates, hids]
    rcases Nat.lt_or_ge i states.length with hlt | hge
    · obtain ⟨id, hid, hl⟩ := h.tokens i k' ts' ((hold i hlt).symm.trans hi)
      exact ⟨id, by rw [ItemSets.getElem?_push_of_lt (by rw [h.size]; exact hlt), hid],
        hkept id _ (by rw [hlex, hl])⟩
    · obtain rfl : i = states.length := by
        have := (List.getElem?_eq_some_iff.mp hi).1
        rw [List.length_append, List.length_singleton] at this
        omega
      obtain ⟨rfl, rfl⟩ := Prod.mk.inj (Option.some.inj (by simpa using hi))
      exact ⟨_, by rw [← h.size, Array.getElem?_push_size], by rw [hread, htokens]⟩

/-- The lists of all rows. -/
theorem ofItemSets_listed (b : Basis) (s : ItemSets) :
    Listed b (s.kernels.zip s.transitions).toList (ofItemSets b s) := by
  have key (todo done : List (Kernel × List (Symbol × StateId))) (c : Cells)
      (h : Listed b done c) : Listed b (done ++ todo)
        ((todo.zipIdx done.length).foldl (fun c e => c.addState b e.2 e.1.1 e.1.2) c) := by
    induction todo generalizing c done with
    | nil => simpa using h
    | cons e todo ih => simpa using ih (done ++ [e]) _ (h.addState e.1 e.2)
  exact key _ [] initial ⟨⟨by simp [initial], by simp [initial]⟩, rfl, by simp⟩

end Cells

end Glr.Automaton
