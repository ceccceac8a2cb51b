import Glr.Proofs.Automaton.Finite
import Glr.Proofs.Automaton.Offers

/-!
# Glr.Proofs.Automaton.Cells

How to read the table that the states become.  The row of a state holds, for each
token, the number of the list of its actions, and for each nonterminal one more
than the state after it; lists keep their numbers while more states are added.
-/

namespace Glr.Automaton

namespace Cells

variable {b : Basis} {c c' c'' : Cells} {row : Array Nat} {state : StateId} {k : Kernel}
  {ts : List (Symbol × StateId)} {o : Offers}

/-- The list of actions of a number. -/
def read (c : Cells) (id : Nat) : List ParseAction := c.actionLists[id]?.getD []

/-- More lists, but no other rows. -/
structure Extends (c c' : Cells) : Prop where
  lists : ∀ (id : Nat) l, c.actionLists[id]? = some l → c'.actionLists[id]? = some l
  entries : c'.entries = c.entries
  stateLexStates : c'.stateLexStates = c.stateLexStates

theorem Extends.refl (c : Cells) : c.Extends c := ⟨fun _ _ h => h, rfl, rfl⟩

theorem Extends.trans (h : c.Extends c') (h' : c'.Extends c'') : c.Extends c'' :=
  ⟨fun id l hl => h'.lists id l (h.lists id l hl), h'.entries.trans h.entries,
    h'.stateLexStates.trans h.stateLexStates⟩

/-- What is found in an array stands at the place where it is found. -/
theorem getElem?_of_idxOf? {α : Type} [BEq α] [LawfulBEq α] {xs : Array α} {x : α} {i : Nat}
    (h : xs.idxOf? x = some i) : xs[i]? = some x := by
  obtain ⟨j, hj, rfl⟩ := Option.map_eq_some_iff.mp h
  rw [Array.getElem?_eq_getElem j.isLt]
  exact congrArg some (Array.finIdxOf?_eq_some_iff.mp hj).1

theorem actionListId_spec (c : Cells) (actions : List ParseAction) :
    c.Extends (c.actionListId actions).2
      ∧ (c.actionListId actions).2.actionLists[(c.actionListId actions).1]? = some actions := by
  unfold actionListId
  cases h : c.actionLists.idxOf? actions with
  | some id => exact ⟨.refl c, getElem?_of_idxOf? h⟩
  | none =>
    refine ⟨⟨fun id l hl => ?_, rfl, rfl⟩, Array.getElem?_push_size⟩
    exact (ItemSets.getElem?_push_of_lt (Array.getElem?_eq_some_iff.mp hl).1).trans hl

theorem lexStateId_spec (c : Cells) (valid : List Symbol) : c.Extends (c.lexStateId valid).2 := by
  unfold lexStateId
  split <;> exact ⟨fun _ _ h => h, rfl, rfl⟩

/-! ## Rows -/

/-- The row of a state while its tokens are filled in: those in `done` have their
actions, the others none. -/
structure Filling (width : Nat) (actions : Symbol → List ParseAction) (done : List Symbol)
    (c : Cells) (row : Array Nat) : Prop where
  size : row.size = width
  empty : c.actionLists[0]? = some []
  filled : ∀ s ∈ done, s < width → c.actionLists[row[s]?.getD 0]? = some (actions s)
  rest : ∀ s, s ∉ done → row[s]?.getD 0 = 0

theorem addTerminal_spec {width : Nat} {done : List Symbol} (valid : List Symbol) (t : Symbol)
    (h : Filling width (fun s => (actionsFor b state ts o s).1) done c row) :
    Filling width (fun s => (actionsFor b state ts o s).1) (t :: done)
        (addTerminal b state ts o (c, row, valid) t).1
        (addTerminal b state ts o (c, row, valid) t).2.1
      ∧ c.Extends (addTerminal b state ts o (c, row, valid) t).1 := by
  unfold addTerminal
  simp only
  generalize hlog : ({ c with log := (actionsFor b state ts o t).2.reverse ++ c.log } : Cells) = c₁
  have h₁ : c.Extends c₁ := by
    subst hlog
    exact ⟨fun _ _ h => h, rfl, rfl⟩
  split
  · rename_i he
    rw [List.isEmpty_iff] at he
    refine ⟨⟨h.size, h₁.lists _ _ h.empty, ?_, fun s hs => h.rest s (by simp_all)⟩, h₁⟩
    intro s hs hlt
    by_cases hd : s ∈ done
    · exact h₁.lists _ _ (h.filled s hd hlt)
    · obtain rfl := (List.mem_cons.mp hs).resolve_right hd
      simp only [h.rest s hd, he]
      exact h₁.lists _ _ h.empty
  · obtain ⟨h₂, hid⟩ := actionListId_spec c₁ (actionsFor b state ts o t).1
    have hext := h₁.trans h₂
    refine ⟨⟨by simpa using h.size, hext.lists _ _ h.empty, ?_, ?_⟩, hext⟩
    · intro s hs hlt
      simp only [Array.getElem?_setIfInBounds]
      split
      · rename_i he
        subst he
        rw [if_pos (by rw [h.size]; exact hlt)]
        exact hid
      · rename_i hne
        have hd := (List.mem_cons.mp hs).resolve_left (Ne.symm hne)
        exact hext.lists _ _ (h.filled s hd hlt)
    · intro s hs
      obtain ⟨hne, hd⟩ := not_or.mp (mt List.mem_cons.mpr hs)
      simp only [Array.getElem?_setIfInBounds, if_neg (Ne.symm hne)]
      exact h.rest s hd

theorem foldl_addTerminal {width : Nat} (terminals valid : List Symbol) {done : List Symbol}
    (h : Filling width (fun s => (actionsFor b state ts o s).1) done c row) :
    ∃ c' row' valid', terminals.foldl (addTerminal b state ts o) (c, row, valid)
        = (c', row', valid')
      ∧ Filling width (fun s => (actionsFor b state ts o s).1) (terminals.reverse ++ done) c' row'
      ∧ c.Extends c' := by
  induction terminals generalizing c row valid done with
  | nil => exact ⟨c, row, valid, rfl, h, .refl c⟩
  | cons t rest ih =>
    obtain ⟨h₁, he⟩ := addTerminal_spec valid t h
    generalize hstep : addTerminal b state ts o (c, row, valid) t = acc at h₁ he
    obtain ⟨c₁, row₁, valid₁⟩ := acc
    obtain ⟨c', row', valid', hfold, h', he'⟩ := ih valid₁ h₁
    refine ⟨c', row', valid', ?_, ?_, he.trans he'⟩
    · rw [List.foldl_cons, hstep, hfold]
    · simpa using h'

/-- Writing the transitions leaves the tokens as they are. -/
theorem foldl_transitions (b : Basis) (ts : List (Symbol × StateId)) (row : Array Nat) :
    let row' := ts.foldl
      (fun row t => if b.isTerminal t.1 then row else row.setIfInBounds t.1 (t.2 + 1)) row
    row'.size = row.size
      ∧ (∀ s, b.isTerminal s = true → row'[s]? = row[s]?)
      ∧ ∀ s < row.size, b.isTerminal s = false →
        (∃ t, (s, t) ∈ ts ∧ row'[s]? = some (t + 1)) ∨
          (∀ t, (s, t) ∉ ts) ∧ row'[s]? = row[s]? := by
  intro row'
  subst row'
  induction ts generalizing row with
  | nil => exact ⟨rfl, fun _ _ => rfl, fun s _ _ => .inr ⟨by simp, rfl⟩⟩
  | cons t rest ih =>
    rw [List.foldl_cons]
    cases ht : b.isTerminal t.1 with
    | true =>
      simp only [if_true]
      obtain ⟨hsize, hterm, hnon⟩ := ih row
      refine ⟨hsize, hterm, fun s hs hn => ?_⟩
      rcases hnon s hs hn with ⟨x, hx, hr⟩ | ⟨hx, hr⟩
      · exact .inl ⟨x, by simp [hx], hr⟩
      · refine .inr ⟨fun x hm => ?_, hr⟩
        rcases List.mem_cons.mp hm with he | hm
        · rw [← he] at ht
          rw [ht] at hn
          contradiction
        · exact hx x hm
    | false =>
      simp only [Bool.false_eq_true, if_false]
      obtain ⟨hsize, hterm, hnon⟩ := ih (row.setIfInBounds t.1 (t.2 + 1))
      rw [Array.size_setIfInBounds] at hsize hnon
      refine ⟨hsize, fun s hs => ?_, fun s hs hn => ?_⟩
      · rw [hterm s hs, Array.getElem?_setIfInBounds, if_neg]
        rintro rfl
        rw [ht] at hs
        contradiction
      · rcases hnon s hs hn with ⟨x, hx, hr⟩ | ⟨hx, hr⟩
        · exact .inl ⟨x, by simp [hx], hr⟩
        · rw [Array.getElem?_setIfInBounds] at hr
          split at hr
          · rename_i he
            subst he
            rw [if_pos hs] at hr
            exact .inl ⟨t.2, by simp, hr⟩
          · rename_i hne
            refine .inr ⟨fun x hm => ?_, hr⟩
            rcases List.mem_cons.mp hm with he | hm
            · exact hne (by rw [← he])
            · exact hx x hm

/-- How the row of a state reads. -/
structure Row (b : Basis) (c : Cells) (state : StateId) (k : Kernel)
    (ts : List (Symbol × StateId)) (row : Array Nat) : Prop where
  size : row.size = b.grammar.symbols.size
  actions : ∀ s < row.size, b.isTerminal s = true →
    c.actionLists[row[s]?.getD 0]? = some (if s ∈ (Offers.ofKernel b k).terminals then
      (actionsFor b state ts (Offers.ofKernel b k) s).1 else [])
  gotos : ∀ s < row.size, b.isTerminal s = false →
    (∃ t, (s, t) ∈ ts ∧ row[s]? = some (t + 1)) ∨ (∀ t, (s, t) ∉ ts) ∧ row[s]?.getD 0 = 0

theorem Row.extends (h : Row b c state k ts row) (he : c.Extends c') : Row b c' state k ts row :=
  ⟨h.size, fun s hs ht => he.lists _ _ (h.actions s hs ht), h.gotos⟩

theorem addState_spec (state : StateId) (ts : List (Symbol × StateId)) (hb : b.Sound) (hk : k.Sound b) (hc : c.actionLists[0]? = some []) :
    ∃ row, Row b (c.addState b state k ts) state k ts row
      ∧ (c.addState b state k ts).entries = c.entries ++ row
      ∧ (c.addState b state k ts).stateLexStates.size = c.stateLexStates.size + 1
      ∧ ∀ (id : Nat) l, c.actionLists[id]? = some l →
        (c.addState b state k ts).actionLists[id]? = some l := by
  have h₀ : Filling b.grammar.symbols.size
      (fun s => (actionsFor b state ts (Offers.ofKernel b k) s).1) [] c
      (Array.replicate b.grammar.symbols.size 0) := by
    refine ⟨by simp, hc, by simp, fun s _ => ?_⟩
    rw [Array.getElem?_replicate]
    split <;> rfl
  obtain ⟨c₁, row₁, valid₁, hfold, h₁, he₁⟩ :=
    foldl_addTerminal (Offers.ofKernel b k).terminals [] h₀
  obtain ⟨hsize, hterm, hnon⟩ := foldl_transitions b ts row₁
  have he₂ := lexStateId_spec c₁ valid₁.reverse
  unfold addState
  simp only [hfold]
  refine ⟨ts.foldl (fun row t => if b.isTerminal t.1 then row
    else row.setIfInBounds t.1 (t.2 + 1)) row₁, ⟨?_, ?_, ?_⟩, ?_, ?_, ?_⟩
  · rw [hsize, h₁.size]
  · intro s hs ht
    rw [hterm s ht]
    refine he₂.lists _ _ ?_
    split
    · rename_i hm
      exact h₁.filled s (by simpa using hm) (by rw [← h₁.size, ← hsize]; exact hs)
    · rename_i hm
      rw [h₁.rest s (by simpa using hm)]
      exact h₁.empty
  · intro s hs ht
    rw [hsize] at hs
    rcases hnon s hs ht with h | ⟨h, hr⟩
    · exact .inl h
    · refine .inr ⟨h, ?_⟩
      rw [hr]
      refine h₁.rest s fun hm => ?_
      have := Offers.isTerminal_of_mem_terminals hb
        (fun i hi => Basis.tokens_closure hb hk.tokens hi) (Offers.ofKernel_from b k)
        (t := s) (by simpa using hm)
      rw [this] at ht
      contradiction
  · simp only [he₂.entries, he₁.entries]
  · simp only [Array.size_push, he₂.stateLexStates, he₁.stateLexStates]
  · intro id l hl
    exact he₂.lists id l (he₁.lists id l hl)

/-! ## All rows -/

/-- The rows of some states, one after another. -/
structure Rows (b : Basis) (states : List (Kernel × List (Symbol × StateId))) (c : Cells) :
    Prop where
  size : c.entries.size = states.length * b.grammar.symbols.size
  empty : c.actionLists[0]? = some []
  rows : ∀ (i : Nat) k ts, states[i]? = some (k, ts) → ∃ row, Row b c i k ts row ∧
    ∀ s < row.size, c.entries[i * b.grammar.symbols.size + s]? = row[s]?

theorem foldl_addState (hb : b.Sound) (todo : List (Kernel × List (Symbol × StateId)))
    {done : List (Kernel × List (Symbol × StateId))} (hk : ∀ e ∈ todo, e.1.Sound b)
    (h : Rows b done c) :
    Rows b (done ++ todo)
      ((todo.zipIdx done.length).foldl (fun c e => c.addState b e.2 e.1.1 e.1.2) c) := by
  induction todo generalizing c done with
  | nil => simpa using h
  | cons e todo ih =>
    obtain ⟨k, ts⟩ := e
    obtain ⟨row, hrow, hentries, -, hlists⟩ :=
      addState_spec done.length ts hb (hk (k, ts) (by simp)) h.empty
    have hm := hrow.size
    have h' : Rows b (done ++ [(k, ts)]) (c.addState b done.length k ts) := by
      refine ⟨?_, hlists _ _ h.empty, ?_⟩
      · rw [hentries, Array.size_append, h.size, hm, List.length_append, List.length_singleton,
          Nat.succ_mul]
      · intro i k' ts' hi
        rw [hentries]
        rcases Nat.lt_or_ge i done.length with hlt | hge
        · rw [List.getElem?_append_left hlt] at hi
          obtain ⟨row', hrow', hget⟩ := h.rows i k' ts' hi
          refine ⟨row', ⟨hrow'.size, fun s hs ht => hlists _ _ (hrow'.actions s hs ht),
            hrow'.gotos⟩, fun s hs => ?_⟩
          have hmul := Nat.mul_le_mul_right b.grammar.symbols.size hlt
          rw [Nat.succ_mul] at hmul
          rw [Array.getElem?_append_left (by rw [h.size]; have := hrow'.size; omega)]
          exact hget s hs
        · rw [List.getElem?_append_right hge, List.getElem?_singleton] at hi
          split at hi
          · obtain ⟨rfl, rfl⟩ := Prod.mk.inj (Option.some.inj hi)
            obtain rfl : i = done.length := by omega
            refine ⟨row, hrow, fun s hs => ?_⟩
            rw [Array.getElem?_append_right (by rw [h.size]; omega), h.size, Nat.add_sub_cancel_left]
          · contradiction
    have := ih (fun e he => hk e (by simp [he])) h'
    simpa using this

/-- The rows of all states. -/
theorem ofItemSets_rows (hb : b.Sound) {s : ItemSets} (h : ItemSets.Inv b s) :
    Rows b (s.kernels.zip s.transitions).toList (ofItemSets b s) := by
  have h₀ : Rows b [] initial := ⟨by simp [initial], rfl, by simp⟩
  refine foldl_addState hb _ (fun e he => ?_) h₀
  obtain ⟨i, hi⟩ := List.getElem?_of_mem he
  rw [Array.getElem?_toList, Array.getElem?_zip_eq_some] at hi
  exact h.kernels i e.1 hi.1

end Cells

end Glr.Automaton
