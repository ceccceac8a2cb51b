import Glr.Automaton.Closure
import Glr.Log
import Glr.Sorted
import Glr.Text.Quoted

/-!
# Glr.Automaton.Resolve

Conflicts between the actions for one token in one state.  Of several
reductions those of the highest precedence stay.  Against a shift, a reduction
of higher precedence wins, one of lower precedence loses, and between equals
left associativity reduces, right associativity shifts, and without either all
actions stay.
-/

namespace Glr.Automaton

/-- A shift that takes part in a conflict. -/
structure ShiftChoice where
  target : StateId
  precedence : Int
  /-- The left-hand sides of the productions that shift. -/
  lhs : List Symbol
  deriving Repr

/-- How a reduction fares against a shift. -/
inductive Verdict where
  /-- The reduction stays and the shift goes. -/
  | reduce
  /-- The shift stays and the reduction goes. -/
  | shift
  /-- Both stay. -/
  | both
  deriving DecidableEq, Repr

/-- Decides between a reduction and a shift. -/
def verdict (p : Production) (shiftPrecedence : Int) : Verdict :=
  if p.precedence > shiftPrecedence then .reduce
  else if p.precedence < shiftPrecedence then .shift
  else
    match p.associativity with
    | some .left => .reduce
    | some .right => .shift
    | none => .both

/-- The reductions of the highest precedence. -/
def strongest (rs : List (Nat × Production)) : List (Nat × Production) :=
  match (rs.map fun r => r.2.precedence).max? with
  | none => []
  | some best => rs.filter fun r => r.2.precedence == best

theorem mem_strongest {rs : List (Nat × Production)} {r : Nat × Production} :
    r ∈ strongest rs ↔ r ∈ rs ∧ ∀ s ∈ rs, s.2.precedence ≤ r.2.precedence := by
  unfold strongest
  split
  · rename_i h
    have : rs = [] := by simpa using h
    simp [this]
  · rename_i best h
    obtain ⟨hmem, hle⟩ := List.max?_eq_some_iff.mp h
    obtain ⟨b, hb, rfl⟩ := List.mem_map.mp hmem
    have hle : ∀ s ∈ rs, s.2.precedence ≤ b.2.precedence := fun s hs =>
      hle _ (List.mem_map_of_mem hs)
    simp only [List.mem_filter, beq_iff_eq, and_congr_right_iff]
    intro hr
    constructor
    · intro he s hs
      rw [he]
      exact hle s hs
    · intro hall
      exact Int.le_antisymm (hle r hr) (hall b hb)

theorem strongest_ne_nil {rs : List (Nat × Production)} (h : rs ≠ []) : strongest rs ≠ [] := by
  unfold strongest
  split
  · rename_i hm
    exact absurd (by simpa using hm) h
  · rename_i best hm
    obtain ⟨b, hb, he⟩ := List.mem_map.mp (List.max?_eq_some_iff.mp hm).1
    exact List.ne_nil_of_mem (List.mem_filter.mpr ⟨hb, by simp [he]⟩)

/-- The actions that stay: whether the shift does, and which reductions do. -/
def settle (shift : Option ShiftChoice) (rs : List (Nat × Production)) :
    Bool × List (Nat × Production) :=
  let best := strongest rs
  match shift with
  | none => (false, best)
  | some s =>
    (best.all fun r => verdict r.2 s.precedence != .reduce,
      best.filter fun r => verdict r.2 s.precedence != .shift)

/-- Among candidates for one token something stays. -/
theorem settle_ne_none {shift : Option ShiftChoice} {rs : List (Nat × Production)}
    (h : shift.isSome ∨ rs ≠ []) : (settle shift rs).1 = true ∨ (settle shift rs).2 ≠ [] := by
  cases shift with
  | none =>
    rcases h with h | h
    · simp at h
    · exact .inr (strongest_ne_nil h)
  | some s =>
    simp only [settle]
    cases hall : (strongest rs).all fun r => verdict r.2 s.precedence != .reduce
    · obtain ⟨r, hr, hv⟩ := List.all_eq_false.mp hall
      have hv : verdict r.2 s.precedence = .reduce := by simpa using hv
      exact .inr (List.ne_nil_of_mem (List.mem_filter.mpr ⟨hr, by simp [hv]⟩))
    · exact .inl rfl

namespace Basis

variable (b : Basis)

/-- The rules that take part in a conflict, in increasing order. -/
def involved (shift : Option ShiftChoice) (keepShift : Bool) (kept : List (Nat × Production)) :
    List Symbol :=
  let fromShift := if keepShift then (shift.map ShiftChoice.lhs).getD [] else []
  (SortedList.sort (· ≤ ·)
    (((kept.map fun r => r.2.lhs) ++ fromShift).map b.grammar.owner)).eraseReps

/-- The report on a conflict that is left. -/
def conflictEvent (state : StateId) (terminal : Symbol) (rules : List Symbol) : Log.Event :=
  let expected := b.grammar.expectedConflicts.any fun group => rules.all group.contains
  let fields := [("state", Json.nat state), ("token", .string (b.grammar.name terminal)),
    ("names", .string (Text.quoteList (rules.map b.grammar.name)))]
  if expected then ⟨.debug, "expected conflict", fields⟩
  else ⟨.warn, "unresolved conflict; keeping all actions", fields⟩

/-- Resolves the conflict between a shift and some productions: whether the
shift stays, which productions do, and a report if several actions are left. -/
def resolve (state : StateId) (terminal : Symbol) (shift : Option ShiftChoice)
    (reduces : List Nat) : Bool × List Nat × List Log.Event :=
  let candidates := reduces.filterMap fun p => (b.production? p).map fun q => (p, q)
  let (keepShift, kept) := settle shift candidates
  let events :=
    if kept.length + (if keepShift then 1 else 0) > 1 then
      [b.conflictEvent state terminal (b.involved shift keepShift kept)]
    else []
  (keepShift, kept.map Prod.fst, events)

end Basis

end Glr.Automaton
