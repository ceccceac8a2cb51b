import Glr.Proofs.Tree.Edit
import Glr.Proofs.Tree.Everywhere
import Mathlib.Tactic.ByContra

/-!
# Glr.Proofs.Tree.Spelled

Which text a tree spells, and what edits make of it.  The children of a node spell the parts
of its text one after another, and an edit replaces the middle part:

```
spells (a ++ b ++ c)   ↦   spells (a ++ r ++ c)
```

Text is measured by a relation between lengths and words, so one set of lemmas serves the
bytes of trees that were edited in any way and the rows and columns of trees that follow a
text.  New text is lost below a node all of whose children looked at nothing, and only there.
-/

namespace Glr

/-! ## Measures -/

/-- A relation between lengths and words under which lengths add and subtract as words are
appended and taken away. -/
structure Measure {α : Type} (Is : Length → List α → Prop) : Prop where
  bytes : ∀ {n : Length} {w : List α}, Is n w → n.bytes = w.length
  zero : Is Length.zero []
  add : ∀ {m n : Length} {u v : List α}, Is m u → Is n v → Is (m + n) (u ++ v)
  sub : ∀ {m n : Length} {u v : List α}, Is m (u ++ v) → Is n u → Is (m - n) v

/-- The bytes of a length are as many as a word has letters. -/
def Length.Counts (n : Length) (w : List Unit) : Prop := n.bytes = w.length

/-- A length is that of a text. -/
def Length.Measures (n : Length) (w : List UInt8) : Prop := n = .of w.toArray

theorem measure_counts : Measure Length.Counts where
  bytes h := h
  zero := rfl
  add h h' := by
    rw [Length.Counts, Length.bytes_add, h, h', List.length_append]
  sub h h' := by
    rw [Length.Counts, Length.bytes_sub, h, h', List.length_append, Nat.add_sub_cancel_left]

theorem measure_measures : Measure Length.Measures where
  bytes h := by
    rw [h]
    exact List.size_toArray
  zero := rfl
  add h h' := by
    rw [Length.Measures, h, h', ← Length.of_append, List.append_toArray]
  sub h h' := by
    rw [Length.Measures, h, h', ← List.append_toArray, Length.of_append, Length.add_sub_cancel_left]

variable {α : Type} {Is : Length → List α → Prop} {u v a b c p q r : List α}

/-! ## Parts of words -/

/-- Two ways to split a word have a part in common. -/
theorem exists_common_parts (h : u ++ v = a ++ b) : ∃ ua ub va vb, u = ua ++ ub ∧ v = va ++ vb ∧
    a = ua ++ va ∧ b = ub ++ vb ∧ (va ≠ [] → ub = []) := by
  rcases List.append_eq_append_iff.mp h with ⟨w, rfl, rfl⟩ | ⟨w, rfl, rfl⟩
  · exact ⟨u, [], w, b, by simp, rfl, rfl, rfl, fun _ => rfl⟩
  · exact ⟨a, w, [], v, rfl, rfl, by simp, rfl, by simp⟩

/-- What is left of a word up to a place, after some of the word; nothing, if the place lies
before. -/
def Ahead (Is : Length → List α → Prop) (place : Length) (p q : List α) : Prop :=
  Is place (p ++ q) ∨ q = [] ∧ place.bytes ≤ p.length

/-- A place that is moved into the next part of a word leaves the first part of what was
left, and what is left after that. -/
theorem Ahead.clamp (hm : Measure Is) {place start size : Length} {uq ux vq : List α}
    (h : Ahead Is place p (uq ++ vq)) (hp : Is start p) (hu : Is size (uq ++ ux))
    (hx : vq ≠ [] → ux = []) :
    Is (place.clamp start (start + size) - start) uq ∧ Ahead Is place (p ++ (uq ++ ux)) vq := by
  have hstart := hm.bytes hp
  have hsize := hm.bytes hu
  have hzero : Is (start - start) [] := hm.sub (by simpa using hp) hp
  rcases h with h | ⟨hnil, hle⟩
  · have hplace := hm.bytes h
    simp only [List.length_append] at hplace hsize
    constructor
    · unfold Length.clamp
      split
      · obtain rfl : uq = [] := List.eq_nil_of_length_eq_zero (by omega)
        exact hzero
      · split
        · rename_i hend
          rw [Length.bytes_add] at hend
          obtain rfl : ux = [] := by
            by_cases hv : vq = []
            · refine List.eq_nil_of_length_eq_zero ?_
              rw [hv, List.length_nil] at hplace
              omega
            · exact hx hv
          rw [List.append_nil] at hu
          exact hm.sub (hm.add hp hu) hp
        · rename_i hend
          rw [Length.bytes_add] at hend
          obtain rfl : vq = [] := by
            by_contra hv
            rw [hx hv, List.length_nil] at hsize
            omega
          rw [List.append_nil] at h
          exact hm.sub h hp
    · by_cases hv : vq = []
      · refine .inr ⟨hv, ?_⟩
        rw [hv, List.length_nil] at hplace
        simp only [List.length_append]
        omega
      · refine .inl ?_
        rw [hx hv, List.append_nil, List.append_assoc]
        exact h
  · obtain ⟨rfl, rfl⟩ := List.append_eq_nil_iff.mp hnil
    constructor
    · unfold Length.clamp
      rw [if_pos (by omega)]
      exact hzero
    · refine .inr ⟨rfl, ?_⟩
      simp only [List.length_append]
      omega

namespace Subtree

/-! ## Trees that spell words -/

/-- Nodes that looked at nothing. -/
def AllBlind (cs : List (Child Subtree)) : Prop := ∀ c ∈ cs, c.node.info.lookahead = 0

mutual
/-- The node has the length of a word, and its children spell the word; where they looked at
nothing they may have missed it. -/
def Spells (Is : Length → List α → Prop) (w : List α) : Subtree → Prop
  | .mk info cs => Is info.size w ∧ (SpellsAll Is w cs ∨ AllBlind cs ∧ SpellsAll Is [] cs)
/-- Some children spell the parts of a word, and those that looked at nothing spell nothing. -/
def SpellsAll (Is : Length → List α → Prop) (w : List α) : List (Child Subtree) → Prop
  | [] => w = []
  | ⟨_, t⟩ :: rest => ∃ u v, w = u ++ v ∧ (t.info.lookahead = 0 → u = []) ∧ Spells Is u t ∧
      SpellsAll Is v rest
end

variable {w : List α} {t : Subtree} {cs : List (Child Subtree)} {s : Share} {childStart : Length}

theorem Spells.size (h : Spells Is w t) : Is t.size w := by
  obtain ⟨info, cs⟩ := t
  rw [Spells] at h
  exact h.1

/-- Children that spell something looked at something. -/
theorem SpellsAll.exists_lookahead (h : SpellsAll Is w cs) (hw : w ≠ []) :
    ∃ c ∈ cs, c.node.info.lookahead ≠ 0 := by
  induction cs generalizing w with
  | nil =>
    rw [SpellsAll] at h
    contradiction
  | cons c rest ih =>
    rw [SpellsAll] at h
    obtain ⟨u, v, rfl, hu, -, hrest⟩ := h
    by_cases hc : c.node.info.lookahead = 0
    · obtain ⟨d, hd, hne⟩ := ih hrest (by simpa [hu hc] using hw)
      exact ⟨d, List.mem_cons_of_mem _ hd, hne⟩
    · exact ⟨c, by simp, hc⟩

theorem SpellsAll.eq_nil (h : SpellsAll Is w cs) (hcs : AllBlind cs) : w = [] := by
  by_contra hw
  obtain ⟨c, hc, hne⟩ := h.exists_lookahead hw
  exact hne (hcs c hc)

/-- A node all of whose children looked at nothing has children without text. -/
theorem Spells.blind {info : NodeInfo} (h : Spells Is w (.mk info cs)) (hcs : AllBlind cs) :
    SpellsAll Is [] cs := by
  rw [Spells] at h
  rcases h.2 with hall | ⟨-, hall⟩
  · rwa [hall.eq_nil hcs] at hall
  · exact hall

/-! ## Edits -/

theorem lookahead_edit (start oldEnd newEnd : Length) (t : Subtree) :
    (edit start oldEnd newEnd t).info.lookahead = t.info.lookahead := by
  obtain ⟨info, cs⟩ := t
  rw [edit]
  rfl

/-- Children that looked at nothing are not touched by an edit that starts no earlier. -/
theorem editAll_blind (hm : Measure Is) (h : SpellsAll Is [] cs) (hcs : AllBlind cs)
    (hs : childStart.bytes ≤ s.start.bytes) : editAll s childStart cs = cs := by
  induction cs generalizing childStart with
  | nil => rfl
  | cons c rest ih =>
    obtain ⟨field, t⟩ := c
    rw [SpellsAll] at h
    obtain ⟨u, v, hw, -, ht, hrest⟩ := h
    obtain ⟨rfl, rfl⟩ := List.append_eq_nil_iff.mp hw.symm
    have hend : (childStart + t.size).bytes = childStart.bytes := by
      rw [Length.bytes_add, hm.bytes ht.size, List.length_nil, Nat.add_zero]
    have hblind : t.info.lookahead = 0 := hcs ⟨field, t⟩ (by simp)
    rw [editAll]
    simp only
    rw [if_neg, ih hrest (fun d hd => hcs d (by simp [hd])) (by omega)]
    simp only [Share.touches, Bool.and_eq_true, decide_eq_true_eq, gt_iff_lt]
    omega

/-- How an edit of some children is cut between the first one and the others: the first one
spells `ua ++ ub ++ uc` and the others spell `va ++ vb ++ vc`, of which the edit replaces `ub` and
`vb`. -/
structure Cut (Is : Length → List α → Prop) (s : Share) (childStart : Length) (t : Subtree)
    (rest : List (Child Subtree)) (p ua ub uc va vb vc : List α) : Prop where
  place : Is childStart p
  start : Is s.start (p ++ (ua ++ va))
  oldEnd : Is s.oldEnd (p ++ (ua ++ va) ++ (ub ++ vb))
  child : Spells Is (ua ++ ub ++ uc) t
  blind : t.info.lookahead = 0 → ua ++ ub ++ uc = []
  rest : SpellsAll Is (va ++ vb ++ vc) rest
  /-- Where the edit starts behind the child, the child is before the edit as a whole. -/
  before : va ≠ [] → ub ++ uc = []
  after : va ++ vb ≠ [] → uc = []

theorem SpellsAll.exists_cut {field : Option FieldId} {rest : List (Child Subtree)}
    (h : SpellsAll Is (a ++ b ++ c) (⟨field, t⟩ :: rest)) (hp : Is childStart p)
    (hstart : Is s.start (p ++ a)) (hold : Is s.oldEnd (p ++ a ++ b)) :
    ∃ ua ub uc va vb vc, a = ua ++ va ∧ b = ub ++ vb ∧ c = uc ++ vc ∧
      Cut Is s childStart t rest p ua ub uc va vb vc := by
  rw [SpellsAll] at h
  obtain ⟨u, v, hw, hblind, ht, hrest⟩ := h
  rw [List.append_assoc] at hw
  obtain ⟨ua, ux, va, vx, rfl, rfl, rfl, hx, hcuta⟩ := exists_common_parts hw.symm
  obtain ⟨ub, uc, vb, vc, rfl, rfl, rfl, rfl, hcutb⟩ := exists_common_parts hx.symm
  rw [← List.append_assoc] at hblind ht
  rw [← List.append_assoc] at hrest
  refine ⟨ua, ub, uc, va, vb, vc, rfl, rfl, rfl, hp, hstart, hold, ht, hblind, hrest, hcuta,
    fun hne => ?_⟩
  by_cases hva : va = []
  · exact hcutb (by simpa [hva] using hne)
  · exact (List.append_eq_nil_iff.mp (hcuta hva)).2

section

variable {rest rest' : List (Child Subtree)} {field : Option FieldId} {t' : Subtree}
  {ua ub uc va vb vc : List α} (hm : Measure Is)

include hm

theorem Cut.stop (h : Cut Is s childStart t rest p ua ub uc va vb vc) :
    Is (childStart + t.size) (p ++ (ua ++ ub ++ uc)) := hm.add h.place h.child.size

/-- The part of the edit that falls to the child. -/
theorem Cut.share (h : Cut Is s childStart t rest p ua ub uc va vb vc) :
    Is (s.start.clamp childStart (childStart + t.size) - childStart) ua ∧
      Is (s.oldEnd.clamp childStart (childStart + t.size) - childStart) (ua ++ ub) ∧
      Ahead Is s.oldEnd (p ++ (ua ++ ub ++ uc)) (va ++ vb) := by
  have hab : ua ++ va ++ (ub ++ vb) = ua ++ ub ++ (va ++ vb) := by
    by_cases hva : va = []
    · simp [hva]
    · simp [(List.append_eq_nil_iff.mp (h.before hva)).1]
  have hold : Ahead Is s.oldEnd p (ua ++ ub ++ (va ++ vb)) := by
    refine .inl ?_
    rw [← hab, ← List.append_assoc]
    exact h.oldEnd
  obtain ⟨hstart, -⟩ :=
    Ahead.clamp hm (.inl h.start) h.place (by simpa using h.child.size) h.before
  exact ⟨hstart, hold.clamp hm h.place h.child.size h.after⟩

/-- The lengths of the parts add up to the places. -/
theorem Cut.lengths (h : Cut Is s childStart t rest p ua ub uc va vb vc) :
    childStart.bytes = p.length ∧ s.start.bytes = p.length + (ua.length + va.length) ∧
      s.oldEnd.bytes = p.length + (ua.length + va.length) + (ub.length + vb.length) ∧
      (childStart + t.size).bytes = p.length + (ua.length + ub.length + uc.length) := by
  have hplace := hm.bytes h.place
  have hstart := hm.bytes h.start
  have hold := hm.bytes h.oldEnd
  have hstop := hm.bytes (h.stop hm)
  simp only [List.length_append] at hstart hold hstop
  exact ⟨hplace, hstart, hold, hstop⟩

/-- A child that ends before the edit starts has nothing of it. -/
theorem Cut.eq_nil_of_le (h : Cut Is s childStart t rest p ua ub uc va vb vc)
    (hle : (childStart + t.size).bytes ≤ s.start.bytes) : ub ++ uc = [] := by
  obtain ⟨-, hstart, -, hstop⟩ := h.lengths hm
  by_cases hva : va = []
  · rw [hva, List.length_nil] at hstart
    refine List.eq_nil_of_length_eq_zero ?_
    rw [List.length_append]
    omega
  · exact h.before hva

theorem Cut.le_of_not_goesTo (h : Cut Is s childStart t rest p ua ub uc va vb vc)
    (hgoes : ¬s.goesTo (childStart + t.size) = true) :
    (childStart + t.size).bytes ≤ s.start.bytes ∧ ∃ c ∈ rest, c.node.info.lookahead ≠ 0 := by
  obtain ⟨-, hstart, hold, hstop⟩ := h.lengths hm
  simp only [Share.goesTo, Bool.or_eq_true, Bool.and_eq_true, decide_eq_true_eq, beq_iff_eq,
    gt_iff_lt, not_or, Nat.not_lt] at hgoes
  refine ⟨hgoes.1, h.rest.exists_lookahead fun hnil => ?_⟩
  have hux := congrArg List.length (h.eq_nil_of_le hm hgoes.1)
  have hvx := congrArg List.length hnil
  simp only [List.length_append, List.length_nil] at hux hvx
  omega

theorem Cut.le_of_not_touches (h : Cut Is s childStart t rest p ua ub uc va vb vc)
    (htouch : ¬s.touches childStart (childStart + t.size) t = true)
    (hsome : ∃ c ∈ (⟨field, t⟩ :: rest : List (Child Subtree)), c.node.info.lookahead ≠ 0) :
    (childStart + t.size).bytes ≤ s.start.bytes ∧ ∃ c ∈ rest, c.node.info.lookahead ≠ 0 := by
  obtain ⟨hplace, hstart, hold, hstop⟩ := h.lengths hm
  simp only [Share.touches, Bool.and_eq_true, decide_eq_true_eq, gt_iff_lt, not_and,
    Nat.not_lt] at htouch
  have hlook := htouch (by omega)
  refine ⟨by omega, ?_⟩
  obtain ⟨d, hd, hne⟩ := hsome
  rcases List.mem_cons.mp hd with rfl | hd
  · -- the child looked at something and ends before the edit, so others have text
    refine h.rest.exists_lookahead fun hnil => ?_
    have hux := congrArg List.length (h.eq_nil_of_le hm (by omega))
    have hvx := congrArg List.length hnil
    simp only [List.length_append, List.length_nil] at hux hvx hne
    omega
  · exact ⟨d, hd, hne⟩

/-- The new text goes to a child that reaches the edit. -/
theorem Cut.eq_nil_of_goesTo (h : Cut Is s childStart t rest p ua ub uc va vb vc)
    (hgoes : s.goesTo (childStart + t.size) = true) : va = [] := by
  obtain ⟨-, hstart, hold, hstop⟩ := h.lengths hm
  simp only [Share.goesTo, Bool.or_eq_true, Bool.and_eq_true, decide_eq_true_eq, beq_iff_eq,
    gt_iff_lt] at hgoes
  by_contra hva
  have hux := congrArg List.length (h.before hva)
  have hpos := List.length_pos_iff.mpr hva
  simp only [List.length_append, List.length_nil] at hux
  omega

/-- A child that an edit touches looked at something. -/
theorem Cut.lookahead_ne_zero (h : Cut Is s childStart t rest p ua ub uc va vb vc)
    (htouch : s.touches childStart (childStart + t.size) t = true) : t.info.lookahead ≠ 0 := by
  intro hz
  obtain ⟨-, hstart, hold, hstop⟩ := h.lengths hm
  have hlength := congrArg List.length (h.blind hz)
  simp only [Share.touches, Bool.and_eq_true, decide_eq_true_eq, gt_iff_lt] at htouch
  simp only [List.length_append, List.length_nil] at hlength
  omega

omit hm

/-- A child without a part of the edit leaves all of it to the others. -/
theorem Cut.pass (h : Cut Is s childStart t rest p ua ub uc va vb vc) (hux : ub ++ uc = [])
    (hlookahead : t'.info.lookahead = t.info.lookahead) (hchild : Spells Is ua t') {r : List α}
    (hrest : SpellsAll Is (va ++ r ++ vc) rest') :
    SpellsAll Is (ua ++ va ++ r ++ (uc ++ vc)) (⟨field, t'⟩ :: rest') := by
  obtain ⟨rfl, rfl⟩ := List.append_eq_nil_iff.mp hux
  have hblind := h.blind
  rw [SpellsAll]
  exact ⟨ua, va ++ r ++ vc, by simp, fun hz => by simpa using hblind (hlookahead ▸ hz), hchild, hrest⟩

end

mutual
/-- An edit replaces a part of the text of a node. -/
theorem Spells.edit (hm : Measure Is) {start oldEnd newEnd : Length} {a b c r : List α} :
    ∀ {t : Subtree}, Spells Is (a ++ b ++ c) t → Is start a → Is oldEnd (a ++ b) →
      Is newEnd (a ++ r) → Spells Is (a ++ r ++ c) (t.edit start oldEnd newEnd)
  | .mk info cs, h, hstart, hold, hnew => by
    have hsize : Is (sizeAfter info.size oldEnd newEnd) (a ++ r ++ c) := by
      have hsize := h.size
      change Is info.size (a ++ b ++ c) at hsize
      have hbytes := hm.bytes hsize
      rw [List.length_append, ← hm.bytes hold] at hbytes
      unfold sizeAfter
      split
      · exact hm.add hnew (hm.sub hsize hold)
      · obtain rfl : c = [] := List.eq_nil_of_length_eq_zero (by omega)
        rwa [List.append_nil]
    rw [Subtree.edit, Spells]
    refine ⟨hsize, ?_⟩
    by_cases hblind : AllBlind cs
    · have hall := h.blind hblind
      rw [editAll_blind hm hall hblind (Nat.zero_le _)]
      exact .inr ⟨hblind, hall⟩
    · have hall : SpellsAll Is (a ++ b ++ c) cs := by
        rw [Spells] at h
        exact h.2.resolve_right fun h => hblind h.1
      have hsome : ∃ c ∈ cs, c.node.info.lookahead ≠ 0 := by
        simpa [AllBlind] using hblind
      exact .inl (hall.editAll hm (p := []) (s := ⟨start, oldEnd, some (newEnd - start)⟩) hm.zero rfl
        (hm.sub hnew hstart) hstart (by simpa using hold) hsome)

/-- What is left of an edit whose new text is placed takes text away. -/
theorem SpellsAll.erase (hm : Measure Is) {s : Share} {childStart : Length} {p b c : List α} :
    ∀ {cs : List (Child Subtree)}, SpellsAll Is (b ++ c) cs → Is childStart p → s.inserted = none →
      s.start.bytes ≤ p.length → Ahead Is s.oldEnd p b →
      SpellsAll Is c (Subtree.editAll s childStart cs)
  | [], h, _, _, _, _ => by
    rw [SpellsAll] at h
    rw [Subtree.editAll, SpellsAll]
    exact (List.append_eq_nil_iff.mp h).2
  | ⟨field, t⟩ :: rest, h, hp, hnone, hs, hold => by
    rw [SpellsAll] at h
    obtain ⟨u, v, hw, hblind, ht, hrest⟩ := h
    obtain ⟨ub, uc, vb, vc, rfl, rfl, rfl, rfl, hcut⟩ := exists_common_parts hw.symm
    have hend : Is (childStart + t.size) (p ++ (ub ++ uc)) := hm.add hp ht.size
    have hshare : { s with inserted := none } = s := by
      rw [← hnone]
    -- nothing is inserted in the child, and what it has before the end of the edit goes
    have hbehind : Ahead Is s.start p ([] ++ []) := .inr ⟨rfl, hs⟩
    obtain ⟨hstart', -⟩ := hbehind.clamp hm hp ht.size (by simp)
    obtain ⟨hold', hahead⟩ := hold.clamp hm hp ht.size hcut
    have hnew' : Is (s.start.clamp childStart (childStart + t.size) - childStart + Length.zero)
        ([] ++ []) := hm.add hstart' hm.zero
    have hchild := Spells.edit hm (a := []) (r := []) (t := t) ht hstart' hold' hnew'
    have htail := hrest.erase hm (s := s) hend hnone
      (Nat.le_trans hs (by simp)) hahead
    have huc : t.info.lookahead = 0 → uc = [] := fun hz =>
      (List.append_eq_nil_iff.mp (hblind hz)).2
    rw [Subtree.editAll]
    simp only
    split
    · split
      · rw [hshare, hnone, SpellsAll]
        exact ⟨uc, vc, rfl, by rwa [lookahead_edit], hchild, htail⟩
      · rw [SpellsAll]
        exact ⟨uc, vc, rfl, by rwa [lookahead_edit], hchild, htail⟩
    · -- a child that is not touched lies behind the edit, or has nothing
      rename_i htouch
      rw [SpellsAll]
      refine ⟨uc, vc, rfl, huc, ?_, htail⟩
      have hub : ub = [] := by
        simp only [Share.touches, Bool.and_eq_true, decide_eq_true_eq, gt_iff_lt, hm.bytes hp,
          hm.bytes hend, List.length_append, not_and, Nat.not_lt] at htouch
        rcases hold with hold | ⟨hnil, -⟩
        · have hbytes := hm.bytes hold
          simp only [List.length_append] at hbytes
          exact List.eq_nil_of_length_eq_zero (by omega)
        · exact (List.append_eq_nil_iff.mp hnil).1
      rwa [hub, List.nil_append] at ht

/-- The new text goes to some child, if one of them looked at something. -/
theorem SpellsAll.editAll (hm : Measure Is) {s : Share} {childStart new : Length}
    {p a b c r : List α} :
    ∀ {cs : List (Child Subtree)}, SpellsAll Is (a ++ b ++ c) cs → Is childStart p →
      s.inserted = some new → Is new r → Is s.start (p ++ a) → Is s.oldEnd (p ++ a ++ b) →
      (∃ c ∈ cs, c.node.info.lookahead ≠ 0) →
      SpellsAll Is (a ++ r ++ c) (Subtree.editAll s childStart cs)
  | [], _, _, _, _, _, _, hsome => by simp at hsome
  | ⟨field, t⟩ :: rest, h, hp, hins, hnew, hstart, hold, hsome => by
    obtain ⟨ua, ub, uc, va, vb, vc, rfl, rfl, rfl, hcut⟩ := h.exists_cut hp hstart hold
    obtain ⟨hstart', hold', hahead⟩ := hcut.share hm
    have htail (hux : ub ++ uc = []) (hsome' : ∃ c ∈ rest, c.node.info.lookahead ≠ 0) :
        SpellsAll Is (va ++ r ++ vc) (Subtree.editAll s (childStart + t.size) rest) := by
      obtain ⟨rfl, rfl⟩ := List.append_eq_nil_iff.mp hux
      exact hcut.rest.editAll hm (hcut.stop hm) hins hnew (by simpa using hstart)
        (by simpa using hold) hsome'
    rw [Subtree.editAll]
    simp only
    split
    · rename_i htouch
      split
      · rename_i hgoes
        obtain rfl := hcut.eq_nil_of_goesTo hm hgoes
        have hnew' : Is (s.start.clamp childStart (childStart + t.size) - childStart
            + s.inserted.getD Length.zero) (ua ++ r) := by
          rw [hins]
          exact hm.add hstart' hnew
        have hchild := hcut.child.edit hm hstart' hold' hnew'
        have hle : s.start.bytes ≤ (p ++ (ua ++ ub ++ uc)).length := by
          have hlengths := (hcut.lengths hm).2.1
          simp only [List.length_append, List.length_nil] at hlengths ⊢
          omega
        have hlast := hcut.rest.erase hm (s := { s with inserted := none }) (b := vb) (hcut.stop hm)
          rfl hle hahead
        rw [SpellsAll]
        refine ⟨ua ++ r ++ uc, vc, by simp, fun hz => ?_, hchild, hlast⟩
        rw [lookahead_edit] at hz
        exact absurd hz (hcut.lookahead_ne_zero hm htouch)
      · rename_i hgoes
        obtain ⟨hle, hsome'⟩ := hcut.le_of_not_goesTo hm hgoes
        have hux := hcut.eq_nil_of_le hm hle
        have hnew' : Is (s.start.clamp childStart (childStart + t.size) - childStart + Length.zero)
            (ua ++ []) := hm.add hstart' hm.zero
        have hchild := hcut.child.edit hm hstart' hold' hnew'
        rw [List.append_nil, (List.append_eq_nil_iff.mp hux).2, List.append_nil] at hchild
        exact hcut.pass hux (lookahead_edit _ _ _ _) hchild (htail hux hsome')
    · rename_i htouch
      obtain ⟨hle, hsome'⟩ := hcut.le_of_not_touches hm htouch hsome
      have hux := hcut.eq_nil_of_le hm hle
      have hchild := hcut.child
      rw [List.append_assoc, hux, List.append_nil] at hchild
      exact hcut.pass hux rfl hchild (htail hux hsome')
end

/-! ## Children -/

/-- Children that spell a word have its length together. -/
theorem SpellsAll.span (hm : Measure Is) (h : SpellsAll Is w cs) :
    Is (Subtree.span (cs.map Child.node)) w := by
  induction cs generalizing w with
  | nil =>
    rw [SpellsAll] at h
    rw [h]
    exact hm.zero
  | cons c rest ih =>
    rw [SpellsAll] at h
    obtain ⟨u, v, rfl, -, ht, hrest⟩ := h
    exact hm.add ht.size (ih hrest)

/-- A child spells a part of the word, behind what the children before it spell. -/
theorem SpellsAll.getElem? (hm : Measure Is) (h : SpellsAll Is w cs) {k : Nat} {c : Child Subtree}
    (hc : cs[k]? = some c) : ∃ p v q, w = p ++ v ++ q ∧
      Is (Subtree.span ((cs.take k).map Child.node)) p ∧ Spells Is v c.node ∧
      (c.node.info.lookahead = 0 → v = []) := by
  induction cs generalizing w k with
  | nil => simp at hc
  | cons d rest ih =>
    rw [SpellsAll] at h
    obtain ⟨u, v, rfl, hu, ht, hrest⟩ := h
    cases k with
    | zero =>
      obtain rfl := Option.some.inj hc
      exact ⟨[], u, v, rfl, hm.zero, ht, hu⟩
    | succ k =>
      obtain ⟨p, x, q, rfl, hp, hx, hblind⟩ := ih hrest (by simpa using hc)
      exact ⟨u ++ p, x, q, by simp, hm.add ht.size hp, hx, hblind⟩

/-- A child spells a part of the word of its node, or nothing. -/
theorem Spells.getElem? (hm : Measure Is) (h : Spells Is w t) {k : Nat} {c : Child Subtree}
    (hc : t.children[k]? = some c) : ∃ p v q, w = p ++ v ++ q ∧
      Is (Subtree.span ((t.children.take k).map Child.node)) p ∧ Spells Is v c.node ∧
      (c.node.info.lookahead = 0 → v = []) := by
  obtain ⟨info, cs⟩ := t
  rw [Spells] at h
  rcases h.2 with hall | ⟨-, hall⟩
  · exact hall.getElem? hm hc
  · obtain ⟨p, v, q, hw, hp, hv, hblind⟩ := hall.getElem? hm hc
    obtain ⟨rfl, rfl, rfl⟩ : p = [] ∧ v = [] ∧ q = [] := by simpa using hw.symm
    exact ⟨[], [], w, rfl, hp, hv, hblind⟩

end Subtree

open Subtree

/-- A node spells a part of the word that its tree spells, behind what comes before its start. -/
theorem Tree.HasNode.spells (hm : Measure Is) {t : Tree} {w : List α} (h : Spells Is w t.root)
    {n : Node} (hn : t.HasNode n) : ∃ p v q, w = p ++ v ++ q ∧ Is n.start p ∧
      Spells Is v n.subtree ∧ (n.path ≠ [] → n.subtree.info.lookahead = 0 → v = []) := by
  induction hn with
  | root => exact ⟨[], w, [], by simp, hm.zero, h, fun hne => absurd rfl hne⟩
  | child _ hc ih =>
    obtain ⟨p, v, q, rfl, hp, hv, -⟩ := ih
    obtain ⟨k, child, hchild, hsubtree, hstart, -⟩ := Node.exists_of_mem_storedChildren hc
    obtain ⟨p', v', q', rfl, hp', hv', hblind⟩ := hv.getElem? hm hchild
    refine ⟨p ++ p', v', q' ++ q, by simp, ?_, hsubtree ▸ hv', fun _ => hsubtree ▸ hblind⟩
    rw [hstart]
    exact hm.add hp hp'

end Glr
