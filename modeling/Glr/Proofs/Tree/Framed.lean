import Glr.Proofs.Tree.Fresh

/-!
# Glr.Proofs.Tree.Framed

What an edit leaves alone.  It changes the sizes and the marks of a tree and nothing else, and
a node that it does not mark is the same node, where it was or moved with the text behind the
edit:

```
end + lookahead ≤ start    ↦   where it was
otherwise                  ↦   new end - old end further on
```

Which nodes an edit comes to depends on what every node above them looked at.  Those counts get
stale when nodes are edited, but what an unmarked node looked at never reaches beyond what the
nodes above it looked at:

```
end + lookahead of an unmarked node  ≤  end + lookahead of every node above
```

Only nodes that looked at nothing are out of this, which are hollow errors.
-/

namespace Glr

/-! ## What stays of a tree -/

/-- What is stored of a node, without its size and its mark. -/
def NodeInfo.shape (i : NodeInfo) : NodeInfo := { i with size := Length.zero, changed := false }

namespace Subtree

mutual
/-- The node and all nodes in it, without sizes and marks. -/
def shape : Subtree → Subtree
  | .mk info children => .mk info.shape (shapeAll children)
/-- Children without that. -/
def shapeAll : List (Child Subtree) → List (Child Subtree)
  | [] => []
  | ⟨field, t⟩ :: rest => ⟨field, t.shape⟩ :: shapeAll rest
end

mutual
/-- An edit changes sizes and marks only. -/
theorem shape_edit (start oldEnd newEnd : Length) :
    ∀ t : Subtree, (edit start oldEnd newEnd t).shape = t.shape
  | .mk info cs => by
    rw [edit, shape, shape, shapeAll_editAll]
    rfl

theorem shapeAll_editAll (s : Share) (childStart : Length) :
    ∀ cs : List (Child Subtree), shapeAll (editAll s childStart cs) = shapeAll cs
  | [] => rfl
  | ⟨field, t⟩ :: rest => by
    rw [editAll]
    simp only
    split
    · split
      · rw [shapeAll, shapeAll, shape_edit, shapeAll_editAll]
      · rw [shapeAll, shapeAll, shape_edit, shapeAll_editAll]
    · rw [shapeAll, shapeAll, shapeAll_editAll]
end

/-- What stays of the node itself and of its children. -/
theorem info_shape (t : Subtree) : t.shape.info = t.info.shape := by
  cases t
  rw [shape]
  rfl

theorem children_shape (t : Subtree) : t.shape.children = shapeAll t.children := by
  cases t
  rw [shape]
  rfl

theorem shapeAll_eq_map (cs : List (Child Subtree)) :
    shapeAll cs = cs.map fun c => ⟨c.field, c.node.shape⟩ := by
  induction cs with
  | nil => rfl
  | cons c cs ih => rw [shapeAll, ih, List.map_cons]

mutual
/-- A rule for which sizes and marks do not matter holds of a tree as of its shape. -/
theorem everywhere_shape_iff {P : LocalRule}
    (hP : ∀ i cs, P i.shape (shapeAll cs) ↔ P i cs) :
    ∀ {t : Subtree}, Everywhere P t.shape ↔ Everywhere P t
  | .mk i cs => by rw [shape, Everywhere, Everywhere, hP, everywhereAll_shapeAll_iff hP]

theorem everywhereAll_shapeAll_iff {P : LocalRule}
    (hP : ∀ i cs, P i.shape (shapeAll cs) ↔ P i cs) :
    ∀ {cs : List (Child Subtree)}, EverywhereAll P (shapeAll cs) ↔ EverywhereAll P cs
  | [] => Iff.rfl
  | ⟨field, t⟩ :: rest => by
    rw [shapeAll, EverywhereAll, EverywhereAll, everywhere_shape_iff hP,
      everywhereAll_shapeAll_iff hP]
end

mutual
/-- What holds everywhere in an edited tree holds of what no edit touched. -/
theorem Kept.of_everywhere {U : NodeRule} {P : LocalRule} {start : Nat} : ∀ {t : Subtree},
    Kept U start t → Everywhere P t → Kept (fun _ t => Everywhere P t) start t
  | .mk i cs, h, hP => by
    rw [Kept] at h ⊢
    have hcs := everywhereAll_iff.mpr (everywhere_mk.mp hP).2
    exact ⟨fun _ => hP, h.2.1, h.2.2.of_everywhereAll hcs⟩

theorem KeptAll.of_everywhereAll {U : NodeRule} {P : LocalRule} {start : Nat} :
    ∀ {cs : List (Child Subtree)}, KeptAll U start cs → EverywhereAll P cs →
      KeptAll (fun _ t => Everywhere P t) start cs
  | [], _, _ => trivial
  | ⟨_, _⟩ :: _, h, hP => by
    rw [KeptAll] at h ⊢
    exact ⟨h.1.of_everywhere hP.1, h.2.of_everywhereAll hP.2⟩
end

/-- Children of the same shapes stand for each other. -/
theorem exists_of_mem_of_shape {cs cs' : List (Child Subtree)} (h : shapeAll cs' = shapeAll cs)
    {c' : Child Subtree} (hc : c' ∈ cs') : ∃ c ∈ cs, c'.node.shape = c.node.shape := by
  rw [shapeAll_eq_map, shapeAll_eq_map] at h
  have hmem := List.mem_map_of_mem
    (f := fun c : Child Subtree => (⟨c.field, c.node.shape⟩ : Child Subtree)) hc
  rw [h] at hmem
  obtain ⟨c, hc, he⟩ := List.mem_map.mp hmem
  exact ⟨c, hc, (congrArg Child.node he).symm⟩

theorem lookahead_of_shape {t t' : Subtree} (h : t'.shape = t.shape) :
    t'.info.lookahead = t.info.lookahead := by
  have := congrArg (fun t => t.info.lookahead) h
  simpa [info_shape, NodeInfo.shape] using this

theorem symbol_of_shape {t t' : Subtree} (h : t'.shape = t.shape) : t'.symbol = t.symbol := by
  have := congrArg (fun t => t.info.symbol) h
  simpa [info_shape, NodeInfo.shape, symbol] using this

/-! ## Steady trees -/

mutual
/-- What the unmarked nodes here and below looked at lies before a place. -/
def Below (limit start : Nat) : Subtree → Prop
  | .mk info cs =>
    (info.changed = false → info.lookahead ≠ 0 →
      start + info.size.bytes + info.lookahead ≤ limit) ∧ BelowAll limit start cs
/-- It does for all of some children. -/
def BelowAll (limit start : Nat) : List (Child Subtree) → Prop
  | [] => True
  | ⟨_, t⟩ :: rest => Below limit start t ∧ BelowAll limit (start + t.size.bytes) rest
end

/-- What holds of a node of a tree however often it was edited. -/
structure Steady (i : NodeInfo) (cs : List (Child Subtree)) : Prop where
  marked : ∀ c ∈ cs, c.node.info.changed = true → i.changed = true
  /-- What the unmarked nodes below looked at lies within what the node looked at. -/
  below : BelowAll (i.size.bytes + i.lookahead) 0 cs
  width : width cs ≤ i.size.bytes
  blind : i.lookahead = 0 → ∀ c ∈ cs, c.node.info.lookahead = 0
  error : ∀ c ∈ cs, c.node.info.lookahead = 0 → c.node.isError = true

variable {g : FlatGrammar} {l : Language} {t t' : Subtree} {cs cs' : List (Child Subtree)}
  {limit limit' x y : Nat}

mutual
theorem Below.move {x y : Nat} (hle : limit + y ≤ limit' + x) :
    ∀ {t : Subtree}, Below limit x t → Below limit' y t
  | .mk info cs, h => by
    rw [Below] at h ⊢
    refine ⟨fun hc hl => ?_, h.2.move hle⟩
    have := h.1 hc hl
    omega

theorem BelowAll.move {x y : Nat} (hle : limit + y ≤ limit' + x) :
    ∀ {cs : List (Child Subtree)}, BelowAll limit x cs → BelowAll limit' y cs
  | [], _ => trivial
  | ⟨_, t⟩ :: rest, h => by
    rw [BelowAll] at h ⊢
    exact ⟨h.1.move hle, h.2.move (by omega)⟩
end

/-- What all unmarked nodes of a steady tree looked at lies within what its root looked at. -/
theorem below_of_steady (h : Everywhere Steady t)
    (hle : x + t.size.bytes + t.info.lookahead ≤ limit) : Below limit x t := by
  obtain ⟨i, cs⟩ := t
  change x + i.size.bytes + i.lookahead ≤ limit at hle
  rw [Below]
  exact ⟨fun _ _ => hle, h.here.below.move (by simp only [info]; omega)⟩

/-- A tree is steady before any edit. -/
theorem steady_of_fresh (h : Everywhere (Fresh g l) t) : Everywhere Steady t := by
  refine h.imp fun i cs hi hcs => ?_
  have hbelow (before after : List (Child Subtree)) (hc : cs = before ++ after) :
      BelowAll (i.size.bytes + i.lookahead) (width before) after := by
    induction after generalizing before with
    | nil => trivial
    | cons c after ih =>
      have hrest := ih (before ++ [c]) (by simp [hc])
      rw [show width (before ++ [c]) = width before + c.node.size.bytes by
        simp [width, span_append, Length.bytes_add]] at hrest
      exact ⟨below_of_steady (hcs c (by simp [hc])).2 (hi.reach before c after hc), hrest⟩
  refine ⟨fun c hc hm => ?_, hbelow [] cs rfl, ?_, fun hz c hc => ?_, hi.error⟩
  · rw [(hcs c hc).1.here.changed] at hm
    contradiction
  · cases cs with
    | nil => exact Nat.zero_le _
    | cons c cs => exact Nat.le_of_eq (congrArg Length.bytes (hi.size (List.cons_ne_nil c cs))).symm
  · obtain ⟨before, after, rfl⟩ := List.append_of_mem hc
    have := hi.reach before c after rfl
    rw [hi.empty hz, hz, bytes_zero] at this
    omega

/-! ## Before and after an edit -/

/-- A node that starts at `x`, and what it becomes at `y`, when the text from `s` to `o`
becomes the text from `s` to `n`. -/
structure FramedAt (s o n x y : Nat) (t t' : Subtree) : Prop where
  marked : t.info.changed = true → t'.info.changed = true
  /-- What the edit can influence is marked. -/
  touched : t.info.changed = false → t.info.lookahead ≠ 0 → x ≤ o →
    s < x + t.size.bytes + t.info.lookahead → t'.info.changed = true
  same : t'.info.changed = false → t' = t
  moved : t'.info.changed = false → t.info.lookahead ≠ 0 →
    if x + t.size.bytes + t.info.lookahead ≤ s then y = x else y + o = x + n

mutual
/-- The node and all nodes in it, and what they become. -/
def Framed (s o n x y : Nat) : Subtree → Subtree → Prop
  | .mk i cs, .mk i' cs' =>
    FramedAt s o n x y (.mk i cs) (.mk i' cs') ∧ FramedAll s o n x y cs cs'
/-- Some children, and what they become. -/
def FramedAll (s o n x y : Nat) : List (Child Subtree) → List (Child Subtree) → Prop
  | [], [] => True
  | ⟨_, t⟩ :: rest, ⟨_, t'⟩ :: rest' =>
    Framed s o n x y t t' ∧ FramedAll s o n (x + t.size.bytes) (y + t'.size.bytes) rest rest'
  | _, _ => False
end

variable {s o n : Nat}

theorem Framed.here (h : Framed s o n x y t t') : FramedAt s o n x y t t' := by
  cases t
  cases t'
  rw [Framed] at h
  exact h.1

theorem Framed.children (h : Framed s o n x y t t') :
    FramedAll s o n x y t.children t'.children := by
  cases t
  cases t'
  rw [Framed] at h
  exact h.2

/-- The children at the same place. -/
theorem FramedAll.getElem? (h : FramedAll s o n x y cs cs') {k : Nat} {c c' : Child Subtree}
    (hc : cs[k]? = some c) (hc' : cs'[k]? = some c') :
    Framed s o n (x + width (cs.take k)) (y + width (cs'.take k)) c.node c'.node := by
  induction cs generalizing cs' x y k with
  | nil => simp at hc
  | cons d rest ih =>
    cases cs' with
    | nil => simp at hc'
    | cons d' rest' =>
      rw [FramedAll] at h
      cases k with
      | zero =>
        obtain rfl := Option.some.inj hc
        obtain rfl := Option.some.inj hc'
        exact h.1
      | succ k =>
        have := ih h.2 (by simpa using hc) (by simpa using hc')
        rwa [List.take_succ_cons, List.take_succ_cons, width_cons, width_cons, ← Nat.add_assoc,
          ← Nat.add_assoc]

/-! ## Nodes that an edit does not come to -/

mutual
/-- What looked at nothing behind the start of the edit stays where it is. -/
theorem Below.framed {x : Nat} : ∀ {t : Subtree}, Below s x t → Framed s o n x x t t
  | .mk i cs, h => by
    rw [Below] at h
    rw [Framed]
    refine ⟨⟨id, fun hc hl _ hs => ?_, fun _ => rfl, fun hc hl => ?_⟩, h.2.framed⟩
    · exact absurd (h.1 hc hl) (Nat.not_le.mpr hs)
    · exact if_pos (h.1 hc hl) ▸ rfl

theorem BelowAll.framed {x : Nat} :
    ∀ {cs : List (Child Subtree)}, BelowAll s x cs → FramedAll s o n x x cs cs
  | [], _ => trivial
  | ⟨_, _⟩ :: _, h => by
    rw [BelowAll] at h
    rw [FramedAll]
    exact ⟨h.1.framed, h.2.framed⟩
end

mutual
/-- What starts behind the edit moves with the text there. -/
theorem framed_after (hso : s ≤ o) {x y : Nat} (hx : o < x) (hy : y + o = x + n) :
    ∀ t : Subtree, Framed s o n x y t t
  | .mk i cs => by
    rw [Framed]
    refine ⟨⟨id, fun _ _ hle => absurd hle (Nat.not_le.mpr hx), fun _ => rfl, fun _ _ => ?_⟩,
      framedAll_after hso hx hy cs⟩
    rw [if_neg (by omega)]
    exact hy

theorem framedAll_after (hso : s ≤ o) {x y : Nat} (hx : o < x) (hy : y + o = x + n) :
    ∀ cs : List (Child Subtree), FramedAll s o n x y cs cs
  | [] => trivial
  | ⟨_, t⟩ :: rest => by
    rw [FramedAll]
    exact ⟨framed_after hso hx hy t, framedAll_after hso (by omega) (by omega) rest⟩
end

mutual
/-- Where nodes stand that looked at nothing is not said. -/
theorem framed_blind {x y : Nat} : ∀ {t : Subtree}, Everywhere Steady t → t.info.lookahead = 0 →
    Framed s o n x y t t
  | .mk i cs, h, hz => by
    rw [Framed]
    rw [Everywhere] at h
    exact ⟨⟨id, fun _ hl => absurd hz hl, fun _ => rfl, fun _ hl => absurd hz hl⟩,
      framedAll_blind h.2 (h.1.blind hz)⟩

theorem framedAll_blind {x y : Nat} : ∀ {cs : List (Child Subtree)}, EverywhereAll Steady cs →
    (∀ c ∈ cs, c.node.info.lookahead = 0) → FramedAll s o n x y cs cs
  | [], _, _ => trivial
  | ⟨field, t⟩ :: rest, h, hz => by
    rw [EverywhereAll] at h
    rw [FramedAll]
    exact ⟨framed_blind h.1 (hz ⟨field, t⟩ (by simp)),
      framedAll_blind h.2 fun c hc => hz c (by simp [hc])⟩
end

/-! ## The edit itself -/

/-- Where a place between two nodes goes, before the new text or behind it. -/
def Goes (s o n : Nat) : Bool → Nat → Nat → Prop
  | false, x, y => x ≤ s ∧ y = x
  | true, x, y => s ≤ x ∧ y = n + (x - o)

/-- The part of an edit that falls to a node of some size that starts at `x`, and at `y` after
the edit: the new text is placed before it, behind it or, if it is not placed before but is
behind, in it. -/
structure Portion (s o n x y size : Nat) (before behind : Bool) (start oldEnd new : Nat) :
    Prop where
  goes : Goes s o n before x y
  stop : if behind then s ≤ x + size else x + size ≤ s
  mono : before = true → behind = true
  start : start = min (max s x) (x + size) - x
  oldEnd : oldEnd = min (max o x) (x + size) - x
  new : new = if before = behind then 0 else n - s

section

variable {k z newSize : Nat} {before now behind : Bool} {start oldEnd new toPlace : Nat}

/-- The part of a child, of which the new text goes behind a place or not. -/
theorem Portion.child {y' : Nat} (h : Portion s o n x y z before behind start oldEnd new)
    (after : Bool) {size : Nat} (hk : k + size ≤ z) (hgoes : Goes s o n now (x + k) y')
    (hbefore : before = true → now = true) (hmono : now = true → after = true)
    (hbehind : after = true → behind = true)
    (hstop : now = false → behind = true → if after then start ≤ k + size else k + size ≤ start) :
    Portion s o n (x + k) y' size now after (min (max start k) (k + size) - k)
      (min (max oldEnd k) (k + size) - k) (if now = after then 0 else n - s) := by
  obtain ⟨hg, hs, hm, rfl, rfl, -⟩ := h
  refine ⟨hgoes, ?_, hmono, ?_, ?_, rfl⟩
  · cases now <;> cases after <;> cases behind <;> cases before <;>
      simp_all only [Goes, Bool.false_eq_true, if_true, if_false, forall_const, reduceCtorEq,
        false_implies, implies_true] <;> omega
  · omega
  · omega

/-- Where the place behind a node goes that has its part of the edit. -/
theorem Portion.goes_behind (h : Portion s o n x y z before behind start oldEnd new) (hso : s ≤ o)
    (hsn : s ≤ n) (hsize : newSize + oldEnd = start + new + z) :
    Goes s o n behind (x + z) (y + newSize) := by
  obtain ⟨hg, hs, hm, rfl, rfl, rfl⟩ := h
  cases before with
  | true =>
    obtain rfl : behind = true := hm rfl
    simp only [Goes, if_true] at hg hsize ⊢
    omega
  | false =>
    cases behind with
    | true =>
      simp only [Goes, if_true, Bool.false_eq_true, if_false] at hg hs hsize ⊢
      omega
    | false =>
      simp only [Goes, if_true, Bool.false_eq_true, if_false] at hg hs hsize ⊢
      omega

/-- A child that an edit does not come to stays as it is: before the edit where it was, behind
it moved with the text there. -/
theorem Portion.untouched {y' : Nat} (h : Portion s o n x y z before behind start oldEnd new)
    (hso : s ≤ o) (hk : k + t.size.bytes ≤ z) (hgoes : Goes s o n now (x + k) y')
    (hbefore : before = true → now = true) (hbehind : now = true → behind = true)
    (htouch : k ≤ oldEnd → k + t.size.bytes + t.info.lookahead ≤ start)
    (ht : Everywhere Steady t) :
    Framed s o n (x + k) y' t t ∧ Goes s o n now (x + k + t.size.bytes) (y' + t.size.bytes) := by
  obtain ⟨hg, hs, -, rfl, rfl, -⟩ := h
  cases now with
  | false =>
    have hb : before = false := by simpa using hbefore
    simp only [Goes] at hgoes
    obtain ⟨hx, rfl⟩ := hgoes
    have hend : x + k + t.size.bytes + t.info.lookahead ≤ s := by
      have hxs : x ≤ s := by omega
      have := htouch (by omega)
      omega
    exact ⟨(below_of_steady ht hend).framed, by omega, rfl⟩
  | true =>
    simp only [Goes] at hgoes ⊢
    by_cases hlt : o < x + k
    · exact ⟨framed_after hso hlt (by omega) t, by omega, by omega⟩
    · have := htouch (by omega)
      exact ⟨framed_blind ht (by omega), by omega, by omega⟩

end

/-- How far a place that is moved into a child lies in it. -/
theorem bytes_clamp_sub (place childStart size : Length) :
    (place.clamp childStart (childStart + size) - childStart).bytes =
      min (max place.bytes childStart.bytes) (childStart.bytes + size.bytes) - childStart.bytes := by
  rw [Length.bytes_sub, bytes_clamp _ _ _ (Nat.le_add_right _ _), Length.bytes_add]

mutual
/-- What an edit makes of a node. -/
theorem framed_edit (hso : s ≤ o) (hsn : s ≤ n) {x y new : Nat} {before behind : Bool}
    {start oldEnd newEnd : Length} : ∀ {t : Subtree}, Everywhere Steady t →
      Portion s o n x y t.size.bytes before behind start.bytes oldEnd.bytes new →
      newEnd.bytes = start.bytes + new → Framed s o n x y t (edit start oldEnd newEnd t)
  | .mk i cs, h, hp, hnew => by
    rw [Everywhere] at h
    rw [edit, Framed]
    refine ⟨⟨fun _ => rfl, fun _ _ _ _ => rfl, by rintro ⟨⟩, by rintro ⟨⟩⟩, ?_⟩
    refine framedAll_editAll hso hsn ⟨start, oldEnd, some (newEnd - start)⟩ Length.zero hp h.2 ?_
      hp.goes id hp.mono ?_
    · rw [bytes_zero, Nat.zero_add]
      exact h.1.width
    · show newEnd.bytes - start.bytes = _
      rw [hnew, Nat.add_sub_cancel_left, hp.new]

/-- What an edit makes of some children; `now` says whether the new text is placed before
the first of them. -/
theorem framedAll_editAll (hso : s ≤ o) (hsn : s ≤ n) {x y y' z new : Nat}
    {before now behind : Bool} (sh : Share) (childStart : Length)
    (hp : Portion s o n x y z before behind sh.start.bytes sh.oldEnd.bytes new) :
    ∀ {cs : List (Child Subtree)}, EverywhereAll Steady cs → childStart.bytes + width cs ≤ z →
      Goes s o n now (x + childStart.bytes) y' → (before = true → now = true) →
      (now = true → behind = true) → sh.toPlace = (if now = behind then 0 else n - s) →
      FramedAll s o n (x + childStart.bytes) y' cs (editAll sh childStart cs)
  | [], _, _, _, _, _, _ => trivial
  | ⟨field, t⟩ :: rest, h, hk, hgoes, hbefore, hbehind, hplace => by
    rw [EverywhereAll] at h
    rw [width_cons] at hk
    simp only at hk
    have hk' : childStart.bytes + t.size.bytes ≤ z := by omega
    have hrest : (childStart + t.size).bytes + width rest ≤ z := by
      rw [Length.bytes_add]
      omega
    have hstart := bytes_clamp_sub sh.start childStart t.size
    have hold := bytes_clamp_sub sh.oldEnd childStart t.size
    rw [editAll]
    simp only
    generalize sh.start.clamp childStart (childStart + t.size) - childStart = start at hstart ⊢
    generalize sh.oldEnd.clamp childStart (childStart + t.size) - childStart = oldEnd at hold ⊢
    have hsize (new : Length) :
        (edit start oldEnd (start + new) t).size.bytes + oldEnd.bytes
          = start.bytes + new.bytes + t.size.bytes := by
      rw [size_edit]
      exact bytes_sizeAfter (start + new) (by omega)
    split
    · split
      · rename_i hgoesTo
        have hchild := hp.child behind hk' hgoes hbefore hbehind id fun _ hb => by
          rw [hb, if_pos rfl]
          simp only [Share.goesTo, Bool.or_eq_true, Bool.and_eq_true, decide_eq_true_eq, beq_iff_eq,
            gt_iff_lt, Length.bytes_add] at hgoesTo
          omega
        rw [← hstart, ← hold, ← hplace] at hchild
        have hnext := hchild.goes_behind hso hsn (hsize (sh.inserted.getD Length.zero))
        have htail := framedAll_editAll hso hsn { sh with inserted := none } (childStart + t.size) hp
          h.2 hrest (by rwa [Length.bytes_add, ← Nat.add_assoc]) hp.mono id
          (by simp [Share.toPlace])
        rw [Length.bytes_add, ← Nat.add_assoc] at htail
        rw [FramedAll]
        exact ⟨framed_edit hso hsn h.1 hchild rfl, htail⟩
      · rename_i hgoesTo
        have hchild := hp.child now hk' hgoes hbefore id hbehind fun hn _ => by
          rw [hn, if_neg Bool.false_ne_true]
          simp only [Share.goesTo, Bool.or_eq_true, decide_eq_true_eq, gt_iff_lt, not_or, Nat.not_lt,
            Length.bytes_add] at hgoesTo
          omega
        rw [← hstart, ← hold, if_pos rfl] at hchild
        have hnext := hchild.goes_behind hso hsn (hsize Length.zero)
        have htail := framedAll_editAll hso hsn sh (childStart + t.size) hp h.2
          hrest (by rwa [Length.bytes_add, ← Nat.add_assoc]) hbefore hbehind hplace
        rw [Length.bytes_add, ← Nat.add_assoc] at htail
        rw [FramedAll]
        exact ⟨framed_edit hso hsn h.1 hchild rfl, htail⟩
    · rename_i htouch
      simp only [Share.touches, Bool.and_eq_true, decide_eq_true_eq, gt_iff_lt, not_and, Nat.not_lt,
        Length.bytes_add] at htouch
      obtain ⟨hframed, hnext⟩ := hp.untouched hso hk' hgoes hbefore hbehind htouch h.1
      have htail := framedAll_editAll hso hsn sh (childStart + t.size) hp h.2
        hrest (by rwa [Length.bytes_add, ← Nat.add_assoc]) hbefore hbehind hplace
      rw [Length.bytes_add, ← Nat.add_assoc] at htail
      rw [FramedAll]
      exact ⟨hframed, htail⟩
end

/-! ## Edits of steady trees -/

mutual
/-- What the unmarked nodes looked at moves with them. -/
theorem Framed.below (hle : limit + n ≤ limit' + o) (hs : s ≤ limit') {x y : Nat} :
    ∀ {t t' : Subtree}, Framed s o n x y t t' → Below limit x t → Below limit' y t'
  | .mk i cs, .mk i' cs', h, hb => by
    rw [Below] at hb ⊢
    refine ⟨fun hc hl => ?_, h.children.below hle hs hb.2⟩
    obtain ⟨rfl, -⟩ := Subtree.mk.inj (h.here.same hc)
    have hmoved : if x + i'.size.bytes + i'.lookahead ≤ s then y = x else y + o = x + n :=
      h.here.moved hc hl
    have hbefore := hb.1 hc hl
    split at hmoved <;> omega

theorem FramedAll.below (hle : limit + n ≤ limit' + o) (hs : s ≤ limit') {x y : Nat} :
    ∀ {cs cs' : List (Child Subtree)}, FramedAll s o n x y cs cs' → BelowAll limit x cs →
      BelowAll limit' y cs'
  | [], [], _, _ => trivial
  | ⟨_, _⟩ :: _, ⟨_, _⟩ :: _, h, hb => by
    rw [FramedAll] at h
    rw [BelowAll] at hb ⊢
    exact ⟨h.1.below hle hs hb.1, h.2.below hle hs hb.2⟩
  | [], ⟨_, _⟩ :: _, h, _ => h.elim
  | ⟨_, _⟩ :: _, [], h, _ => h.elim
end

/-- What an edit within a node makes of it. -/
theorem framed_within {start oldEnd newEnd : Length} (h : Everywhere Steady t)
    (hw : Within start oldEnd newEnd t.size) :
    Framed start.bytes oldEnd.bytes newEnd.bytes 0 0 t (edit start oldEnd newEnd t) := by
  have hstart := hw.start_le
  have hold := hw.oldEnd_le
  have hnew := hw.newEnd_ge
  have hp : Portion start.bytes oldEnd.bytes newEnd.bytes 0 0 t.size.bytes false true start.bytes
      oldEnd.bytes (newEnd.bytes - start.bytes) := by
    refine ⟨⟨Nat.zero_le _, rfl⟩, ?_, fun _ => rfl, by omega, by omega, rfl⟩
    rw [if_pos rfl]
    omega
  exact framed_edit hstart hnew h hp (by omega)

mutual
/-- An edit leaves a tree steady. -/
theorem steady_edit {start oldEnd newEnd : Length} : ∀ {t : Subtree}, Everywhere Steady t →
    Within start oldEnd newEnd t.size → Everywhere Steady (edit start oldEnd newEnd t)
  | .mk i cs, h, hw => by
    have hframed := (framed_within h hw).children
    have hsteady := h.here
    have hshape := shapeAll_editAll ⟨start, oldEnd, some (newEnd - start)⟩ Length.zero cs
    rw [Everywhere] at h
    rw [edit] at hframed ⊢
    rw [Everywhere]
    refine ⟨⟨fun _ _ _ => rfl, ?_, width_edit hw hsteady.width, fun hz c hc => ?_, fun c hc hz => ?_⟩,
      steadyAll_editAll _ _ hw.start_le h.2⟩
    · have hsize := bytes_sizeAfter newEnd hw.oldEnd_le
      have hold := hw.oldEnd_le
      have hnew := hw.newEnd_ge
      simp only [size, info] at hsize hold
      refine hframed.below ?_ ?_ hsteady.below
      · simp only [info]
        omega
      · show start.bytes ≤ (sizeAfter i.size oldEnd newEnd).bytes + i.lookahead
        omega
    · obtain ⟨d, hd, he⟩ := exists_of_mem_of_shape hshape hc
      rw [lookahead_of_shape he]
      exact hsteady.blind hz d hd
    · obtain ⟨d, hd, he⟩ := exists_of_mem_of_shape hshape hc
      rw [isError, symbol_of_shape he]
      exact hsteady.error d hd (by rwa [← lookahead_of_shape he])

theorem steadyAll_editAll (sh : Share) (childStart : Length)
    (hs : sh.start.bytes ≤ sh.oldEnd.bytes) : ∀ {cs : List (Child Subtree)},
      EverywhereAll Steady cs → EverywhereAll Steady (editAll sh childStart cs)
  | [], _ => trivial
  | ⟨field, t⟩ :: rest, h => by
    rw [EverywhereAll] at h
    rw [editAll]
    simp only
    split
    · split
      · exact ⟨steady_edit h.1 (within_child sh childStart t _ hs),
          steadyAll_editAll { sh with inserted := none } _ hs h.2⟩
      · exact ⟨steady_edit h.1 (within_child sh childStart t Length.zero hs),
          steadyAll_editAll sh _ hs h.2⟩
    · exact ⟨h.1, steadyAll_editAll sh _ hs h.2⟩
end

end Subtree

/-! ## Nodes before and after -/

/-- A node of a tree and the node at the same place in another tree of the same shape. -/
inductive Tree.Twin (t t' : Tree) : Node → Node → Prop where
  | root : Twin t t' t.rootNode t'.rootNode
  | child {m m' c c' : Node} {k : Nat} (h : Twin t t' m m') (hc : m.storedChildren[k]? = some c)
      (hc' : m'.storedChildren[k]? = some c') : Twin t t' c c'

namespace Tree.Twin

open Subtree

variable {t t' : Tree} {m m' : Node} {s o n : Nat}

theorem symm (h : Twin t t' m m') : Twin t' t m' m := by
  induction h with
  | root => exact .root
  | child _ hc hc' ih => exact .child ih hc' hc

theorem hasNode (h : Twin t t' m m') : t.HasNode m := by
  induction h with
  | root => exact .root
  | child _ hc _ ih => exact .child ih (List.mem_of_getElem? hc)

theorem shape (ht : t'.root.shape = t.root.shape) (h : Twin t t' m m') :
    m'.subtree.shape = m.subtree.shape := by
  induction h with
  | root => exact ht
  | @child m m' c c' k _ hc hc' ih =>
    rw [Node.getElem?_storedChildren] at hc hc'
    obtain ⟨d, hd, rfl⟩ := Option.map_eq_some_iff.mp hc
    obtain ⟨d', hd', rfl⟩ := Option.map_eq_some_iff.mp hc'
    have hchildren := congrArg Subtree.children ih
    rw [children_shape, children_shape, shapeAll_eq_map, shapeAll_eq_map] at hchildren
    have hk := congrArg (·[k]?) hchildren
    simp only [List.getElem?_map, hd, hd', Option.map_some, Option.some.injEq] at hk
    exact congrArg Child.node hk

/-- Every node has a twin in a tree of the same shape. -/
theorem exists_twin (ht : t'.root.shape = t.root.shape) (h : t.HasNode m) : ∃ m', Twin t t' m m' := by
  induction h with
  | root => exact ⟨_, .root⟩
  | @child m c _ hc ih =>
    obtain ⟨m', hm⟩ := ih
    obtain ⟨k, hk⟩ := List.mem_iff_getElem?.mp hc
    have hchildren := congrArg (List.length ∘ Subtree.children) (hm.shape ht)
    simp only [Function.comp_apply, children_shape, shapeAll_eq_map, List.length_map] at hchildren
    have hlt : k < m'.storedChildren.length := by
      rw [Node.storedChildren, Node.length_place, hchildren, ← Node.length_place m 0 m.start]
      exact (List.getElem?_eq_some_iff.mp hk).1
    exact ⟨_, .child hm hk (List.getElem?_eq_getElem hlt)⟩

/-- What an edit makes of a tree it makes of every node. -/
theorem framed (ht : Framed s o n 0 0 t.root t'.root) (h : Twin t t' m m') :
    Framed s o n m.startByte m'.startByte m.subtree m'.subtree := by
  induction h with
  | root => exact ht
  | child _ hc hc' ih =>
    rw [Node.getElem?_storedChildren] at hc hc'
    obtain ⟨d, hd, rfl⟩ := Option.map_eq_some_iff.mp hc
    obtain ⟨d', hd', rfl⟩ := Option.map_eq_some_iff.mp hc'
    exact ih.children.getElem? hd hd'

end Tree.Twin

/-- Above a marked node of a steady tree all nodes are marked. -/
theorem Tree.HasNode.marked {t : Tree} (ht : Subtree.Everywhere Subtree.Steady t.root) {m : Node}
    (h : t.HasNode m) (hm : m.subtree.info.changed = true) :
    ∀ d ∈ m.path, d.parent.info.changed = true := by
  induction h with
  | root => simp [Tree.rootNode]
  | child h hc ih =>
    obtain ⟨k, child, hchild, hsubtree, -, hpath⟩ := Node.exists_of_mem_storedChildren hc
    have hparent := (h.everywhere ht).here.marked child (List.mem_of_getElem? hchild)
      (by rw [← hsubtree]; exact hm)
    rw [hpath]
    intro d hd
    rcases List.mem_cons.mp hd with rfl | hd
    · exact hparent
    · exact ih hparent d hd

end Glr
