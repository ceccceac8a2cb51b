import Glr.Proofs.Tree.Tour
import Mathlib.Data.List.ModifyLast

/-!
# Glr.Proofs.Display

Trees in writing, by recursion.  A node with a name has a line of its own, and behind it the lines
of the nodes under it; the last of all these is closed:

```
lines n  =  (line n :: lines c₁ ++ … ++ lines cₖ) with ")" at its end
```

A node without a name has only those of the nodes under it.

* `Balanced.round` — on a round the depth does not go below where it began, and comes back to it;
* `Writes.round` — a round writes the lines of the node;
* `Tree.display_eq_lines` — so the tree in writing has the lines of its root.
-/

namespace Glr

/-! ## Lines -/

namespace Subtree

/-- The line of a node with a name: two spaces for each node with a name that it is in, the name of
its field, its kind, marked if it is missing, and its span. -/
def line (l : Language) (depth : Nat) (field : Option FieldId) (start : Length) (t : Subtree) :
    String :=
  let label := match field.bind l.fieldName? with
    | some name => name ++ ": "
    | none => ""
  let mark := if t.info.missing then "(MISSING " else "("
  "".pushn ' ' (2 * depth) ++ label ++ mark ++ l.kindOf t.symbol ++ " " ++ (t.rangeAt start).display

/-- Closes the last line. -/
def close (lines : List String) : List String := lines.modifyLast (· ++ ")")

mutual
/-- The lines of a node and of all that is visible under it. -/
def lines (l : Language) (depth : Nat) (field : Option FieldId) (start : Length) :
    Subtree → List String
  | .mk info children =>
    if info.named then
      close (line l depth field start (.mk info children) :: linesAll l (depth + 1) start children)
    else linesAll l depth start children
/-- The lines of the visible ones of some children. -/
def linesAll (l : Language) (depth : Nat) (start : Length) : List (Child Subtree) → List String
  | [] => []
  | ⟨field, t⟩ :: rest =>
    (if t.info.visible then lines l depth field start t else []) ++
      linesAll l depth (start + t.size) rest
end

end Subtree

open Subtree

variable {k : Cursor} {d : Nat} {p : Page} {ls : List String}

/-- The lines of the node that a cursor is on. -/
def Cursor.lines (k : Cursor) (depth : Nat) : List String :=
  k.node.subtree.lines k.node.tree.language depth k.field? k.node.start

theorem Cursor.linesAll_eq_flatMap (k : Cursor) (d i : Nat) (start : Length)
    (cs : List (Child Subtree)) :
    linesAll k.node.tree.language d start cs =
      ((k.node.place i start cs).filter fun c => c.subtree.info.visible).flatMap fun c =>
        (k.enter c).lines d := by
  induction cs generalizing i start with
  | nil => rfl
  | cons c cs ih =>
    rw [linesAll, Node.place, List.filter_cons, ih (i + 1)]
    split <;> rfl

theorem Cursor.line_eq (k : Cursor) (d : Nat) :
    line k.node.tree.language d k.field? k.node.start k.node.subtree =
      "".pushn ' ' (2 * d) ++ k.headline := by
  cases hfield : k.field?.bind k.node.tree.language.fieldName? <;>
    cases hmissing : k.node.subtree.info.missing <;>
      simp only [line, headline, fieldName?, Node.kind, Node.range, hfield, hmissing,
        Bool.false_eq_true, if_true, if_false, String.append_assoc]

/-- The lines of a node in terms of those of its children. -/
theorem Cursor.lines_eq (k : Cursor) (d : Nat) : k.lines d =
    if k.node.isNamed then
      close (("".pushn ' ' (2 * d) ++ k.headline) ::
        k.node.children.flatMap fun c => (k.enter c).lines (d + 1))
    else k.node.children.flatMap fun c => (k.enter c).lines d := by
  have hchildren (d : Nat) : linesAll k.node.tree.language d k.node.start k.node.subtree.children =
      k.node.children.flatMap fun c => (k.enter c).lines d :=
    k.linesAll_eq_flatMap d 0 k.node.start _
  rw [← k.line_eq, ← hchildren, ← hchildren, lines, Node.isNamed]
  cases k.node.subtree
  rfl

theorem length_close (ls : List String) : (close ls).length = ls.length := by
  rcases List.eq_nil_or_concat' ls with rfl | ⟨init, last, rfl⟩
  · rfl
  · simp [close, List.modifyLast_concat]

/-- There is a line for each visible node with a name. -/
theorem Cursor.length_lines (k : Cursor) (d : Nat) :
    (k.lines d).length = k.node.preorder.countP Node.isNamed := by
  induction k using Cursor.round_induction generalizing d with
  | h k ih =>
    have hchildren (d : Nat) : (k.node.children.flatMap fun c => (k.enter c).lines d).length =
        (k.node.children.flatMap Node.preorder).countP Node.isNamed := by
      rw [List.length_flatMap, List.countP_flatMap]
      exact congrArg List.sum (List.map_congr_left fun c hc => ih c hc d)
    rw [lines_eq, Node.preorder_eq, List.countP_cons]
    split
    · rw [length_close, List.length_cons, hchildren]
    · rw [hchildren, Nat.add_zero]

/-! ## The depth -/

/-- How much deeper the nodes under this one are written. -/
def Cursor.level (k : Cursor) : Int :=
  if k.node.isNamed && !k.node.children.isEmpty then 1 else 0

theorem Cursor.level_nonneg (k : Cursor) : 0 ≤ k.level := by
  rw [level]
  split <;> decide

theorem Page.depth_come (p : Page) (k : Cursor) :
    (p.add ⟨k, false⟩).depth = p.depth + k.level := by
  cases hnamed : k.node.isNamed <;> cases hleaf : k.node.children.isEmpty <;>
    simp [Page.add, Cursor.level, hnamed, hleaf]

theorem Page.depth_leave (p : Page) (k : Cursor) :
    (p.add ⟨k, true⟩).depth = p.depth - k.level := by
  cases hnamed : k.node.isNamed <;> cases hleaf : k.node.children.isEmpty <;>
    simp [Page.add, Cursor.level, hnamed, hleaf]

/-- A stretch of the way on which the depth does not go below where it began, and comes back to
it. -/
structure Balanced (stops : List Visit) : Prop where
  back (p : Page) : (stops.foldl Page.add p).depth = p.depth
  above (p : Page) (before : List Visit) (h : before <+: stops) :
    p.depth ≤ (before.foldl Page.add p).depth

namespace Balanced

theorem nil : Balanced [] where
  back _ := rfl
  above p before h := by
    rw [List.prefix_nil.mp h]
    exact Int.le_refl _

theorem append {as bs : List Visit} (ha : Balanced as) (hb : Balanced bs) :
    Balanced (as ++ bs) where
  back p := by rw [List.foldl_append, hb.back, ha.back]
  above p before h := by
    obtain ⟨rest, h⟩ := h
    rcases List.append_eq_append_iff.mp h with ⟨rest, hsplit, -⟩ | ⟨before, rfl, hsplit⟩
    · exact ha.above p before ⟨rest, hsplit.symm⟩
    · rw [List.foldl_append, ← ha.back p]
      exact hb.above _ before ⟨rest, hsplit.symm⟩

theorem flatMap {α : Type} {f : α → List Visit} {as : List α} (h : ∀ a ∈ as, Balanced (f a)) :
    Balanced (as.flatMap f) := by
  induction as with
  | nil => exact nil
  | cons a as ih =>
    obtain ⟨ha, has⟩ := List.forall_mem_cons.mp h
    exact ha.append (ih has)

/-- What is done to the depth where a node is come to is undone where it is left. -/
theorem enclose {stops : List Visit} (h : Balanced stops) (k : Cursor) :
    Balanced (⟨k, false⟩ :: stops ++ [⟨k, true⟩]) := by
  have hback (p : Page) :
      ((⟨k, false⟩ :: stops ++ [⟨k, true⟩] : List Visit).foldl Page.add p).depth = p.depth := by
    rw [List.foldl_append, List.foldl_cons, List.foldl_cons, List.foldl_nil, Page.depth_leave,
      h.back, Page.depth_come, Int.add_sub_cancel]
  refine ⟨hback, fun p before hbefore => ?_⟩
  rcases List.prefix_concat_iff.mp hbefore with rfl | hbefore
  · exact (hback p).ge
  rcases List.prefix_cons_iff.mp hbefore with rfl | ⟨rest, rfl, hrest⟩
  · exact Int.le_refl _
  · have habove := h.above (p.add ⟨k, false⟩) rest hrest
    have := k.level_nonneg
    rw [Page.depth_come] at habove
    rw [List.foldl_cons]
    omega

theorem round (k : Cursor) : Balanced k.round := by
  induction k using Cursor.round_induction with
  | h k ih =>
    rw [Cursor.round_eq]
    exact (flatMap ih).enclose k

end Balanced

/-! ## The text -/

theorem Cursor.headline_ne_empty (k : Cursor) : k.headline ≠ "" := by
  simp [headline, String.append_eq_empty_iff]

theorem intercalate_close (sep : String) (hls : ls ≠ []) :
    sep.intercalate (close ls) = sep.intercalate ls ++ ")" := by
  obtain ⟨init, last, rfl⟩ := (List.eq_nil_or_concat' ls).resolve_left hls
  rw [close, List.modifyLast_concat]
  by_cases hinit : init = []
  · simp [hinit]
  · simp [String.intercalate_append_of_ne_nil hinit, String.append_assoc]

/-- A page has some lines, and nothing else. -/
structure Page.Has (p : Page) (ls : List String) : Prop where
  text : p.text = "\n".intercalate ls
  eq_nil : p.text = "" → ls = []

namespace Page.Has

theorem empty : Has {} [] := ⟨rfl, fun _ => rfl⟩

/-- Where a node with a name is come to, its line is written. -/
theorem come (h : p.Has ls) (hd : p.depth = d) (hk : k.node.isNamed = true) :
    (p.add ⟨k, false⟩).Has (ls ++ ["".pushn ' ' (2 * d) ++ k.headline]) := by
  have hadd : (p.add ⟨k, false⟩).text =
      p.text ++ (if p.text.isEmpty then "" else "\n") ++ "".pushn ' ' (2 * d) ++ k.headline := by
    simp [Page.add, hk, hd]
  refine ⟨?_, fun hnil => ?_⟩
  · by_cases hls : ls = []
    · simp [hadd, h.text, hls]
    · have hne : p.text ≠ "" := fun hnil => hls (h.eq_nil hnil)
      rw [hadd, String.intercalate_append_of_ne_nil hls (List.cons_ne_nil _ _), ← h.text]
      simp [hne, String.append_assoc]
  · simp [hadd, String.append_eq_empty_iff, k.headline_ne_empty] at hnil

/-- Where it is left, the last line is closed. -/
theorem leave (h : p.Has ls) (hls : ls ≠ []) (hk : k.node.isNamed = true) :
    (p.add ⟨k, true⟩).Has (close ls) := by
  have hadd : (p.add ⟨k, true⟩).text = "\n".intercalate ls ++ ")" := by
    rw [← h.text]
    simp [Page.add, hk]
  refine ⟨by rw [hadd, intercalate_close _ hls], fun hnil => ?_⟩
  simp [hadd, String.append_eq_empty_iff] at hnil

end Page.Has

/-- On a stretch of the way that begins at some depth these lines are written. -/
def Writes (stops : List Visit) (d : Nat) (new : List String) : Prop :=
  ∀ (p : Page) (ls : List String), p.Has ls → p.depth = d → (stops.foldl Page.add p).Has (ls ++ new)

namespace Writes

/-- The rounds of some children write the lines of all of them. -/
theorem children {cs : List Node}
    (h : ∀ c ∈ cs, Writes (k.enter c).round d ((k.enter c).lines d)) :
    Writes (cs.flatMap fun c => (k.enter c).round) d (cs.flatMap fun c => (k.enter c).lines d) := by
  induction cs with
  | nil =>
    intro p ls hp hd
    simpa using hp
  | cons c cs ih =>
    intro p ls hp hd
    obtain ⟨hc, hcs⟩ := List.forall_mem_cons.mp h
    rw [List.flatMap_cons, List.flatMap_cons, List.foldl_append, ← List.append_assoc]
    exact ih hcs _ _ (hc p ls hp hd) (((Balanced.round _).back p).trans hd)

/-- A node with a name has a line of its own before those, and the last of all is closed. -/
theorem enclose (hk : k.node.isNamed = true)
    (h : ∀ c ∈ k.node.children, ∀ d, Writes (k.enter c).round d ((k.enter c).lines d)) :
    Writes (⟨k, false⟩ :: (k.node.children.flatMap fun c => (k.enter c).round) ++ [⟨k, true⟩]) d
      (close (("".pushn ' ' (2 * d) ++ k.headline) ::
        k.node.children.flatMap fun c => (k.enter c).lines (d + 1))) := by
  intro p ls hp hd
  have hline := hp.come hd hk
  rw [List.foldl_append, List.foldl_cons, List.foldl_cons, List.foldl_nil, close,
    ← List.modifyLast_append_of_right_ne_nil _ _ _ (List.cons_ne_nil _ _)]
  refine Page.Has.leave ?_ (by simp) hk
  -- the depth is raised only if there are children, but else it does not matter
  by_cases hleaf : k.node.children = []
  · simpa [hleaf] using hline
  · have hdepth : (p.add ⟨k, false⟩).depth = (d + 1 : Nat) := by
      simp [Page.depth_come, Cursor.level, hk, hleaf, hd]
    have hkids := children (fun c hc => h c hc (d + 1)) _ _ hline hdepth
    rwa [List.append_assoc] at hkids

/-- A node without a name has only the lines of its children. -/
theorem pass (hk : ¬k.node.isNamed = true)
    (h : ∀ c ∈ k.node.children, Writes (k.enter c).round d ((k.enter c).lines d)) :
    Writes (⟨k, false⟩ :: (k.node.children.flatMap fun c => (k.enter c).round) ++ [⟨k, true⟩]) d
      (k.node.children.flatMap fun c => (k.enter c).lines d) := by
  intro p ls hp hd
  have hadd (p : Page) (leaving : Bool) : p.add ⟨k, leaving⟩ = p := by simp [Page.add, hk]
  rw [List.foldl_append, List.foldl_cons, List.foldl_cons, List.foldl_nil, hadd, hadd]
  exact children h p ls hp hd

/-- A round writes the lines of the node. -/
theorem round (k : Cursor) (d : Nat) : Writes k.round d (k.lines d) := by
  induction k using Cursor.round_induction generalizing d with
  | h k ih =>
    rw [Cursor.round_eq, Cursor.lines_eq]
    split
    · rename_i hk
      exact enclose hk ih
    · rename_i hk
      exact pass hk fun c hc => ih c hc d

end Writes

/-! ## The tree in writing -/

/-- The tree in writing has the lines of its root, one for each visible node with a name.  On the
way around the tree the cursor comes to every visible node once, each before those under it, until
there is no way on; and the depth is never below zero. -/
theorem Tree.display_eq_lines (t : Tree) :
    t.display = "\n".intercalate (t.root.lines t.language 0 none Length.zero) ∧
    (t.root.lines t.language 0 none Length.zero).length =
      t.rootNode.preorder.countP Node.isNamed ∧
    (∀ before, before <+: t.rootNode.tour → 0 ≤ (before.foldl Page.add {}).depth) ∧
    (∃ v, t.rootNode.tour.getLast? = some v ∧ v.next? = none) ∧
    t.rootNode.walk.map Cursor.node = t.rootNode.preorder ∧ t.rootNode.preorder.Nodup ∧
    ∀ n, n ∈ t.rootNode.preorder ↔ t.rootNode.Shows n := by
  refine ⟨?_, (Cursor.start t.rootNode).length_lines 0, fun before h => ?_, ?_,
    t.rootNode.map_node_walk, t.rootNode.nodup_preorder, fun n => Node.mem_preorder_iff⟩
  · rw [display, Node.tour_eq_round, (Writes.round _ 0 {} [] Page.Has.empty rfl).text]
    rfl
  · rw [Node.tour_eq_round] at h
    exact (Balanced.round _).above {} before h
  · rw [Node.tour_eq_round, Cursor.round_eq]
    exact ⟨_, List.getLast?_concat, rfl⟩

set_option maxRecDepth 100000 in
example : (Language.ofGrammar 0 .hollow none).toOption.map
    (fun l => (l.parse {} (Bytes.ofString "amed") none).1.display) =
      some "(s [0, 0] - [0, 4]\n  (ERROR [0, 2] - [0, 3]))" := by
  decide +kernel

end Glr
