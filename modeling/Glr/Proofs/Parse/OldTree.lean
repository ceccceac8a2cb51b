import Glr.Parse.OldTree
import Glr.Proofs.Tree.Edit

/-!
# Glr.Proofs.Parse.OldTree

What the walk over the previous tree offers for reuse.  The walk never leaves the
text, so a subtree that is taken from it has text that goes on where the parse
stands; and it only offers what no edit touched.
-/

namespace Glr.Parse

open Subtree

variable {U : NodeRule} {size : Nat} {l : Language} {site : ReuseSite}

/-- A node of the walk lies in the text, and so do its children that were not visited. -/
structure OldNode.Sound (U : NodeRule) (size : Nat) (n : OldNode) : Prop where
  node : Kept U n.start n.node
  stop : n.start + n.node.size.bytes ≤ size
  rest : KeptAll U n.restStart n.rest
  restStop : n.restStart + width n.rest ≤ size

/-- All nodes of the walk lie in the text. -/
def OldTree.Sound (U : NodeRule) (size : Nat) (w : OldTree) : Prop := ∀ n ∈ w.path, n.Sound U size

/-- What can be reused at a place: text that no edit touched, which the automaton can take
or which may stand anywhere. -/
structure Reused (U : NodeRule) (size : Nat) (l : Language) (site : ReuseSite) (t : Subtree) :
    Prop where
  pos : 0 < t.size.bytes
  stop : site.position + t.size.bytes ≤ size
  built : U site.position t
  missing : t.info.missing = false
  noError : t.hasError = false
  leaf : t.children = [] → l.hasActions site.state t.symbol = true ∨ l.isExtra t.symbol = true
  /-- A token stands behind an extra exactly if it was found behind one. -/
  afterExtra : t.children = [] → t.info.afterExtra = site.afterExtra
  inner : t.children ≠ [] → (l.goto? site.state t.symbol).isSome = true

/-! ## Moves -/

theorem OldNode.enter_sound {t : Subtree} {start : Nat} (h : Kept U start t)
    (hs : start + t.size.bytes ≤ size) : (OldNode.enter t start).Sound U size := by
  obtain ⟨info, cs⟩ := t
  have h' := h
  rw [Kept] at h'
  exact ⟨h, hs, h'.2.2, Nat.le_trans (Nat.add_le_add_left h'.2.1 _) hs⟩

theorem OldNode.next?_sound {n child parent : OldNode} (h : n.Sound U size)
    (hn : n.next? = some (child, parent)) : child.Sound U size ∧ parent.Sound U size := by
  unfold OldNode.next? at hn
  split at hn
  · contradiction
  · rename_i c cs hrest
    obtain ⟨rfl, rfl⟩ := Prod.mk.inj (Option.some.inj hn)
    have hkept := h.rest
    have hstop := h.restStop
    rw [hrest] at hkept hstop
    rw [KeptAll] at hkept
    rw [width_cons, ← Nat.add_assoc] at hstop
    exact ⟨enter_sound hkept.1 (Nat.le_trans (Nat.le_add_right _ _) hstop),
      h.node, h.stop, hkept.2, hstop⟩

namespace OldTree

theorem ofRoot_sound {t : Subtree} (h : Kept U 0 t) : (ofRoot t).Sound U t.size.bytes := by
  intro n hn
  rw [List.mem_singleton.mp hn]
  exact OldNode.enter_sound h (by omega)

theorem resume_sound {path : List OldNode} (h : ∀ n ∈ path, n.Sound U size) :
    ∀ n ∈ resume path, n.Sound U size := by
  induction path with
  | nil => simp [resume]
  | cons parent above ih =>
    have habove : ∀ n ∈ above, n.Sound U size := fun n hn => h n (by simp [hn])
    unfold resume
    split
    · rename_i child parent' hn
      obtain ⟨hchild, hparent⟩ := OldNode.next?_sound (h parent (by simp)) hn
      intro n hm
      rcases List.mem_cons.mp hm with rfl | hm
      · exact hchild
      · rcases List.mem_cons.mp hm with rfl | hm
        · exact hparent
        · exact habove n hm
    · exact ih habove

theorem pass_sound {w : OldTree} (h : w.Sound U size) : w.pass.Sound U size := by
  unfold pass
  split
  · exact h
  · rename_i hw
    exact resume_sound fun n hn => h n (by simp [hw, hn])

theorem descend?_sound {w w' : OldTree} (h : w.Sound U size) (hd : w.descend? = some w') :
    w'.Sound U size := by
  unfold descend? at hd
  split at hd
  · contradiction
  · rename_i n above hw
    split at hd
    · rename_i child n' hn
      obtain rfl := Option.some.inj hd
      obtain ⟨hchild, hparent⟩ := OldNode.next?_sound (h n (by simp [hw])) hn
      intro m hm
      rcases List.mem_cons.mp hm with rfl | hm
      · exact hchild
      · rcases List.mem_cons.mp hm with rfl | hm
        · exact hparent
        · exact h m (by simp [hw, hm])
    · contradiction

/-! ## What is found -/

/-- A node that fits can be reused. -/
theorem reused_of_fits {n : OldNode} {external : ScannerState} (h : n.Sound U size)
    (hpos : 0 < n.node.size.bytes) (hstart : n.start = site.position)
    (hf : n.fits l site external = true) : Reused U size l site n.node := by
  obtain ⟨hkept, hstop, -, -⟩ := h
  obtain ⟨⟨info, cs⟩, start, rest, restStart⟩ := n
  rw [Kept] at hkept
  simp only [OldNode.fits, Bool.and_eq_true, Bool.not_eq_true'] at hf
  obtain ⟨⟨⟨⟨⟨hchanged, herror⟩, -⟩, hmissing⟩, -⟩, hplace⟩ := hf
  have hleaf (hc : cs = []) : info.afterExtra = site.afterExtra ∧
      (l.hasActions site.state info.symbol = true ∨ l.isExtra info.symbol = true) := by
    rw [if_pos (by rw [Subtree.isLeaf]; exact List.isEmpty_iff.mpr hc)] at hplace
    simp only [Bool.and_eq_true, Bool.or_eq_true, beq_iff_eq] at hplace
    exact ⟨hplace.1.2, hplace.2⟩
  refine ⟨hpos, hstart ▸ hstop, hstart ▸ hkept.1 hchanged, hmissing, herror,
    fun hc => (hleaf hc).2, fun hc => (hleaf hc).1, ?_⟩
  · intro hc
    rw [if_neg (by simpa [Subtree.isLeaf] using hc), Bool.and_eq_true] at hplace
    exact hplace.2

/-- A search ends with a walk in the text, and what it finds can be reused. -/
theorem reuse?_spec (l : Language) (site : ReuseSite) {w : OldTree} (h : w.Sound U size) :
    (w.reuse? l site).2.Sound U size ∧
      ∀ t, (w.reuse? l site).1 = some t → Reused U size l site t := by
  fun_induction OldTree.reuse? l site w with
  | case1 w => exact ⟨h, by simp⟩
  | case2 w => exact ⟨h, by simp⟩
  | case3 _ _ _ _ _ _ _ _ ih => exact ih (pass_sound h)
  | case4 _ _ _ _ _ _ _ _ _ hd ih => exact ih (descend?_sound h hd)
  | case5 _ _ _ _ _ _ _ _ _ ih => exact ih (pass_sound h)
  | case6 w n above hw bytes hbefore hat hfits =>
    refine ⟨pass_sound h, fun t ht => ?_⟩
    obtain rfl := Option.some.inj ht
    have hstart : n.start = site.position ∧ 0 < n.node.size.bytes := by
      simp only [Bool.or_eq_true, decide_eq_true_eq, beq_iff_eq, not_or, bytes] at hat
      omega
    exact reused_of_fits (h n (by simp [hw])) hstart.2 hstart.1 hfits
  | case7 _ _ _ _ _ _ _ _ _ hd ih => exact ih (descend?_sound h hd)
  | case8 w => exact ⟨h, by simp⟩

end OldTree

end Glr.Parse
