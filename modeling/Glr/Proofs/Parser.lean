import Glr.Parser
import Glr.Proofs.Parse.Run

/-!
# Glr.Proofs.Parser

What holds of every tree of a text, however it came about: from a parse with any limits,
with or without a previous tree, which was parsed and edited in any way before.

```
tree  =  leaves, one after another  =  the text from its start on
```

Without limits a parse ends, and it ends with the text or at the limit on reductions.
-/

namespace Glr

open Parse Subtree Run

variable {g : FlatGrammar} {l : Language} {Spans : Nat → Length → Prop} {text : Bytes}
  {old : Option Tree} {limits : Limits} {t : Tree}

/-! ## How trees come about -/

/-- The trees that a parse for a language may be given: those of its own parses, edited
or not, and any tree of another language. -/
inductive Language.Obtained (l : Language) : Tree → Prop where
  | foreign {t : Tree} (h : t.language.sameAs l = false) : l.Obtained t
  | parsed {limits : Limits} {text : Bytes} {old : Option Tree}
      (h : ∀ t, old = some t → l.Obtained t) : l.Obtained (l.parse limits text old).1
  | edited {t t' : Tree} {e : Edit} (h : l.Obtained t) (he : t.edit e = .ok t') : l.Obtained t'

theorem Language.versions_startRun (l : Language) (text : Bytes) (old : Option Tree) :
    (l.startRun text old).versions
      = [{ old := ((old.filter fun t => t.isUsable l text).map Tree.root).map OldTree.ofRoot }] := by
  unfold Language.startRun
  simp only
  split <;> rfl

theorem Language.finished_startRun (l : Language) (text : Bytes) (old : Option Tree) :
    (l.startRun text old).finished = [] := by
  unfold Language.startRun
  simp only
  split <;> rfl

theorem Tree.sameAs_of_isUsable (h : t.isUsable l text = true) : t.language.sameAs l = true := by
  rw [isUsable, Bool.and_eq_true] at h
  exact h.1

theorem Tree.lenBytes_of_isUsable (h : t.isUsable l text = true) : t.lenBytes = text.size := by
  rw [isUsable, Bool.and_eq_true] at h
  simpa using h.2

/-- A parse starts soundly if the previous tree is kept by all edits, or cannot be reused. -/
theorem Language.sound_startRun_of_usable
    (hold : ∀ t, old = some t → t.isUsable l text = true → Kept (Laid (LeafOf g l Spans)) 0 t.root) :
    (l.startRun text old).Sound g l Spans text := by
  refine ⟨fun v hv _ => ?_, fun f hf => ?_, fun _ => ?_⟩
  · rw [Language.versions_startRun] at hv
    obtain rfl := List.mem_singleton.mp hv
    refine ⟨.nil, trivial, rfl, Nat.zero_le _, by simp, by simp, by simp, ?_, Nat.zero_le _⟩
    intro o ho
    simp only [Option.map_eq_some_iff, Option.filter_eq_some_iff] at ho
    obtain ⟨root, ⟨t, ⟨ht, husable⟩, rfl⟩, rfl⟩ := ho
    rw [← Tree.lenBytes_of_isUsable husable]
    exact OldTree.ofRoot_sound (hold t ht husable)
  · rw [Language.finished_startRun] at hf
    contradiction
  · rw [Language.versions_startRun]
    exact ⟨_, List.mem_singleton_self _, rfl⟩

theorem Language.sound_startRun
    (hold : ∀ t, old = some t → t.language.sameAs l = true → Kept (Laid (LeafOf g l Spans)) 0 t.root) :
    (l.startRun text old).Sound g l Spans text :=
  Language.sound_startRun_of_usable fun t ht hu => hold t ht (Tree.sameAs_of_isUsable hu)

theorem Language.tree_parse (l : Language) (limits : Limits) (text : Bytes) (old : Option Tree) :
    (l.parse limits text old).1
      = ((l.startRun text old).loop l text limits (stepBound text)).1 := by
  cases hp : l.parse limits text old with
  | mk t events => exact (Prod.mk.inj hp).1.symm

theorem Language.result_parse_of_usable (hg : l.Sound g) (hc : Covers Spans text)
    (hold : ∀ t, old = some t → t.isUsable l text = true → Kept (Laid (LeafOf g l Spans)) 0 t.root)
    {events : List Event} (h : l.parse limits text old = (t, events)) :
    Result g l Spans text events t := by
  have hloop := (Language.sound_startRun_of_usable hold).loop hg hc limits (stepBound text)
  obtain ⟨rfl, rfl⟩ := Prod.mk.inj h
  exact hloop.mono fun _ => List.mem_reverse.mpr

theorem Language.result_parse (hg : l.Sound g) (hc : Covers Spans text)
    (hold : ∀ t, old = some t → t.language.sameAs l = true → Kept (Laid (LeafOf g l Spans)) 0 t.root)
    {events : List Event} (h : l.parse limits text old = (t, events)) :
    Result g l Spans text events t :=
  Language.result_parse_of_usable hg hc (fun t ht hu => hold t ht (Tree.sameAs_of_isUsable hu)) h

/-- Leaves may have any text. -/
def AnyText : Nat → Length → Prop := fun _ _ => True

/-- Leaves have the text that stands where they do. -/
def TextOf (text : Bytes) (start : Nat) (n : Length) : Prop :=
  n = .of (text.extract start (start + n.bytes))

theorem covers_anyText (text : Bytes) : Covers AnyText text := fun _ _ _ _ => trivial

theorem covers_textOf (text : Bytes) : Covers (TextOf text) text := by
  intro start stop hlt hle
  have hbytes : (Length.of (text.extract start stop)).bytes = stop - start := by
    simp only [Length.of, Array.size_extract]
    omega
  unfold TextOf
  rw [hbytes, Nat.add_sub_of_le (Nat.le_of_lt hlt)]

theorem exact_leafOf : Exact (LeafOf g l (TextOf text)) text := by
  intro s i h
  cases h with
  | text _ hspans _ _ => exact hspans
  | empty hsize _ =>
    rw [hsize, bytes_zero, Nat.add_zero, Array.extract_eq_empty_of_le (by omega), Length.of_empty]

theorem anywhere_leafOf : Anywhere (LeafOf g l AnyText) := by
  intro s s' i h
  cases h with
  | text hpos _ hend hshown => exact .text hpos trivial hend hshown
  | empty hsize hwhy => exact .empty hsize hwhy

/-- However a tree of a language came about, what no edit touched is laid out. -/
theorem Language.Obtained.kept (hg : l.Sound g) (h : l.Obtained t)
    (hl : t.language.sameAs l = true) : Kept (Laid (LeafOf g l AnyText)) 0 t.root := by
  induction h with
  | foreign h =>
    rw [h] at hl
    contradiction
  | parsed _ ih =>
    exact passedOn_laid.kept (Language.result_parse hg (covers_anyText _) ih (Prod.eta _).symm).laid
  | edited _ he ih =>
    rw [Tree.language_of_edit he] at hl
    exact Tree.kept_of_edit (fun _ _ _ h => h.move anywhere_leafOf) (ih hl) he

/-! ## The text of a tree -/

/-- An error is shown under a symbol of its own. -/
theorem not_emptied_errorSymbol (hg : l.Sound g) : ¬g.Emptied errorSymbol := by
  rintro ⟨x, hx, rfl | ⟨p, hp, st, hst, -, hlabel⟩⟩
  · generalize he : errorSymbol = x at hx
    obtain ⟨hp, -⟩ := hx
    have hrule := hg.isNonterminal_of_isRule (hg.grammar.productions _ hp).lhs
    rw [← he, isNonterminal_errorSymbol hg] at hrule
    contradiction
  · exact ne_errorSymbol_of_isShown hg.grammar.size_le
      (((hg.grammar.productions p hp).steps st hst).label _ hlabel) rfl

/-- How a tree stands in a text: its leaves fill it from the start of the text on without
gaps, and a leaf without text is there for a reason. -/
structure Tree.Fits (g : FlatGrammar) (text : Bytes) (t : Tree) : Prop where
  tiles : Tiles Length.zero t.root.size t.leaves
  size_le : t.lenBytes ≤ text.size
  unparse : t.unparse text = text.extract 0 t.lenBytes
  leaf : ∀ leaf ∈ t.leaves, leaf.range.startByte < leaf.range.endByte ∨ leaf.missing = true
    ∨ leaf.symbol = errorSymbol ∨ g.Emptied leaf.symbol

/-- A leaf of a tree that is laid out ends no earlier than it starts. -/
theorem Parse.Result.leaf_le {events : List Event} (h : Result g l Spans text events t) :
    ∀ leaf ∈ t.leaves, leaf.range.startByte ≤ leaf.range.endByte := by
  intro leaf hm
  have hlaid : Laid (LeafOf g l Spans) Length.zero.bytes t.root := h.laid
  obtain ⟨start, info, -, rfl⟩ := rule_of_mem_leavesAt hlaid leaf hm
  exact Nat.le_add_right _ _

theorem Parse.Result.fits {events : List Event} (h : Result g l Spans text events t) :
    t.Fits g text := by
  have hlaid : Laid (LeafOf g l Spans) Length.zero.bytes t.root := h.laid
  have htiles := tiles_leavesAt hlaid
  rw [Length.zero_add] at htiles
  refine ⟨htiles, h.size_le, ?_, fun leaf hm => ?_⟩
  · have hfold := foldl_unparse htiles h.leaf_le h.size_le
    rwa [bytes_zero, Array.extract_eq_empty_of_le (by omega)] at hfold
  · obtain ⟨start, info, hinfo, rfl⟩ := rule_of_mem_leavesAt hlaid leaf hm
    cases hinfo with
    | text hpos _ _ _ => exact .inl (Nat.lt_add_of_pos_right hpos)
    | empty _ hwhy => exact .inr hwhy

/-- Every node stands where the text before it says. -/
theorem Parse.Result.points {events : List Event} (h : Result g l (TextOf text) text events t)
    {n : Node} (hn : t.HasNode n) :
    n.range.startPoint = extentOf (text.extract 0 n.range.startByte)
      ∧ n.range.endPoint = extentOf (text.extract 0 n.range.endByte) := by
  obtain ⟨hstart, hlaid⟩ := hn.located exact_leafOf h.laid
  exact ⟨congrArg Length.extent hstart, congrArg Length.extent (hlaid.located exact_leafOf hstart)⟩

/-- No text is lost, doubled or moved on the way from a text to its tree. -/
theorem Language.parse_fits {handle : Nat} {grammar : Grammar} {scanner : Option Scanner}
    (h : Language.ofGrammar handle grammar scanner = .ok l) (limits : Limits) (text : Bytes)
    (hold : ∀ t, old = some t → l.Obtained t) :
    ∃ g, FlatGrammar.ofGrammar grammar = .ok g ∧ (l.parse limits text old).1.Fits g text ∧
      (old = none → ∀ n, (l.parse limits text old).1.HasNode n →
        n.range.startPoint = extentOf (text.extract 0 n.range.startByte)
          ∧ n.range.endPoint = extentOf (text.extract 0 n.range.endByte)) := by
  obtain ⟨g, hflat, hg⟩ := Language.ofGrammar_sound h
  refine ⟨g, hflat, ?_, ?_⟩
  · exact (Language.result_parse hg (covers_anyText text)
      (fun t ht hl => (hold t ht).kept hg hl) (Prod.eta _).symm).fits
  · rintro rfl n hn
    exact (Language.result_parse hg (covers_textOf text) (by simp) (Prod.eta _).symm).points hn

/-- A grammar in which a node may have nothing but empty productions. -/
def Grammar.hollow : Grammar :=
  { name := "hollow", extras := some [] : Grammar }
    |>.addRule "s" (.choice [.seq [.string "a", .sym "_t", .string "d"],
        .seq [.string "b", .sym "_t", .string "e"]])
    |>.addRule "_t" (.choice [.sym "_y", .seq [.sym "_x", .string "e", .string "f"]])
    |>.addRule "_y" (.seq [.sym "_x", .sym "_w"])
    |>.addRule "_x" (.choice [.blank, .string "m"])
    |>.addRule "_w" (.choice [.prec 1 .blank, .string "n"])

/-- Whether some leaf of a tree is an error node without text, and not the root. -/
def Tree.hasHollowError (t : Tree) : Bool :=
  !t.root.children.isEmpty && t.leaves.any fun leaf =>
    leaf.range.startByte == leaf.range.endByte && !leaf.missing && leaf.symbol == errorSymbol

set_option maxRecDepth 100000 in
theorem Grammar.exists_hollow : ∃ l, Language.ofGrammar 0 .hollow none = .ok l ∧
    (l.parse {} (Bytes.ofString "ad") none).1.complete = true ∧
    (l.parse { maxOperations := some 6 } (Bytes.ofString "ae") none).1.hasHollowError = true := by
  have h : (Language.ofGrammar 0 .hollow none).toOption.any (fun l =>
      (l.parse {} (Bytes.ofString "ad") none).1.complete
        && (l.parse { maxOperations := some 6 } (Bytes.ofString "ae") none).1.hasHollowError)
      = true := by
    decide +kernel
  obtain ⟨l, hl, hp⟩ := exists_ok h
  rw [Bool.and_eq_true] at hp
  exact ⟨l, hl, hp⟩

theorem Language.parse_fits_hollow : ∃ l g, Language.ofGrammar 0 .hollow none = .ok l ∧
    FlatGrammar.ofGrammar .hollow = .ok g ∧
    (l.parse { maxOperations := some 6 } (Bytes.ofString "ae") none).1.Fits g
      (Bytes.ofString "ae") := by
  obtain ⟨l, hl, -⟩ := Grammar.exists_hollow
  obtain ⟨g, hg, hfits, -⟩ := Language.parse_fits hl { maxOperations := some 6 }
    (Bytes.ofString "ae") (show ∀ t, none = some t → l.Obtained t by simp)
  exact ⟨l, g, hl, hg, hfits⟩

/-- Hidden nodes of empty productions leave nothing in the error node around them, which is
then a leaf without text. -/
theorem Language.exists_hollow_leaf : ∃ l g, Language.ofGrammar 0 .hollow none = .ok l ∧
    FlatGrammar.ofGrammar .hollow = .ok g ∧
    (l.parse { maxOperations := some 6 } (Bytes.ofString "ae") none).1.root.children ≠ [] ∧
    ∃ leaf ∈ (l.parse { maxOperations := some 6 } (Bytes.ofString "ae") none).1.leaves,
      ¬(leaf.range.startByte < leaf.range.endByte ∨ leaf.missing = true
        ∨ g.Emptied leaf.symbol) := by
  obtain ⟨l, hl, -, hleaf⟩ := Grammar.exists_hollow
  obtain ⟨g, hflat, hg⟩ := Language.ofGrammar_sound hl
  simp only [Tree.hasHollowError, Bool.and_eq_true, List.any_eq_true, Bool.not_eq_true', beq_iff_eq,
    List.isEmpty_eq_false_iff] at hleaf
  obtain ⟨hroot, leaf, hm, ⟨hempty, hmissing⟩, hsymbol⟩ := hleaf
  refine ⟨l, g, hl, hflat, hroot, leaf, hm, ?_⟩
  rw [hsymbol, hempty, hmissing]
  rintro (hlt | hmissing | hemptied)
  · exact Nat.lt_irrefl _ hlt
  · exact Bool.false_ne_true hmissing
  · exact not_emptied_errorSymbol hg hemptied

/-- A complete tree has the whole text, unless a hypothesis that made too many reductions
in one place is the best one: then the tree is an error node around what it had. -/
theorem Language.whole_of_complete {handle : Nat} {grammar : Grammar} {scanner : Option Scanner}
    (h : Language.ofGrammar handle grammar scanner = .ok l) (limits : Limits) (text : Bytes)
    (hold : ∀ t, old = some t → l.Obtained t) {events : List Event}
    (hp : l.parse limits text old = (t, events)) (hc : t.complete = true) :
    t.lenBytes = text.size ∧ t.unparse text = text ∨
      t.lenBytes < text.size ∧ t.unparse text = text.extract 0 t.lenBytes ∧
        t.root.isError = true ∧ ∃ i, .reductionLimit i ∈ events := by
  obtain ⟨g, -, hg⟩ := Language.ofGrammar_sound h
  have hresult := Language.result_parse hg (covers_anyText text)
    (fun t ht hl => (hold t ht).kept hg hl) hp
  have hunparse := hresult.fits.unparse
  rcases Nat.eq_or_lt_of_le hresult.size_le with hfull | hlt
  · refine .inl ⟨hfull, ?_⟩
    rw [hunparse, Tree.lenBytes, hfull, Array.extract_size]
  · refine .inr ⟨hlt, hunparse, ?_⟩
    exact (hresult.full hc).resolve_left (Nat.ne_of_lt hlt)

theorem Language.whole_of_complete_hollow : ∃ l, Language.ofGrammar 0 .hollow none = .ok l ∧
    (l.parse {} (Bytes.ofString "ad") none).1.complete = true ∧
    (l.parse {} (Bytes.ofString "ad") none).1.unparse (Bytes.ofString "ad")
      = (Bytes.ofString "ad").extract 0 (l.parse {} (Bytes.ofString "ad") none).1.lenBytes := by
  obtain ⟨l, hl, hc, -⟩ := Grammar.exists_hollow
  refine ⟨l, hl, hc, ?_⟩
  rcases Language.whole_of_complete hl {} _ (show ∀ t, none = some t → l.Obtained t by simp)
    (Prod.eta _).symm hc with ⟨hlen, hwhole⟩ | ⟨-, hprefix, -⟩
  · rw [hwhole, hlen, Array.extract_size]
  · exact hprefix

/-- Given the steps, a parse without limits goes on until no hypothesis is left, and then it has
an outcome. -/
theorem Language.loop_ends {handle : Nat} {grammar : Grammar} {scanner : Option Scanner}
    (h : Language.ofGrammar handle grammar scanner = .ok l) {text : Bytes}
    (hold : ∀ t, old = some t → l.Obtained t) {fuel : Nat} (hfuel : stepBound text ≤ fuel) :
    ((l.startRun text old).loop l text {} fuel).2.versions = [] ∧
      ((l.startRun text old).loop l text {} fuel).1.complete = true := by
  obtain ⟨g, -, hg⟩ := Language.ofGrammar_sound h
  refine (Language.sound_startRun fun t ht hl => (hold t ht).kept hg hl).loop_ends hg
    (covers_anyText text) ?_ ?_ (Nat.lt_of_lt_of_le (rankOf_lt_stepBound text _) hfuel)
  · rw [Language.versions_startRun]
    intro v hv
    rw [List.mem_singleton.mp hv]
  · rw [Language.versions_startRun]
    exact (by decide : 1 ≤ maxVersions)

theorem Language.complete_parse {handle : Nat} {grammar : Grammar} {scanner : Option Scanner}
    (h : Language.ofGrammar handle grammar scanner = .ok l) (text : Bytes)
    (hold : ∀ t, old = some t → l.Obtained t) : (l.parse {} text old).1.complete = true := by
  rw [Language.tree_parse]
  exact (Language.loop_ends h hold (Nat.le_refl _)).2

/-- Every parse without limits comes to an end: after finitely many steps no hypothesis is
alive, and the best outcome gives the tree. -/
theorem Language.parse_ends {handle : Nat} {grammar : Grammar} {scanner : Option Scanner}
    (h : Language.ofGrammar handle grammar scanner = .ok l) (text : Bytes)
    (hold : ∀ t, old = some t → l.Obtained t) :
    (∀ fuel, stepBound text ≤ fuel →
        ((l.startRun text old).loop l text {} fuel).2.versions = [] ∧
        ((l.startRun text old).loop l text {} fuel).1.complete = true) ∧
      (l.parse {} text old).1.complete = true :=
  ⟨fun _ hfuel => Language.loop_ends h hold hfuel, Language.complete_parse h text hold⟩

theorem Language.parse_ends_hollow : ∃ l, Language.ofGrammar 0 .hollow none = .ok l ∧
    (l.parse {} (Bytes.ofString "ad") (some (l.parse {} (Bytes.ofString "be") none).1)).1.complete
      = true := by
  obtain ⟨l, hl, -⟩ := Grammar.exists_hollow
  refine ⟨l, hl, (Language.parse_ends hl _ ?_).2⟩
  rintro t ht
  rw [← Option.some.inj ht]
  exact .parsed (by simp)

end Glr
