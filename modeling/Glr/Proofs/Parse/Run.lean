import Glr.Proofs.Parse.Condense
import Glr.Proofs.Parse.Version

/-!
# Glr.Proofs.Parse.Run

What holds of a parse at any time, and of its tree.  Every live hypothesis has the text
up to its position, and every outcome has the whole text, unless too many reductions
ended it:

```
tree  =  an outcome, or what a live hypothesis has  =  text from its start on
```

Some hypothesis is alive as long as there is no outcome.

A parse ends because every way on of a hypothesis lowers its measure:

```
measure  =  text left · 65536  +  reductions left in this place
            +  a token may be put in  +  nodes may be given up  +  there is a previous tree
```

A step replaces one hypothesis by some of lower measure, however many, and condensing
keeps at most `maxVersions` of all.  So the measures in decreasing order, read as the
digits of a number, make a number that falls with every step.
-/

namespace Glr.Parse

open Subtree Run

variable {g : FlatGrammar} {l : Language} {Spans : Nat → Length → Prop} {text : Bytes}
  {r r' : Run} {v w : Version} {t : Subtree} {i : Nat}

/-- What holds of an outcome: it has the text from the start on, and all of it, unless the
limit on reductions was reached. -/
structure Outcome (g : FlatGrammar) (l : Language) (Spans : Nat → Length → Prop) (text : Bytes)
    (events : List Event) (root : Subtree) : Prop where
  laid : Laid (LeafOf g l Spans) 0 root
  size_le : root.size.bytes ≤ text.size
  full : root.size.bytes = text.size ∨
    root.isError = true ∧ ∃ i, Event.reductionLimit i ∈ events

theorem Outcome.mono {es fs : List Event} {root : Subtree} (h : Outcome g l Spans text es root)
    (hs : ∀ e ∈ es, e ∈ fs) : Outcome g l Spans text fs root where
  laid := h.laid
  size_le := h.size_le
  full := h.full.imp_right fun ⟨he, i, hi⟩ => ⟨he, i, hs _ hi⟩

/-- What holds of a parse at any time. -/
structure Run.Sound (g : FlatGrammar) (l : Language) (Spans : Nat → Length → Prop) (text : Bytes)
    (r : Run) : Prop where
  versions : ∀ v ∈ r.versions, v.halted = false → v.Sound g l Spans text
  finished : ∀ f ∈ r.finished, Outcome g l Spans text r.events f.root
  alive : r.finished = [] → ∃ v ∈ r.versions, v.halted = false

/-! ## Outcomes -/

/-- At the end of the text nothing is left. -/
theorem Version.Sound.position_eq (h : v.Sound g l Spans text)
    (hl : v.lookahead = some t) (hs : t.symbol = endSymbol) : v.position.bytes = text.size := by
  cases h.lookahead t hl with
  | atEnd _ _ _ hend => exact Nat.le_antisymm h.position hend
  | text _ _ hsymbol => exact absurd hs hsymbol

/-- Everything that a hypothesis has as an error. -/
theorem Version.Sound.givenUp (h : v.Sound g l Spans text) {events : List Event}
    (hfull : v.position.bytes = text.size ∨ ∃ i, Event.reductionLimit i ∈ events) :
    Outcome g l Spans text events (v.givenUp l).root := by
  obtain ⟨hlaid, hsize⟩ := laid_errorOf 0 recoveryCost h.laid
  have hbytes : (v.givenUp l).root.size.bytes = v.position.bytes := by
    rw [← h.span, ← hsize]
    rfl
  refine ⟨hlaid, by rw [hbytes]; exact h.position, ?_⟩
  rw [hbytes]
  exact hfull.imp_right fun hi => ⟨by simp [Version.givenUp, Subtree.error, Subtree.node,
    Subtree.isError, Subtree.symbol, Subtree.info], hi⟩

/-- Only at the end of the text there is no way on from an error. -/
theorem symbol_eq_end_of_recoveries (h : v.recoveries l t = []) : t.symbol = endSymbol := by
  by_contra hs
  simp [Version.recoveries, hs] at h

theorem Halts.outcome (hg : l.Sound g) (h : v.Sound g l Spans text) (hl : v.lookahead = some t)
    {events : List Event} {f : Finished} (he : Halts l v t events f) :
    Outcome g l Spans text events f.root := by
  cases he with
  | accept hp ha =>
    have ha := mem_actions_of_accept ha
    have hfull := h.position_eq hl (hg.eq_end_of_accept ha)
    have hlaid := h.laid
    have hspan := h.span
    rw [hp, List.append_nil] at hlaid hspan
    obtain ⟨hroot, hsize⟩ := laid_rootOf hg h.stacked hlaid ha v.errorCost
    rw [hspan] at hsize
    exact ⟨hroot, by rw [hsize]; exact h.position, .inl (by rw [hsize]; exact hfull)⟩
  | noRecovery hr =>
    exact h.givenUp (.inl (h.position_eq hl (symbol_eq_end_of_recoveries hr)))
  | limit _ hi => exact h.givenUp (.inr ⟨_, hi⟩)

theorem Ends.outcome (hg : l.Sound g) (h : v.Sound g l Spans text) (hl : v.lookahead = some t)
    {events : List Event} {f : Finished} (he : Ends l v t events f) :
    Outcome g l Spans text events f.root := by
  cases he with
  | now he => exact he.outcome hg h hl
  | flush _ _ he =>
    obtain ⟨_, _, hflush⟩ := Version.flush_eq (l := l) v
    exact he.outcome hg (h.flush hg) (by rw [hflush]; exact hl)

/-! ## Steps -/

/-- The hypothesis that is furthest behind is a live one. -/
theorem next?_eq_some (h : r.next? = some i) :
    ∃ v, r.versions[i]? = some v ∧ v.halted = false := by
  unfold Run.next? at h
  obtain ⟨⟨v, j⟩, hbest, rfl⟩ := Option.map_eq_some_iff.mp h
  obtain ⟨hmem, hlive⟩ := List.mem_filter.mp (mem_of_firstBest? hbest)
  exact ⟨v, List.mem_zipIdx_iff_getElem?.mp hmem, by simpa using hlive⟩

theorem next?_eq_none (h : r.next? = none) : ∀ v ∈ r.versions, v.halted = true := by
  intro v hv
  unfold Run.next? at h
  have hnil := firstBest?_eq_none_iff.mp (Option.map_eq_none_iff.mp h)
  obtain ⟨i, hi⟩ := List.mem_iff_getElem?.mp hv
  have := List.filter_eq_nil_iff.mp hnil (v, i) (List.mem_zipIdx_iff_getElem?.mpr hi)
  simpa using this

/-- What a hypothesis becomes keeps the parse sound. -/
theorem Run.Sound.changes (hg : l.Sound g) (h : r.Sound g l Spans text)
    (hi : i < r.versions.length) (hw : w.Sound g l Spans text) (hl : w.lookahead = some t)
    (hc : Changes (Next l w t) (Ends l w t) r i r') : r'.Sound g l Spans text := by
  obtain ⟨first, rest, outcomes, hv, hgain⟩ := hc
  refine ⟨fun v hm hlive => ?_, fun f hf => ?_, fun hnil => ?_⟩
  · rw [hv] at hm
    have hnew (hm : v ∈ first :: rest) : v.Sound g l Spans text :=
      (hgain.next v hm hlive).sound hg hw hl
    rcases List.mem_append.mp hm with hm | hm
    · rcases List.mem_or_eq_of_mem_set hm with hm | rfl
      · exact h.versions v hm hlive
      · exact hnew (by simp)
    · exact hnew (by simp [hm])
  · rw [hgain.finished] at hf
    rcases List.mem_append.mp hf with hf | hf
    · exact (h.finished f hf).mono hgain.events
    · exact (hgain.ends f hf).outcome hg hw hl
  · rw [hgain.finished, List.append_eq_nil_iff] at hnil
    refine ⟨first, ?_, ?_⟩
    · rw [hv]
      exact List.mem_append_left _ (List.mem_set hi _)
    · by_contra hh
      exact hgain.halted first (by simp) (by simpa using hh) hnil.2

/-- A step keeps a parse sound, and what it did is known. -/
theorem Run.Sound.step (hg : l.Sound g) (hc : Covers Spans text) (h : r.Sound g l Spans text)
    (hn : r.next? = some i) :
    (r.step l text i).Sound g l Spans text ∧ ∃ v w t,
      r.versions[i]? = some v ∧ v.Sound g l Spans text ∧ Fetched l text v t w ∧
        Changes (Next l w t) (Ends l w t) r i (r.step l text i) := by
  obtain ⟨v, hv, hlive⟩ := next?_eq_some hn
  have hsound := h.versions v (List.mem_of_getElem? hv) hlive
  obtain ⟨t, w, hf, hchanges⟩ := changes_step hv hlive fun t w hf => by
    have hw := (hf.sound hg hc hsound).1
    exact ⟨hw.reducible hg t, (hw.flush hg).reducible hg t⟩
  obtain ⟨hw, hl⟩ := hf.sound hg hc hsound
  exact ⟨h.changes hg (List.getElem?_eq_some_iff.mp hv).1 hw hl hchanges,
    v, w, t, hv, hsound, hf, hchanges⟩

theorem Run.Sound.condense (h : r.Sound g l Spans text) :
    Run.Sound g l Spans text { r with versions := condense r.versions r.finished } := by
  refine ⟨fun v hv hl => h.versions v (mem_of_mem_condense hv).1 hl, h.finished, fun hnil => ?_⟩
  have hne := condense_ne_nil (h.alive hnil)
  simp only at hnil
  rw [← hnil] at hne
  obtain ⟨v, hv⟩ := List.exists_mem_of_ne_nil _ hne
  exact ⟨v, hv, (mem_of_mem_condense hv).2⟩

/-! ## Trees -/

/-- The tree of a parse: it has the text from the start on, and all of it if it is
complete, unless the limit on reductions was reached. -/
structure Result (g : FlatGrammar) (l : Language) (Spans : Nat → Length → Prop) (text : Bytes)
    (events : List Event) (t : Tree) : Prop where
  language : t.language = l
  laid : Laid (LeafOf g l Spans) 0 t.root
  size_le : t.root.size.bytes ≤ text.size
  full : t.complete = true → t.root.size.bytes = text.size ∨
    t.root.isError = true ∧ ∃ i, Event.reductionLimit i ∈ events

theorem Run.Sound.partialTree (h : r.Sound g l Spans text) (events : List Event) :
    Result g l Spans text events (r.partialTree l) := by
  unfold Run.partialTree
  simp only
  split
  · rename_i v hv
    obtain ⟨hmem, hlive⟩ := List.mem_filter.mp (mem_of_firstBest? hv)
    have hsound := h.versions v hmem (by simpa using hlive)
    obtain ⟨hlaid, hsize⟩ := laid_errorOf 0 0 hsound.laid
    exact ⟨rfl, hlaid, by rw [hsize, hsound.span]; exact hsound.position, by simp⟩
  · obtain ⟨hlaid, hsize⟩ := laid_errorOf (l := l) 0 0
      (show LaidList (LeafOf g l Spans) 0 [] from trivial)
    exact ⟨rfl, hlaid, by rw [hsize]; exact Nat.zero_le _, by simp⟩

theorem Run.Sound.bestTree (h : r.Sound g l Spans text) :
    Result g l Spans text r.events (r.bestTree l) := by
  unfold Run.bestTree
  split
  · rename_i f hf
    have hout := h.finished f (mem_of_firstBest? hf)
    exact ⟨rfl, hout.laid, hout.size_le, fun _ => hout.full⟩
  · exact h.partialTree _

theorem Result.mono {es fs : List Event} {t : Tree} (h : Result g l Spans text es t)
    (hs : ∀ e ∈ es, e ∈ fs) : Result g l Spans text fs t where
  language := h.language
  laid := h.laid
  size_le := h.size_le
  full := fun hc => (h.full hc).imp_right fun ⟨he, i, hi⟩ => ⟨he, i, hs _ hi⟩

/-- However many steps a parse takes, its tree has the text from the start on. -/
theorem Run.Sound.loop (hg : l.Sound g) (hc : Covers Spans text) (limits : Limits) (fuel : Nat)
    (h : r.Sound g l Spans text) :
    Result g l Spans text (r.loop l text limits fuel).2.events (r.loop l text limits fuel).1 := by
  induction fuel generalizing r with
  | zero => exact h.partialTree _
  | succ fuel ih =>
    rw [Run.loop]
    split
    · exact h.partialTree _
    · split
      · exact h.bestTree.mono fun _ he => List.mem_cons_of_mem _ he
      · rename_i i hn
        have hr : Run.Sound g l Spans text
            { r with stats := { r.stats with operations := r.stats.operations + 1 } } :=
          ⟨h.versions, h.finished, h.alive⟩
        exact ih (hr.step hg hc hn).1.condense

end Glr.Parse

namespace Glr.Parse

open Subtree Run

/-! ## Digits -/

/-- The number with some digits, the first of `k` digits first; a digit that is missing
counts less than a zero. -/
def numeral (base : Nat) : Nat → List Nat → Nat
  | 0, _ => 0
  | _ + 1, [] => 0
  | k + 1, d :: ds => (d + 1) * base ^ k + numeral base k ds

theorem numeral_lt {base : Nat} {ds : List Nat} (hpos : 0 < base) (h : ∀ d ∈ ds, d + 1 < base)
    (k : Nat) : numeral base k ds < base ^ k := by
  induction k generalizing ds with
  | zero => simp [numeral]
  | succ k ih =>
    cases ds with
    | nil => exact Nat.pow_pos hpos
    | cons d ds =>
      have hd := h d (by simp)
      have hrest := ih fun y hy => h y (List.mem_cons_of_mem d hy)
      calc (d + 1) * base ^ k + numeral base k ds
          < (d + 1) * base ^ k + base ^ k := Nat.add_lt_add_left hrest _
        _ = (d + 2) * base ^ k := (Nat.succ_mul _ _).symm
        _ ≤ base * base ^ k := Nat.mul_le_mul_right _ hd
        _ = base ^ (k + 1) := (Nat.pow_succ' ..).symm

/-- A number falls if from some digit on it has fewer large digits. -/
theorem numeral_lt_numeral {base x : Nat} {ds es : List Nat} (hpos : 0 < base)
    (hds : ds.Pairwise (· ≥ ·)) (hes : es.Pairwise (· ≥ ·)) (hb : ∀ e ∈ es, e + 1 < base) {k : Nat}
    (hk : ds.length ≤ k) (hle : ∀ y, x ≤ y → es.countP (y ≤ ·) ≤ ds.countP (y ≤ ·))
    (hlt : es.countP (x ≤ ·) < ds.countP (x ≤ ·)) :
    numeral base k es < numeral base k ds := by
  induction ds generalizing es k with
  | nil => simp at hlt
  | cons d ds ih =>
    obtain ⟨k, rfl⟩ : ∃ n, k = n + 1 := ⟨k - 1, by simp at hk; omega⟩
    rw [List.pairwise_cons] at hds
    have hxd : x ≤ d := by
      obtain ⟨y, hy, hxy⟩ := List.countP_pos_iff.mp (Nat.zero_lt_of_lt hlt)
      have hxy : x ≤ y := by simpa using hxy
      rcases List.mem_cons.mp hy with rfl | hy
      · exact hxy
      · exact Nat.le_trans hxy (hds.1 y hy)
    cases es with
    | nil =>
      show 0 < (d + 1) * base ^ k + numeral base k ds
      exact Nat.add_pos_left (Nat.mul_pos (Nat.succ_pos d) (Nat.pow_pos hpos)) _
    | cons e es =>
      rw [List.pairwise_cons] at hes
      have hrest := numeral_lt hpos (fun y hy => hb y (List.mem_cons_of_mem e hy)) k
      have hed : e ≤ d := by
        by_contra hde
        have hcount := hle e (by omega)
        have hzero : (d :: ds).countP (e ≤ ·) = 0 := by
          rw [List.countP_eq_zero]
          intro y hy
          rcases List.mem_cons.mp hy with rfl | hy
          · simpa using hde
          · have := hds.1 y hy
            simp only [decide_eq_true_eq]
            omega
        rw [hzero, List.countP_cons] at hcount
        simp at hcount
      rcases Nat.lt_or_eq_of_le hed with hed | rfl
      · calc (e + 1) * base ^ k + numeral base k es
            < (e + 1) * base ^ k + base ^ k := Nat.add_lt_add_left hrest _
          _ = (e + 2) * base ^ k := (Nat.succ_mul _ _).symm
          _ ≤ (d + 1) * base ^ k := Nat.mul_le_mul_right _ (Nat.succ_le_succ hed)
          _ ≤ (d + 1) * base ^ k + numeral base k ds := Nat.le_add_right _ _
      · have hcons (y : Nat) (as : List Nat) : (e :: as).countP (y ≤ ·)
            = as.countP (y ≤ ·) + if y ≤ e then 1 else 0 := by
          rw [List.countP_cons]
          simp
        refine Nat.add_lt_add_left (ih hds.2 hes.2 (fun y hy => hb y (by simp [hy]))
          (Nat.le_of_succ_le_succ hk) ?_ ?_) _
        · intro y hy
          have := hle y hy
          rw [hcons, hcons] at this
          omega
        · rw [hcons, hcons] at hlt
          omega

/-! ## The measure of a hypothesis -/

variable {g : FlatGrammar} {l : Language} {Spans : Nat → Length → Prop} {text : Bytes}
  {r r' : Run} {v w : Version} {t : Subtree} {i : Nat}

/-- What a hypothesis can still do in its place, text apart. -/
def Version.chances (v : Version) : Nat :=
  (maxReductions - v.reductions) + (v.missingAt != some v.position.bytes).toNat
    + (v.recoveredAt != some v.position.bytes).toNat + v.old.isSome.toNat

/-- What a hypothesis can still do. -/
def Version.measure (text : Bytes) (v : Version) : Nat :=
  (text.size - v.position.bytes) * 65536 + v.chances

theorem Version.chances_le (v : Version) : v.chances ≤ 4099 := by
  have h₁ := Bool.toNat_le (v.missingAt != some v.position.bytes)
  have h₂ := Bool.toNat_le (v.recoveredAt != some v.position.bytes)
  have h₃ := Bool.toNat_le v.old.isSome
  unfold Version.chances maxReductions
  omega

theorem Version.measure_lt (text : Bytes) (v : Version) :
    v.measure text + 1 < (text.size + 1) * 65536 := by
  have := v.chances_le
  unfold Version.measure
  omega

/-- Finding the token takes no chance. -/
theorem Fetched.measure (h : Fetched l text v t w) : w.measure text = v.measure text := by
  cases h with
  | kept => rfl
  | reused _ ho =>
    unfold Version.measure Version.chances
    simp [ho]
  | lexed _ ho =>
    unfold Version.measure Version.chances
    cases ho with
    | not => rfl
    | inVain ho _ => simp [ho]

/-- Taking text lowers the measure, whatever else it changes. -/
theorem measure_lt_of_position (hpos : v.position.bytes < w.position.bytes)
    (hstop : w.position.bytes ≤ text.size) : w.measure text < v.measure text := by
  have := w.chances_le
  unfold Version.measure
  omega

/-- What leaves the position takes a chance. -/
theorem measure_lt_of_chances (hpos : w.position = v.position) (h : w.chances < v.chances) :
    w.measure text < v.measure text := by
  unfold Version.measure
  rw [hpos]
  omega

theorem Version.Sound.position_lt (h : v.Sound g l Spans text) (hl : v.lookahead = some t)
    (hs : t.symbol ≠ endSymbol) : v.position.bytes < (v.position + t.size).bytes ∧
      (v.position + t.size).bytes ≤ text.size := by
  obtain ⟨hpos, hstop, -⟩ := h.text_of_ne_end hl hs
  exact ⟨Nat.lt_add_of_pos_right hpos, hstop⟩

/-- Each way on from an error is taken at most once in one place, or skips text. -/
theorem measure_recoveries (h : v.Sound g l Spans text) (hl : v.lookahead = some t)
    (hw : w ∈ v.recoveries l t) : w.measure text < v.measure text := by
  cases Recovers.of_mem hw with
  | insert _ _ hm =>
    refine measure_lt_of_chances rfl ?_
    simp only [Version.chances, Version.inserted, Version.push, bne_self_eq_false, bne_iff_ne.mpr hm,
      Bool.toNat_false, Bool.toNat_true]
    omega
  | reset hr =>
    refine measure_lt_of_chances rfl ?_
    simp only [Version.chances, Version.reset, Version.push, bne_self_eq_false, bne_iff_ne.mpr hr,
      Bool.toNat_false, Bool.toNat_true]
    omega
  | skip hs =>
    obtain ⟨hpos, hstop⟩ := h.position_lt hl hs
    exact measure_lt_of_position hpos hstop

theorem Acts.measure (hg : l.Sound g) (h : v.Sound g l Spans text) (hl : v.lookahead = some t)
    (ha : Acts l v t w) : w.measure text < v.measure text := by
  cases ha with
  | shift ha =>
    obtain ⟨hpos, hstop⟩ := h.position_lt hl (ne_end_of_mem_actionsFor hg ha)
    exact measure_lt_of_position hpos hstop
  | reduce _ _ hn hw =>
    obtain ⟨stack, external, precedence, rfl⟩ := Version.reduce_eq hw
    refine measure_lt_of_chances rfl ?_
    unfold Version.chances
    simp only
    omega
  | shiftExtra _ he =>
    obtain ⟨hpos, hstop⟩ := h.position_lt hl (ne_end_of_isShiftableExtra he)
    exact measure_lt_of_position hpos hstop
  | drop _ ht =>
    have hold := h.inner t hl (by simpa [Subtree.isLeaf] using ht)
    refine measure_lt_of_chances rfl ?_
    obtain ⟨o, ho⟩ := Option.ne_none_iff_exists'.mp hold
    simp [Version.chances, ho]
  | recover _ hw => exact measure_recoveries h hl hw

theorem Version.measure_flush_le (v : Version) : (v.flush l).measure text ≤ v.measure text := by
  obtain ⟨stack, external, hflush⟩ := Version.flush_eq (l := l) v
  rw [hflush]
  unfold Version.measure Version.chances
  simp only [bne_self_eq_false, Bool.toNat_false]
  omega

/-- Every way on lowers the measure. -/
theorem Next.measure (hg : l.Sound g) (h : v.Sound g l Spans text) (hl : v.lookahead = some t)
    (hn : Next l v t w) : w.measure text < v.measure text := by
  cases hn with
  | act _ ha => exact ha.measure hg h hl
  | flush _ _ ha =>
    obtain ⟨_, _, hflush⟩ := Version.flush_eq (l := l) v
    exact Nat.lt_of_lt_of_le (ha.measure hg (h.flush hg) (by rw [hflush]; exact hl))
      v.measure_flush_le
  | skipExtra _ he =>
    obtain ⟨hpos, hstop⟩ := h.position_lt hl (ne_end_of_isShiftableExtra he)
    exact measure_lt_of_position hpos hstop
  | recover _ hw => exact measure_recoveries h hl hw

/-! ## The rank of a parse -/

/-- The measures of the hypotheses in decreasing order. -/
def measures (text : Bytes) (vs : List Version) : List Nat :=
  (vs.map (Version.measure text)).mergeSort fun a b => b ≤ a

theorem measures_pairwise (text : Bytes) (vs : List Version) :
    (measures text vs).Pairwise (· ≥ ·) := by
  refine (List.pairwise_mergeSort ?_ ?_ _).imp fun h => by simpa using h
  · intro a b c
    simp only [decide_eq_true_eq]
    omega
  · intro a b
    simp only [Bool.or_eq_true, decide_eq_true_eq]
    omega

theorem countP_measures (text : Bytes) (vs : List Version) (y : Nat) :
    (measures text vs).countP (y ≤ ·) = vs.countP fun v => y ≤ v.measure text := by
  rw [measures, (List.mergeSort_perm _ _).countP_eq, List.countP_map]
  rfl

theorem mem_measures_lt {vs : List Version} {d : Nat} (h : d ∈ measures text vs) :
    d + 1 < (text.size + 1) * 65536 := by
  rw [measures, List.mem_mergeSort] at h
  obtain ⟨v, -, rfl⟩ := List.mem_map.mp h
  exact v.measure_lt text

/-- How far the hypotheses of a parse are from its end. -/
def rankOf (text : Bytes) (vs : List Version) : Nat :=
  numeral ((text.size + 1) * 65536) maxVersions (measures text vs)

/-- The new hypotheses have fewer large measures than before. -/
theorem countP_changes (hg : l.Sound g) (hv : r.versions[i]? = some v) (hlive : v.halted = false)
    (hw : w.Sound g l Spans text) (hl : w.lookahead = some t)
    (hm : w.measure text = v.measure text) (hc : Changes (Next l w t) (Ends l w t) r i r')
    (fs : List Finished) {y : Nat} (hy : v.measure text ≤ y) :
    (condense r'.versions fs).countP (fun u => y ≤ u.measure text)
      + (if v.measure text = y then 1 else 0)
      ≤ r.versions.countP fun u => y ≤ u.measure text := by
  obtain ⟨first, rest, outcomes, hvs, hgain⟩ := hc
  obtain ⟨hi, hget⟩ := List.getElem?_eq_some_iff.mp hv
  -- a live one among the new ones has a smaller measure
  have hnew (u : Version) (hu : u ∈ first :: rest) :
      (decide (y ≤ u.measure text) && !u.halted) = false := by
    cases hh : u.halted with
    | true => simp
    | false =>
      have := (hgain.next u hu hh).measure hg hw hl
      simp only [Bool.not_false, Bool.and_true, decide_eq_false_iff_not]
      omega
  have hrest : rest.countP (fun u => decide (y ≤ u.measure text) && !u.halted) = 0 :=
    List.countP_eq_zero.mpr fun u hu => by simp [hnew u (by simp [hu])]
  have hset := List.countP_set (p := fun u : Version => decide (y ≤ u.measure text) && !u.halted)
    (l := r.versions) (i := i) (a := first) hi
  rw [hget, hnew first (by simp), hlive] at hset
  have hold : r.versions.countP (fun u => decide (y ≤ u.measure text) && !u.halted)
      ≤ r.versions.countP fun u => y ≤ u.measure text :=
    List.countP_mono_left fun u _ hu => by
      simp only [Bool.and_eq_true] at hu
      exact hu.1
  have htotal : r'.versions.countP (fun u => decide (y ≤ u.measure text) && !u.halted)
      = r.versions.countP (fun u => decide (y ≤ u.measure text) && !u.halted)
        - if y ≤ v.measure text then 1 else 0 := by
    rw [hvs, List.countP_append, hrest, hset]
    simp
  have hcondense := countP_condense_le (fun u => decide (y ≤ u.measure text)) r'.versions fs
  rw [List.countP_filter, htotal] at hcondense
  split
  · rename_i he
    have hpos : 0 < r.versions.countP fun u => decide (y ≤ u.measure text) && !u.halted :=
      List.countP_pos_iff.mpr ⟨v, List.mem_of_getElem? hv, by simp [he, hlive]⟩
    rw [if_pos (Nat.le_of_eq he.symm)] at hcondense
    omega
  · exact Nat.le_trans hcondense (Nat.le_trans (Nat.sub_le _ _) hold)

/-- A step lowers the rank. -/
theorem rank_step (hg : l.Sound g) (hc : Covers Spans text) (h : r.Sound g l Spans text)
    (hlen : r.versions.length ≤ maxVersions) (hn : r.next? = some i) (fs : List Finished) :
    rankOf text (condense (r.step l text i).versions fs) < rankOf text r.versions := by
  obtain ⟨-, v, w, t, hv, hsound, hf, hchanges⟩ := h.step hg hc hn
  obtain ⟨hw, hl⟩ := hf.sound hg hc hsound
  obtain ⟨v', hv', hlive⟩ := next?_eq_some hn
  obtain rfl := Option.some.inj (hv'.symm.trans hv)
  have hcount (y : Nat) (hy : v'.measure text ≤ y) :=
    countP_changes hg hv hlive hw hl hf.measure hchanges fs hy
  refine numeral_lt_numeral (x := v'.measure text) (by omega) (measures_pairwise _ _)
    (measures_pairwise _ _) (fun _ hd => mem_measures_lt hd) (by simpa [measures] using hlen) ?_ ?_
  · intro y hy
    rw [countP_measures, countP_measures]
    exact Nat.le_trans (Nat.le_add_right _ _) (hcount y hy)
  · rw [countP_measures, countP_measures]
    have := hcount _ (Nat.le_refl _)
    rw [if_pos rfl] at this
    exact this

/-! ## The end of a parse -/

/-- Without limits a parse goes on until no hypothesis is alive, and then it has an
outcome. -/
theorem Run.Sound.loop_ends (hg : l.Sound g) (hc : Covers Spans text) {fuel : Nat}
    (h : r.Sound g l Spans text) (hlive : ∀ v ∈ r.versions, v.halted = false)
    (hlen : r.versions.length ≤ maxVersions) (hfuel : rankOf text r.versions < fuel) :
    (r.loop l text {} fuel).2.versions = [] ∧ (r.loop l text {} fuel).1.complete = true := by
  induction fuel generalizing r with
  | zero => contradiction
  | succ fuel ih =>
    rw [Run.loop, if_neg (by simp [Limits.stop])]
    split
    · rename_i hn
      have hnil : r.versions = [] := by
        cases hvs : r.versions with
        | nil => rfl
        | cons v vs =>
          have h₁ := next?_eq_none hn v (by simp [hvs])
          rw [hlive v (by simp [hvs])] at h₁
          contradiction
      refine ⟨hnil, ?_⟩
      have hfinished : r.finished ≠ [] := fun hf => by
        obtain ⟨v, hv, -⟩ := h.alive hf
        simp [hnil] at hv
      unfold Run.bestTree
      split
      · rfl
      · rename_i hbest
        exact absurd (firstBest?_eq_none_iff.mp hbest) hfinished
    · rename_i i hn
      have hr : Run.Sound g l Spans text
          { r with stats := { r.stats with operations := r.stats.operations + 1 } } :=
        ⟨h.versions, h.finished, h.alive⟩
      refine ih (hr.step hg hc hn).1.condense (fun v hv => (mem_of_mem_condense hv).2)
        (length_condense_le _ _) ?_
      have := rank_step hg hc hr hlen hn
        (Run.step l text { r with stats := { r.stats with operations := r.stats.operations + 1 } }
          i).finished
      exact Nat.lt_of_lt_of_le this (Nat.le_of_lt_succ hfuel)

/-- The bound on the steps is large enough. -/
theorem rankOf_lt_stepBound (text : Bytes) (vs : List Version) :
    rankOf text vs < stepBound text := by
  have hbase : 0 < (text.size + 1) * 65536 := by omega
  refine Nat.lt_of_lt_of_le (numeral_lt hbase (fun _ hd => mem_measures_lt hd) maxVersions) ?_
  exact Nat.pow_le_pow_right hbase (Nat.le_succ _)

end Glr.Parse
