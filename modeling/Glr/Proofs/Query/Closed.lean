import Glr.Proofs.Query.Matches
import Glr.Proofs.Query.Reading

/-!
# Glr.Proofs.Query.Closed

Queries refer only to what there is: their kinds and fields are those of the language, and their
captures those that have a name.  The captures of a predicate stand in the pattern that the
predicate is written in, wherever in it they stand:

```
((p (x) @a (#eq? @a @b)) @b …)     a, b: captures of this pattern, not of one before
```

Reading a pattern binds just the captures that stand in it, one case for each kind of pattern, and
a rule begins with none.
-/

namespace Glr.Query

open Stateful

variable {l : Language} {source : Bytes} {s s' : Progress}

/-! ## Patterns -/

/-- The captures that stand in what was read. -/
def Parsed.Binds : Parsed → Nat → Prop
  | .pattern p => p.Binds
  | .predicate => fun _ => False

/-- What is asked for in what was read is there in the language. -/
def Parsed.AllKnown (l : Language) : Parsed → Prop
  | .pattern p => p.AllKnown l
  | .predicate => True

/-- What the patterns of some steps ask for is there in the language, and so are their fields. -/
def StepsKnown (l : Language) (steps : List (Step Pattern)) : Prop :=
  ∀ s ∈ steps, s.Known l ∧ s.pattern.AllKnown l

/-- The captures that stand in some steps. -/
def StepsBind (steps : List (Step Pattern)) (i : Nat) : Prop := ∃ s ∈ steps, s.pattern.Binds i

/-- Steps and absent fields that are read behind some items. -/
def ItemsRead (l : Language) (items items' : Items) (s s' : Progress) : Prop :=
  ∃ more fields, items'.steps = items.steps ++ more ∧ items'.absent = items.absent ++ fields ∧
    Reads (StepsBind more) s s' ∧ StepsKnown l more ∧ ∀ f ∈ fields, f < l.table.fields.size

section

variable {s'' : Progress} {items items' : Items}

theorem ItemsRead.none (h : Passes s s') : ItemsRead l items items s s' :=
  ⟨[], [], by simp, by simp, h.congr (by simp [StepsBind]), by simp [StepsKnown], by simp⟩

theorem ItemsRead.after (h : ItemsRead l items items' s' s'') (h' : Passes s s') :
    ItemsRead l items items' s s'' := by
  obtain ⟨more, fields, hsteps, habsent, hreads, hknown⟩ := h
  exact ⟨more, fields, hsteps, habsent, hreads.after h', hknown⟩

theorem ItemsRead.field {f : FieldId} (hf : f < l.table.fields.size)
    (h : ItemsRead l { items with absent := items.absent ++ [f] } items' s s') :
    ItemsRead l items items' s s' := by
  obtain ⟨more, fields, hsteps, habsent, hreads, hknown, hfields⟩ := h
  exact ⟨more, f :: fields, hsteps, by simpa using habsent, hreads, hknown,
    List.forall_mem_cons.mpr ⟨hf, hfields⟩⟩

theorem ItemsRead.step {step : Step Pattern} {anchoredEnd : Bool}
    (hstep : Reads (StepsBind [step]) s s') (hknown : StepsKnown l [step])
    (h : ItemsRead l { items with steps := items.steps ++ [step], anchoredEnd := anchoredEnd }
      items' s' s'') : ItemsRead l items items' s s'' := by
  obtain ⟨more, fields, hsteps, habsent, hreads, hmore, hfields⟩ := h
  refine ⟨step :: more, fields, by simpa using hsteps, habsent,
    (hstep.trans hreads).congr fun i => ?_, ?_, hfields⟩
  · simp [StepsBind]
  · exact List.forall_mem_cons.mpr ⟨hknown step List.mem_cons_self, hmore⟩

end

mutual
/-- Reading a pattern goes on and binds the captures that stand in it. -/
theorem readPattern_reads : ∀ {fuel : Nat} {s s' : Progress} {r : Parsed},
    readPattern l source fuel s = .ok (r, s') →
      Reads r.Binds s s' ∧ s.position < s'.position ∧ r.AllKnown l
  | 0, _, _, _, h => (fail_eq_ok.mp h).elim
  | fuel + 1, s, s', r, h => by
    unfold readPattern at h
    obtain ⟨_, s₁, htrivia, h⟩ := bind_eq_ok.mp h
    obtain ⟨b, s₂, hpeek, h⟩ := bind_eq_ok.mp h
    obtain ⟨-, rfl⟩ := peek_eq_ok.mp hpeek
    replace htrivia := skipTrivia_passes htrivia
    have hstart := htrivia.position
    cases b with
    | none => exact (fail_eq_ok.mp h).elim
    | some b =>
      simp only at h
      split at h
      · obtain ⟨hreads, hlt, hknown⟩ := readParenthesized_reads h
        exact ⟨hreads.after htrivia, by omega, hknown⟩
      split at h
      · obtain ⟨t, s₃, hget, h⟩ := bind_eq_ok.mp h
        obtain ⟨rfl, rfl⟩ := get_eq_ok.mp hget
        obtain ⟨_, s₄, hbump, h⟩ := bind_eq_ok.mp h
        obtain ⟨alternatives, s₅, halternatives, h⟩ := bind_eq_ok.mp h
        obtain ⟨hbump, hlt⟩ := bump_passes hbump
        obtain ⟨more, rfl, hreads, hknown⟩ := readAlternatives_reads halternatives
        have hend := hreads.position
        split at h
        · obtain ⟨_, _, hfail, -⟩ := bind_eq_ok.mp h
          exact (failAt_eq_ok.mp hfail).elim
        · obtain ⟨rfl, rfl⟩ := pure_eq_ok.mp h
          refine ⟨((hreads.after hbump).after htrivia).congr fun i => ?_, by omega,
            Pattern.allKnown_alternation_iff.mpr (by simpa using hknown)⟩
          simp [Parsed.Binds, Pattern.binds_alternation_iff]
      split at h
      · obtain ⟨t, s₃, hget, h⟩ := bind_eq_ok.mp h
        obtain ⟨rfl, rfl⟩ := get_eq_ok.mp hget
        obtain ⟨text, s₄, htext, h⟩ := bind_eq_ok.mp h
        obtain ⟨_, s₅, hkind, h⟩ := bind_eq_ok.mp h
        obtain ⟨rfl, hknown⟩ := requireKind_eq_ok hkind
        obtain ⟨rfl, rfl⟩ := pure_eq_ok.mp h
        obtain ⟨htext, hlt⟩ := readString_passes htext
        refine ⟨(htrivia.passes htext).congr fun i => ?_, by omega,
          Pattern.allKnown_ofTest_iff.mpr hknown⟩
        simp [Parsed.Binds, Pattern.binds_ofTest_iff]
      split at h
      · obtain ⟨_, s₃, hbump, h⟩ := bind_eq_ok.mp h
        obtain ⟨rfl, rfl⟩ := pure_eq_ok.mp h
        obtain ⟨hbump, hlt⟩ := bump_passes hbump
        refine ⟨(htrivia.passes hbump).congr fun i => ?_, by omega,
          Pattern.allKnown_ofTest_iff.mpr trivial⟩
        simp [Parsed.Binds, Pattern.binds_ofTest_iff]
      · exact (fail_eq_ok.mp h).elim

theorem readParenthesized_reads : ∀ {fuel : Nat} {s s' : Progress} {r : Parsed},
    readParenthesized l source fuel s = .ok (r, s') →
      Reads r.Binds s s' ∧ s.position < s'.position ∧ r.AllKnown l
  | 0, _, _, _, h => (fail_eq_ok.mp h).elim
  | fuel + 1, s, s', r, h => by
    unfold readParenthesized at h
    obtain ⟨_, s₁, hbump, h⟩ := bind_eq_ok.mp h
    obtain ⟨_, s₂, htrivia, h⟩ := bind_eq_ok.mp h
    obtain ⟨b, s₃, hpeek, h⟩ := bind_eq_ok.mp h
    obtain ⟨-, rfl⟩ := peek_eq_ok.mp hpeek
    obtain ⟨hbump, hlt⟩ := bump_passes hbump
    have hopen := hbump.passes (skipTrivia_passes htrivia)
    have hstart := (skipTrivia_passes htrivia).position
    cases b with
    | none => exact (fail_eq_ok.mp h).elim
    | some b =>
      simp only at h
      split at h
      · obtain ⟨_, s₄, hpredicate, h⟩ := bind_eq_ok.mp h
        obtain ⟨rfl, rfl⟩ := pure_eq_ok.mp h
        replace hpredicate := readPredicate_passes hpredicate
        have := hpredicate.position
        exact ⟨hopen.passes hpredicate, by omega, trivial⟩
      split at h
      · obtain ⟨items, s₄, hitems, h⟩ := bind_eq_ok.mp h
        obtain ⟨more, fields, hsteps, -, hreads, hknown, -⟩ := readItems_reads hitems
        have hend := hreads.position
        split at h
        · obtain ⟨_, _, hfail, -⟩ := bind_eq_ok.mp h
          exact (fail_eq_ok.mp hfail).elim
        split at h
        · obtain ⟨_, _, hfail, -⟩ := bind_eq_ok.mp h
          exact (fail_eq_ok.mp hfail).elim
        obtain ⟨_, s₅, hclose, h⟩ := bind_eq_ok.mp h
        obtain ⟨rfl, rfl⟩ := pure_eq_ok.mp h
        replace hclose := expect_passes hclose
        have := hclose.position
        rw [hsteps]
        refine ⟨((hreads.after hopen).passes hclose).congr fun i => ?_, by omega,
          Pattern.allKnown_ofGroup (fun s hs => (hknown s (by simpa using hs)).1)
            fun s hs => (hknown s (by simpa using hs)).2⟩
        simp [Parsed.Binds, Pattern.binds_ofGroup_iff, StepsBind]
      split at h
      · exact (fail_eq_ok.mp h).elim
      · obtain ⟨test, s₄, htest, h⟩ := bind_eq_ok.mp h
        obtain ⟨htest, htestKnown⟩ := readTest_passes htest
        obtain ⟨items, s₅, hitems, h⟩ := bind_eq_ok.mp h
        obtain ⟨more, fields, hsteps, habsent, hreads, hknown, hfields⟩ := readItems_reads hitems
        obtain ⟨_, s₆, hclose, h⟩ := bind_eq_ok.mp h
        obtain ⟨rfl, rfl⟩ := pure_eq_ok.mp h
        replace hclose := expect_passes hclose
        have := htest.position
        have := hreads.position
        have := hclose.position
        rw [hsteps, habsent]
        refine ⟨((hreads.after (hopen.passes htest)).passes hclose).congr fun i => ?_, by omega,
          Pattern.allKnown_node_iff.mpr ⟨⟨htestKnown, by simpa using hfields,
            fun s hs => (hknown s (by simpa using hs)).1⟩,
            fun s hs => (hknown s (by simpa using hs)).2⟩⟩
        simp [Parsed.Binds, Pattern.binds_node_iff, StepsBind]

theorem readItems_reads : ∀ {fuel : Nat} {items items' : Items} {s s' : Progress},
    readItems l source fuel items s = .ok (items', s') → ItemsRead l items items' s s'
  | 0, _, _, _, _, h => (fail_eq_ok.mp h).elim
  | fuel + 1, items, items', s, s', h => by
    unfold readItems at h
    obtain ⟨_, s₁, htrivia, h⟩ := bind_eq_ok.mp h
    obtain ⟨b, s₂, hpeek, h⟩ := bind_eq_ok.mp h
    obtain ⟨-, rfl⟩ := peek_eq_ok.mp hpeek
    replace htrivia := skipTrivia_passes htrivia
    refine ItemsRead.after ?_ htrivia
    cases b with
    | none =>
      obtain ⟨rfl, rfl⟩ := pure_eq_ok.mp h
      exact .none (.refl _)
    | some b =>
      simp only at h
      split at h
      · obtain ⟨rfl, rfl⟩ := pure_eq_ok.mp h
        exact .none (.refl _)
      split at h
      · obtain ⟨_, s₃, hbump, h⟩ := bind_eq_ok.mp h
        exact (readItems_reads h).after (bump_passes hbump).1
      split at h
      · obtain ⟨_, s₃, hbump, h⟩ := bind_eq_ok.mp h
        obtain ⟨f, s₄, hfield, h⟩ := bind_eq_ok.mp h
        obtain ⟨hfield, hf⟩ := readField_passes hfield
        exact (ItemsRead.field hf (readItems_reads h)).after ((bump_passes hbump).1.passes hfield)
      · -- a step, with its field if it starts with a letter, and what follows it
        have hfollows {field : Option FieldId} {t : Progress} (hfield : Passes s₁ t)
            (hf : ∀ f, field = some f → f < l.table.fields.size)
            (h : (readStep l source fuel field items.anchoredEnd >>= fun
              | some step => readItems l source fuel
                  { items with steps := items.steps ++ [step], anchoredEnd := false }
              | none => readItems l source fuel items) t = .ok (items', s')) :
            ItemsRead l items items' s₁ s' := by
          obtain ⟨r, t', hstep, h⟩ := bind_eq_ok.mp h
          obtain ⟨hstep, hknown⟩ := readStep_reads hstep hf
          refine ItemsRead.after ?_ hfield
          cases r with
          | none => exact (readItems_reads h).after (hstep.congr (by simp [StepsBind]))
          | some step => exact .step hstep hknown (readItems_reads h)
        split at h
        · obtain ⟨f, s₃, hfield, h⟩ := bind_eq_ok.mp h
          obtain ⟨_, s₄, hcolon, h⟩ := bind_eq_ok.mp h
          obtain ⟨hfield, hf⟩ := readField_passes hfield
          exact hfollows (hfield.passes (expect_passes hcolon))
            (fun g hg => Option.some.inj hg ▸ hf) h
        · exact hfollows (.refl _) (by simp) h

theorem readStep_reads : ∀ {fuel : Nat} {field : Option FieldId} {anchored : Bool}
    {s s' : Progress} {r : Option (Step Pattern)},
    readStep l source fuel field anchored s = .ok (r, s') →
      (∀ f, field = some f → f < l.table.fields.size) →
        Reads (StepsBind r.toList) s s' ∧ StepsKnown l r.toList
  | 0, _, _, _, _, _, h, _ => (fail_eq_ok.mp h).elim
  | fuel + 1, field, anchored, s, s', r, h, hfield => by
    unfold readStep at h
    obtain ⟨t, s₁, hget, h⟩ := bind_eq_ok.mp h
    obtain ⟨rfl, rfl⟩ := get_eq_ok.mp hget
    obtain ⟨parsed, s₂, hpattern, h⟩ := bind_eq_ok.mp h
    obtain ⟨hreads, -, hknown⟩ := readPattern_reads hpattern
    cases parsed with
    | predicate =>
      simp only at h
      split at h
      · obtain ⟨_, _, hfail, -⟩ := bind_eq_ok.mp h
        exact (failAt_eq_ok.mp hfail).elim
      · obtain ⟨rfl, rfl⟩ := pure_eq_ok.mp h
        exact ⟨hreads.congr (by simp [Parsed.Binds, StepsBind]), by simp [StepsKnown]⟩
    | pattern p =>
      obtain ⟨quantifier, s₃, hquantifier, h⟩ := bind_eq_ok.mp h
      obtain ⟨captures, s₄, hcaptures, h⟩ := bind_eq_ok.mp h
      obtain ⟨rfl, rfl⟩ := pure_eq_ok.mp h
      have hown := readCaptures_reads hcaptures
      refine ⟨((hreads.passes (readQuantifier_passes hquantifier)).trans hown).congr fun i => ?_, ?_⟩
      · simp [Parsed.Binds, StepsBind, Pattern.binds_addCaptures_iff]
      · simpa [StepsKnown, Pattern.allKnown_addCaptures_iff] using ⟨hfield, hknown⟩

theorem readAlternatives_reads : ∀ {fuel : Nat} {alternatives alternatives' : List Pattern}
    {s s' : Progress}, readAlternatives l source fuel alternatives s = .ok (alternatives', s') →
      ∃ more, alternatives' = alternatives ++ more ∧
        Reads (fun i => ∃ p ∈ more, p.Binds i) s s' ∧ ∀ p ∈ more, p.AllKnown l
  | 0, _, _, _, _, h => (fail_eq_ok.mp h).elim
  | fuel + 1, alternatives, alternatives', s, s', h => by
    unfold readAlternatives at h
    obtain ⟨_, s₁, htrivia, h⟩ := bind_eq_ok.mp h
    obtain ⟨b, s₂, hpeek, h⟩ := bind_eq_ok.mp h
    obtain ⟨-, rfl⟩ := peek_eq_ok.mp hpeek
    replace htrivia := skipTrivia_passes htrivia
    cases b with
    | none => exact (fail_eq_ok.mp h).elim
    | some b =>
      simp only at h
      split at h
      · obtain ⟨_, s₃, hbump, h⟩ := bind_eq_ok.mp h
        obtain ⟨rfl, rfl⟩ := pure_eq_ok.mp h
        exact ⟨[], by simp, (htrivia.passes (bump_passes hbump).1).congr (by simp), by simp⟩
      · obtain ⟨t, s₃, hget, h⟩ := bind_eq_ok.mp h
        obtain ⟨rfl, rfl⟩ := get_eq_ok.mp hget
        obtain ⟨parsed, s₄, hpattern, h⟩ := bind_eq_ok.mp h
        obtain ⟨hpattern, -, hp⟩ := readPattern_reads hpattern
        cases parsed with
        | predicate => exact (failAt_eq_ok.mp h).elim
        | pattern p =>
          obtain ⟨captures, s₅, hcaptures, h⟩ := bind_eq_ok.mp h
          have hown := readCaptures_reads hcaptures
          obtain ⟨more, rfl, hreads, hknown⟩ := readAlternatives_reads h
          refine ⟨p.addCaptures captures :: more, by simp,
            (((hpattern.after htrivia).trans hown).trans hreads).congr fun i => ?_, ?_⟩
          · simp [Parsed.Binds, Pattern.binds_addCaptures_iff]
          · exact List.forall_mem_cons.mpr ⟨Pattern.allKnown_addCaptures_iff.mpr hp, hknown⟩
end

/-! ## Rules -/

/-- A rule refers only to what there is: `names` are the names of the captures. -/
structure Rule.WellFormed (l : Language) (names : List String) (r : Rule) : Prop where
  captures : ∀ i, r.pattern.Binds i → i < names.length
  /-- The captures of the predicates stand in the pattern of the rule. -/
  predicates : ∀ p ∈ r.predicates, ∀ i, p.Mentions i → r.pattern.Binds i
  known : r.pattern.AllKnown l
  matchable : isMatchable r.pattern = true

theorem Rule.WellFormed.mono {names names' : List String} {r : Rule} (h : r.WellFormed l names)
    (hle : names <+: names') : r.WellFormed l names' where
  captures i hi := Nat.lt_of_lt_of_le (h.captures i hi) hle.length_le
  predicates := h.predicates
  known := h.known
  matchable := h.matchable

/-- What is read at the top, where no captures are defined before. -/
theorem readRule_reads {start : Nat} {r : Rule} (h : readRule l source start s = .ok (r, s'))
    (hs : s.defined = []) : Reads r.pattern.Binds s s' ∧ s.position < s'.position ∧
      r.startByte = start ∧ r.WellFormed l s'.names := by
  unfold readRule at h
  obtain ⟨parsed, s₁, hpattern, h⟩ := bind_eq_ok.mp h
  obtain ⟨hpattern, hlt, hknown⟩ := readPattern_reads hpattern
  cases parsed with
  | predicate => exact (failAt_eq_ok.mp h).elim
  | pattern p =>
    obtain ⟨_, s₂, htrivia, h⟩ := bind_eq_ok.mp h
    obtain ⟨b, s₃, hpeek, h⟩ := bind_eq_ok.mp h
    obtain ⟨-, rfl⟩ := peek_eq_ok.mp hpeek
    replace hpattern := hpattern.passes (skipTrivia_passes htrivia)
    have htrivia := (skipTrivia_passes htrivia).position
    have hfollows (h : (readCaptures source (source.size + 1) [] >>= fun captures =>
        if (!isMatchable (p.addCaptures captures)) = true then do
          failAt source start .badTopGroup
          let predicates ← (← get).predicates.mapM (resolvePredicate source)
          pure ⟨p.addCaptures captures, predicates, start⟩
        else do
          let predicates ← (← get).predicates.mapM (resolvePredicate source)
          pure ⟨p.addCaptures captures, predicates, start⟩ : Reader Rule) s₂ = .ok (r, s')) :
        Reads r.pattern.Binds s s' ∧ s.position < s'.position ∧ r.startByte = start ∧
          r.WellFormed l s'.names := by
      obtain ⟨captures, s₄, hcaptures, h⟩ := bind_eq_ok.mp h
      have hown := readCaptures_reads hcaptures
      have hend := hown.position
      split at h
      · obtain ⟨_, _, hfail, -⟩ := bind_eq_ok.mp h
        exact (failAt_eq_ok.mp hfail).elim
      rename_i hmatchable
      obtain ⟨t, s₅, hget, h⟩ := bind_eq_ok.mp h
      obtain ⟨rfl, rfl⟩ := get_eq_ok.mp hget
      obtain ⟨predicates, s₆, hpredicates, h⟩ := bind_eq_ok.mp h
      obtain ⟨rfl, hresolved⟩ := mapM_eq_ok (fun _ _ _ _ h => (resolvePredicate_eq_ok h).1)
        hpredicates
      obtain ⟨rfl, rfl⟩ := pure_eq_ok.mp h
      have hreads : Reads (p.addCaptures captures).Binds s s₄ :=
        (hpattern.trans hown).congr fun i => by
          rw [Pattern.binds_addCaptures_iff]
          rfl
      refine ⟨hreads, by omega, rfl, hreads.bounded, fun q hq i hi => ?_,
        Pattern.allKnown_addCaptures_iff.mpr hknown, by simpa using hmatchable⟩
      obtain ⟨raw, -, hraw⟩ := hresolved q hq
      have hdefined := (hreads.defined i).mp ((resolvePredicate_eq_ok hraw).2 i hi)
      simpa [hs] using hdefined
    cases b with
    | none => exact hfollows h
    | some b =>
      simp only at h
      split at h
      · obtain ⟨_, _, hfail, -⟩ := bind_eq_ok.mp h
        exact (fail_eq_ok.mp hfail).elim
      · exact hfollows h

/-- What holds of the rules that are read, wherever reading has got to. -/
structure RulesRead (l : Language) (source : Bytes) (rules : List Rule) (s : Progress) : Prop where
  names : s.names.Nodup
  wellFormed : ∀ r ∈ rules, r.WellFormed l s.names
  ordered : (rules.map Rule.startByte).Pairwise (· < ·)
  before : ∀ r ∈ rules, r.startByte < s.position ∧ r.startByte < source.size

theorem RulesRead.passes {rules : List Rule} (h : RulesRead l source rules s) (h' : Passes s s') :
    RulesRead l source rules s' where
  names := h'.nodup h.names
  wellFormed r hr := (h.wellFormed r hr).mono h'.names
  ordered := h.ordered
  before r hr := ⟨Nat.lt_of_lt_of_le (h.before r hr).1 h'.position, (h.before r hr).2⟩

/-- One more rule, which starts at the place that reading has got to. -/
theorem RulesRead.snoc {rules : List Rule} {r : Rule} {B : Nat → Prop}
    (h : RulesRead l source rules s) (hreads : Reads B s s') (hlt : s.position < s'.position)
    (hr : r.WellFormed l s'.names) (hstart : r.startByte = s.position)
    (hsize : s.position < source.size) : RulesRead l source (rules ++ [r]) s' where
  names := hreads.nodup h.names
  wellFormed := List.forall_mem_append.mpr
    ⟨fun q hq => (h.wellFormed q hq).mono hreads.names, by simpa using hr⟩
  ordered := by
    rw [List.map_append, List.pairwise_append]
    refine ⟨h.ordered, List.pairwise_singleton _ _, fun a ha b hb => ?_⟩
    obtain ⟨q, hq, rfl⟩ := List.mem_map.mp ha
    rw [List.mem_singleton.mp hb, hstart]
    exact (h.before q hq).1
  before := List.forall_mem_append.mpr
    ⟨fun q hq => ⟨Nat.lt_trans (h.before q hq).1 hlt, (h.before q hq).2⟩, by
      simpa [hstart] using ⟨hlt, hsize⟩⟩

theorem readRules_read {fuel : Nat} {rules rules' : List Rule}
    (h : readRules l source fuel rules s = .ok (rules', s')) (hrules : RulesRead l source rules s) :
    RulesRead l source rules' s' := by
  induction fuel generalizing rules s with
  | zero =>
    obtain ⟨rfl, rfl⟩ := pure_eq_ok.mp h
    exact hrules
  | succ fuel ih =>
    unfold readRules at h
    obtain ⟨_, s₁, htrivia, h⟩ := bind_eq_ok.mp h
    obtain ⟨b, s₂, hpeek, h⟩ := bind_eq_ok.mp h
    obtain ⟨hb, rfl⟩ := peek_eq_ok.mp hpeek
    replace hrules := hrules.passes (skipTrivia_passes htrivia)
    cases b with
    | none =>
      obtain ⟨rfl, rfl⟩ := pure_eq_ok.mp h
      exact hrules
    | some b =>
      obtain ⟨t, s₃, hget, h⟩ := bind_eq_ok.mp h
      obtain ⟨rfl, rfl⟩ := get_eq_ok.mp hget
      obtain ⟨_, s₄, hclear, h⟩ := bind_eq_ok.mp h
      obtain rfl := modify_eq_ok.mp hclear
      have hcleared : RulesRead l source rules { s₁ with defined := [], predicates := [] } :=
        ⟨hrules.names, hrules.wellFormed, hrules.ordered, hrules.before⟩
      simp only at h
      split at h
      · obtain ⟨_, _, hfail, -⟩ := bind_eq_ok.mp h
        exact (fail_eq_ok.mp hfail).elim
      split at h
      · obtain ⟨_, _, hfail, -⟩ := bind_eq_ok.mp h
        exact (fail_eq_ok.mp hfail).elim
      obtain ⟨r, s₅, hrule, h⟩ := bind_eq_ok.mp h
      obtain ⟨hreads, hlt, hstart, hr⟩ := readRule_reads hrule rfl
      exact ih h (hcleared.snoc hreads hlt hr hstart (Array.getElem?_eq_some_iff.mp hb).1)

end Glr.Query

namespace Glr

open Query

theorem Query.compile_read {l : Language} {source : String} {q : Query}
    (h : Query.compile l source = .ok q) :
    ∃ s, RulesRead l (Bytes.ofString source) q.rules s ∧ s.names = q.captureNames := by
  unfold Query.compile at h
  simp only at h
  split at h
  · contradiction
  · rename_i rules s hread
    obtain rfl := Except.ok.inj h
    exact ⟨s, readRules_read hread ⟨List.nodup_nil, by simp, by simp, by simp⟩, rfl⟩

/-- A query that is accepted is closed.  No name stands for two captures, and all captures of its
patterns and predicates have a name; those of a predicate stand in the pattern of its rule; all
fields are fields of the language, and all kinds kinds of it; and its rules begin one behind the
other in the text of the query. -/
theorem Query.compile_closed {l : Language} {source : String} {q : Query}
    (h : Query.compile l source = .ok q) :
    q.captureNames.Nodup ∧
      (∀ r ∈ q.rules,
        (∀ i, r.pattern.Binds i → i < q.captureNames.length) ∧
        (∀ p ∈ r.predicates, ∀ i, p.Mentions i →
          i < q.captureNames.length ∧ r.pattern.Binds i) ∧
        r.pattern.AllKnown l ∧ r.startByte < (Bytes.ofString source).size) ∧
      (q.rules.map Rule.startByte).Pairwise (· < ·) := by
  obtain ⟨s, hs, hnames⟩ := Query.compile_read h
  rw [← hnames]
  refine ⟨hs.names, fun r hr => ?_, hs.ordered⟩
  have hwell := hs.wellFormed r hr
  exact ⟨hwell.captures, fun p hp i hi => ⟨hwell.captures i (hwell.predicates p hp i hi),
    hwell.predicates p hp i hi⟩, hwell.known, (hs.before r hr).2⟩

set_option maxRecDepth 100000 in
theorem Query.compile_closed_marks : ∃ l q, Language.ofGrammar 0 .marks none = .ok l ∧
    Query.compile l "(p [(x) @a (y)] (#eq? @a @b) (z)? @b) @c (y) @a" = .ok q ∧
    q.captureNames = ["a", "b", "c"] ∧ q.captureNames.Nodup ∧
    ∃ r ∈ q.rules, ∃ p ∈ r.predicates, p.Mentions 0 ∧ p.Mentions 1 ∧ r.pattern.Binds 0 ∧
      r.pattern.Binds 1 ∧ r.pattern.AllKnown l := by
  have hcompiled : (Language.ofGrammar 0 .marks none).toOption.any (fun l =>
      (Query.compile l "(p [(x) @a (y)] (#eq? @a @b) (z)? @b) @c (y) @a").toOption.any fun q =>
        q.captureNames == ["a", "b", "c"] && q.rules.any fun r => r.predicates.any fun p =>
          p.capture == 0 && p.condition matches .equals (.capture 1)) = true := by
    decide +kernel
  obtain ⟨l, hl, hcompiled⟩ := exists_ok hcompiled
  obtain ⟨q, hq, hcompiled⟩ := exists_ok hcompiled
  obtain ⟨hnames, hrule⟩ := Bool.and_eq_true_iff.mp hcompiled
  obtain ⟨r, hr, hp⟩ := List.any_eq_true.mp hrule
  obtain ⟨p, hp, hmentions⟩ := List.any_eq_true.mp hp
  obtain ⟨hnodup, hclosed, -⟩ := Query.compile_closed hq
  obtain ⟨-, hpredicates, hknown, -⟩ := hclosed r hr
  have ha : p.Mentions 0 := .inl (beq_iff_eq.mp (Bool.and_eq_true_iff.mp hmentions).1)
  have hb : p.Mentions 1 := by
    have hcondition := (Bool.and_eq_true_iff.mp hmentions).2
    split at hcondition
    · rename_i hother
      exact .inr hother
    · exact absurd hcondition Bool.false_ne_true
  exact ⟨l, q, hl, hq, beq_iff_eq.mp hnames, hnodup, r, hr, p, hp, ha, hb,
    (hpredicates p hp 0 ha).2, (hpredicates p hp 1 hb).2, hknown⟩

end Glr
