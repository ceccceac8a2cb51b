import Glr.Proofs.Query.Embedding
import Glr.Proofs.Stateful
import Glr.Query.Compile

/-!
# Glr.Proofs.Query.Reading

What reading a query does.  The offset goes on, names of captures are only added, and the captures
that were defined behind a part are those from before it and those that are bound in it:

```
s  ──── part ────▶  s'        defined s'  =  defined s  +  captures of the part
```

So at the end of a pattern the captures that are defined are those that some pattern in it has.
-/

namespace Glr

/-- Whether the nodes of a language can be of a kind: an error node, or one of a visible symbol. -/
def Language.HasKind (l : Language) (kind : String) (named : Bool) : Prop :=
  (kind = "ERROR" ∧ named = true) ∨ ∃ info ∈ l.table.symbols.toList,
    info.name = kind ∧ info.named = named ∧ info.visible = true

theorem Language.hasKind_of_symbolsOfKind {l : Language} {kind : String} {named : Bool}
    (h : l.symbolsOfKind kind named ≠ []) : l.HasKind kind named := by
  unfold symbolsOfKind at h
  split at h
  · rename_i herror
    rw [Bool.and_eq_true, beq_iff_eq] at herror
    exact .inl ⟨herror.2, herror.1⟩
  · obtain ⟨s, hs⟩ := List.exists_mem_of_ne_nil _ h
    obtain ⟨⟨info, place⟩, hmem, hinfo⟩ := List.mem_filterMap.mp hs
    simp only [Option.ite_none_right_eq_some, Bool.and_eq_true, beq_iff_eq] at hinfo
    exact .inr ⟨info, (List.mem_zipIdx hmem).2.2 ▸ List.getElem_mem _, hinfo.1.1.1.1,
      hinfo.1.1.1.2, hinfo.1.1.2⟩

theorem Language.fieldId?_lt {l : Language} {name : String} {f : FieldId}
    (h : l.fieldId? name = some f) : f < l.table.fields.size := by
  obtain ⟨⟨field, place⟩, hfind, rfl⟩ := Option.map_eq_some_iff.mp h
  have hmem := List.mem_zipIdx (List.mem_reverse.mp (List.mem_of_find?_eq_some hfind))
  simpa using hmem.2.1

namespace Query

open Stateful

variable {l : Language} {source : Bytes} {α : Type} {s s' s'' : Progress} {B B' : Nat → Prop}

/-! ## What is read -/

/-- A capture stands in a pattern. -/
def Pattern.Binds (p : Pattern) (i : Nat) : Prop := ∃ q, p.Has q ∧ i ∈ q.captures

/-- The kinds that a test asks for are kinds of the language. -/
def KindTest.Known (l : Language) : KindTest → Prop
  | .any | .anyNamed | .missing none => True
  | .named kind => l.HasKind kind true
  | .anonymous kind => l.HasKind kind false
  | .missing (some (kind, ofRule)) => l.HasKind kind ofRule

/-- The field of a step is one of the language. -/
def Step.Known (l : Language) (s : Step Pattern) : Prop :=
  ∀ f, s.field = some f → f < l.table.fields.size

/-- What a pattern asks for is there in the language. -/
def Pattern.Known (l : Language) : Pattern → Prop
  | .node _ test absent _ steps =>
    test.Known l ∧ (∀ f ∈ absent, f < l.table.fields.size) ∧ ∀ s ∈ steps, s.Known l
  | .alternation _ _ => True
  | .group _ steps => ∀ s ∈ steps, s.Known l

/-- What all patterns in a pattern ask for is there in the language. -/
def Pattern.AllKnown (l : Language) (p : Pattern) : Prop := ∀ q, p.Has q → q.Known l

namespace Pattern

variable {p q : Pattern} {own more : List Nat} {test : KindTest} {absent : List FieldId}
  {anchoredEnd : Bool} {steps : List (Step Pattern)} {alternatives : List Pattern} {i : Nat}

/-- The patterns that a pattern is made of. -/
def parts : Pattern → List Pattern
  | .node _ _ _ _ steps => steps.map Step.pattern
  | .alternation _ alternatives => alternatives
  | .group _ steps => steps.map Step.pattern

theorem has_iff : p.Has q ↔ q = p ∨ ∃ c ∈ p.parts, c.Has q := by
  constructor
  · intro h
    cases h with
    | self => exact .inl rfl
    | node mem has => exact .inr ⟨_, List.mem_map_of_mem mem, has⟩
    | alternation mem has => exact .inr ⟨_, mem, has⟩
    | group mem has => exact .inr ⟨_, List.mem_map_of_mem mem, has⟩
  · rintro (rfl | ⟨c, mem, has⟩)
    · exact .self
    cases p with
    | node =>
      obtain ⟨s, hs, rfl⟩ := List.mem_map.mp mem
      exact .node hs has
    | alternation => exact .alternation mem has
    | group =>
      obtain ⟨s, hs, rfl⟩ := List.mem_map.mp mem
      exact .group hs has

theorem binds_iff : p.Binds i ↔ i ∈ p.captures ∨ ∃ c ∈ p.parts, c.Binds i := by
  simp only [Binds, has_iff (p := p), or_and_right, exists_or, exists_eq_left]
  refine or_congr_right ⟨?_, ?_⟩
  · rintro ⟨q, ⟨c, hc, hq⟩, hi⟩
    exact ⟨c, hc, q, hq, hi⟩
  · rintro ⟨c, hc, q, hq, hi⟩
    exact ⟨q, ⟨c, hc, hq⟩, hi⟩

theorem allKnown_iff : p.AllKnown l ↔ p.Known l ∧ ∀ c ∈ p.parts, c.AllKnown l := by
  simp only [AllKnown, has_iff (p := p), or_imp, forall_and, forall_eq]
  refine and_congr_right' ⟨fun h c hc q hq => h q ⟨c, hc, hq⟩, ?_⟩
  rintro h q ⟨c, hc, hq⟩
  exact h c hc q hq

theorem binds_node_iff : (Pattern.node own test absent anchoredEnd steps).Binds i ↔
    i ∈ own ∨ ∃ s ∈ steps, s.pattern.Binds i := by
  rw [binds_iff]
  simp [captures, parts]

theorem binds_alternation_iff : (Pattern.alternation own alternatives).Binds i ↔
    i ∈ own ∨ ∃ p ∈ alternatives, p.Binds i :=
  binds_iff

theorem binds_group_iff : (Pattern.group own steps).Binds i ↔
    i ∈ own ∨ ∃ s ∈ steps, s.pattern.Binds i := by
  rw [binds_iff]
  simp [captures, parts]

theorem allKnown_node_iff : (Pattern.node own test absent anchoredEnd steps).AllKnown l ↔
    (Pattern.node own test absent anchoredEnd steps).Known l ∧
      ∀ s ∈ steps, s.pattern.AllKnown l := by
  rw [allKnown_iff]
  simp [parts]

theorem allKnown_alternation_iff : (Pattern.alternation own alternatives).AllKnown l ↔
    ∀ p ∈ alternatives, p.AllKnown l := by
  rw [allKnown_iff]
  simp [Known, parts]

theorem allKnown_group_iff : (Pattern.group own steps).AllKnown l ↔
    (∀ s ∈ steps, s.Known l) ∧ ∀ s ∈ steps, s.pattern.AllKnown l := by
  rw [allKnown_iff]
  simp [Known, parts]

@[simp] theorem captures_addCaptures (p : Pattern) (more : List Nat) :
    (p.addCaptures more).captures = p.captures ++ more := by
  cases p <;> rfl

@[simp] theorem parts_addCaptures (p : Pattern) (more : List Nat) :
    (p.addCaptures more).parts = p.parts := by
  cases p <;> rfl

theorem known_addCaptures_iff : (p.addCaptures more).Known l ↔ p.Known l := by
  cases p <;> rfl

theorem binds_addCaptures_iff : (p.addCaptures more).Binds i ↔ p.Binds i ∨ i ∈ more := by
  rw [binds_iff, binds_iff (p := p), captures_addCaptures, parts_addCaptures, List.mem_append]
  exact or_right_comm

theorem allKnown_addCaptures_iff : (p.addCaptures more).AllKnown l ↔ p.AllKnown l := by
  rw [allKnown_iff, allKnown_iff (p := p), known_addCaptures_iff, parts_addCaptures]

theorem binds_ofTest_iff : (ofTest test).Binds i ↔ False := by
  simp [ofTest, binds_node_iff]

theorem binds_ofGroup_iff : (ofGroup steps).Binds i ↔ ∃ s ∈ steps, s.pattern.Binds i := by
  unfold ofGroup
  split
  · simp
  · simp [binds_group_iff]

theorem allKnown_ofTest_iff : (ofTest test).AllKnown l ↔ test.Known l := by
  simp [ofTest, allKnown_node_iff, Known]

theorem allKnown_ofGroup (hsteps : ∀ s ∈ steps, s.Known l)
    (hpatterns : ∀ s ∈ steps, s.pattern.AllKnown l) : (ofGroup steps).AllKnown l := by
  unfold ofGroup
  split
  · exact hpatterns _ (List.mem_singleton_self _)
  · exact allKnown_group_iff.mpr ⟨hsteps, hpatterns⟩

end Pattern

/-! ## Progress -/

/-- Part of a query was read, in which the captures of `B` are bound. -/
structure Reads (B : Nat → Prop) (s s' : Progress) : Prop where
  position : s.position ≤ s'.position
  names : s.names <+: s'.names
  nodup : s.names.Nodup → s'.names.Nodup
  defined : ∀ i, i ∈ s'.defined ↔ i ∈ s.defined ∨ B i
  bounded : ∀ i, B i → i < s'.names.length

/-- Part of a query was read that binds no captures. -/
abbrev Passes : Progress → Progress → Prop := Reads fun _ => False

theorem Reads.trans (h : Reads B s s') (h' : Reads B' s' s'') :
    Reads (fun i => B i ∨ B' i) s s'' where
  position := Nat.le_trans h.position h'.position
  names := h.names.trans h'.names
  nodup hs := h'.nodup (h.nodup hs)
  defined i := by rw [h'.defined, h.defined, or_assoc]
  bounded i hi := hi.elim
    (fun hi => Nat.lt_of_lt_of_le (h.bounded i hi) h'.names.length_le) (h'.bounded i)

theorem Reads.congr (h : Reads B s s') (hB : ∀ i, B i ↔ B' i) : Reads B' s s' := by
  obtain rfl : B = B' := funext fun i => propext (hB i)
  exact h

theorem Reads.passes (h : Reads B s s') (h' : Passes s' s'') : Reads B s s'' :=
  (h.trans h').congr fun _ => by simp

theorem Reads.after (h : Reads B s' s'') (h' : Passes s s') : Reads B s s'' :=
  (h'.trans h).congr fun _ => by simp

theorem Passes.moved {position : Nat} (h : s.position ≤ position) :
    Passes s { s with position := position } :=
  ⟨h, List.prefix_refl _, id, by simp, by simp⟩

theorem Passes.refl (s : Progress) : Passes s s := .moved (Nat.le_refl _)

/-! ## Characters -/

theorem peek_eq_ok {b : Option UInt8} :
    peek source s = .ok (b, s') ↔ source[s.position]? = b ∧ s = s' := by
  change Except.ok _ = _ ↔ _
  simp

theorem bump_eq_ok {u : Unit} :
    bump s = .ok (u, s') ↔ { s with position := s.position + 1 } = s' := modify_eq_ok

theorem failAt_eq_ok {offset : Nat} {p : Problem} {r : α × Progress} :
    failAt source offset p s = .ok r ↔ False := throw_eq_ok

theorem fail_eq_ok {p : Problem} {r : α × Progress} : fail source p s = .ok r ↔ False := by
  change Except.error _ = _ ↔ _
  simp

theorem le_passWhile (source : Bytes) (p : UInt8 → Bool) (count start : Nat) :
    start ≤ passWhile source p count start := by
  induction count generalizing start with
  | zero => exact Nat.le_refl _
  | succ count ih =>
    unfold passWhile
    split
    · split
      · exact Nat.le_of_succ_le (ih (start + 1))
      · exact Nat.le_refl _
    · exact Nat.le_refl _

theorem le_afterTrivia (source : Bytes) (fuel start : Nat) :
    start ≤ afterTrivia source fuel start := by
  induction fuel generalizing start with
  | zero => exact Nat.le_refl _
  | succ fuel ih =>
    unfold afterTrivia
    split
    · split
      · exact Nat.le_of_succ_le (ih (start + 1))
      · split
        · exact Nat.le_trans (le_passWhile ..) (ih _)
        · exact Nat.le_refl _
    · exact Nat.le_refl _

theorem le_of_stringFrom? {fuel start stop : Nat} {value text : String}
    (h : stringFrom? source fuel start value = some (text, stop)) : start ≤ stop := by
  induction fuel generalizing start value with
  | zero => contradiction
  | succ fuel ih =>
    unfold stringFrom? at h
    split at h
    · contradiction
    · rename_i c width hc
      simp only at h
      split at h
      · obtain ⟨-, rfl⟩ := Prod.mk.inj (Option.some.inj h)
        exact Nat.le_add_right _ _
      · split at h
        · split at h
          · have := ih h
            omega
          · contradiction
        · have := ih h
          omega

theorem skipTrivia_passes {u : Unit} (h : skipTrivia source s = .ok (u, s')) : Passes s s' := by
  obtain rfl := modify_eq_ok.mp h
  exact .moved (le_afterTrivia ..)

theorem bump_passes {u : Unit} (h : bump s = .ok (u, s')) :
    Passes s s' ∧ s.position < s'.position := by
  obtain rfl := bump_eq_ok.mp h
  exact ⟨.moved (Nat.le_succ _), Nat.lt_succ_self _⟩

theorem expect_passes {c : Char} {u : Unit} (h : expect source c s = .ok (u, s')) :
    Passes s s' := by
  unfold expect at h
  obtain ⟨_, s₁, htrivia, h⟩ := bind_eq_ok.mp h
  obtain ⟨_, s₂, hpeek, h⟩ := bind_eq_ok.mp h
  obtain ⟨rfl, rfl⟩ := peek_eq_ok.mp hpeek
  split at h
  · exact (skipTrivia_passes htrivia).passes (bump_passes h).1
  · exact (fail_eq_ok.mp h).elim

theorem name?_passes {name : Option String} (h : name? source s = .ok (name, s')) :
    Passes s s' := by
  unfold name? at h
  obtain ⟨t, s₁, hget, h⟩ := bind_eq_ok.mp h
  obtain ⟨rfl, rfl⟩ := get_eq_ok.mp hget
  split at h
  · obtain ⟨-, rfl⟩ := pure_eq_ok.mp h
    exact .refl _
  · obtain ⟨_, s₂, hset, h⟩ := bind_eq_ok.mp h
    obtain rfl := set_eq_ok.mp hset
    obtain ⟨-, rfl⟩ := pure_eq_ok.mp h
    exact .moved (le_passWhile ..)

theorem requireName_passes {p : Problem} {name : String}
    (h : requireName source p s = .ok (name, s')) : Passes s s' := by
  unfold requireName at h
  obtain ⟨found, s₁, hname, h⟩ := bind_eq_ok.mp h
  cases found with
  | some found =>
    obtain ⟨-, rfl⟩ := pure_eq_ok.mp h
    exact name?_passes hname
  | none => exact (fail_eq_ok.mp h).elim

theorem readString_passes {text : String} (h : readString source s = .ok (text, s')) :
    Passes s s' ∧ s.position < s'.position := by
  unfold readString at h
  obtain ⟨t, s₁, hget, h⟩ := bind_eq_ok.mp h
  obtain ⟨rfl, rfl⟩ := get_eq_ok.mp hget
  cases hstring : stringFrom? source (source.size + 1) (s.position + 1) "" with
  | some found =>
    rw [hstring] at h
    obtain ⟨_, s₂, hset, h⟩ := bind_eq_ok.mp h
    obtain rfl := set_eq_ok.mp hset
    obtain ⟨-, rfl⟩ := pure_eq_ok.mp h
    have := le_of_stringFrom? hstring
    exact ⟨.moved (Nat.le_of_succ_le this), this⟩
  | none =>
    rw [hstring] at h
    exact (failAt_eq_ok.mp h).elim

/-! ## Captures and predicates -/

theorem captureIndex_passes {name : String} {i : Nat} (h : captureIndex name s = .ok (i, s')) :
    Passes s s' ∧ i < s'.names.length := by
  unfold captureIndex at h
  obtain ⟨t, s₁, hget, h⟩ := bind_eq_ok.mp h
  obtain ⟨rfl, rfl⟩ := get_eq_ok.mp hget
  cases hfind : s.names.findIdx? (· == name) with
  | some j =>
    rw [hfind] at h
    obtain ⟨rfl, rfl⟩ := pure_eq_ok.mp h
    exact ⟨.refl _, (List.findIdx?_eq_some_iff_getElem.mp hfind).1⟩
  | none =>
    rw [hfind] at h
    obtain ⟨_, s₂, hset, h⟩ := bind_eq_ok.mp h
    obtain rfl := set_eq_ok.mp hset
    obtain ⟨rfl, rfl⟩ := pure_eq_ok.mp h
    refine ⟨⟨Nat.le_refl _, List.prefix_append _ _, fun hnodup => ?_, by simp, by simp⟩, by simp⟩
    have hnew := List.findIdx?_eq_none_iff.mp hfind
    refine List.nodup_append.mpr ⟨hnodup, by simp, fun a ha b hb => ?_⟩
    rw [List.mem_singleton.mp hb]
    exact fun heq => by simpa [heq] using hnew a ha

theorem readCaptures_append {fuel : Nat} {captures captures' : List Nat}
    (h : readCaptures source fuel captures s = .ok (captures', s')) :
    ∃ more, captures' = captures ++ more ∧ Reads (· ∈ more) s s' := by
  induction fuel generalizing captures s with
  | zero =>
    obtain ⟨rfl, rfl⟩ := pure_eq_ok.mp h
    exact ⟨[], by simp, (Passes.refl _).congr (by simp)⟩
  | succ fuel ih =>
    unfold readCaptures at h
    obtain ⟨_, s₁, htrivia, h⟩ := bind_eq_ok.mp h
    obtain ⟨b, s₂, hpeek, h⟩ := bind_eq_ok.mp h
    obtain ⟨-, rfl⟩ := peek_eq_ok.mp hpeek
    have htrivia := skipTrivia_passes htrivia
    split at h
    · obtain ⟨rfl, rfl⟩ := pure_eq_ok.mp h
      exact ⟨[], by simp, htrivia.congr (by simp)⟩
    · obtain ⟨_, s₃, hbump, h⟩ := bind_eq_ok.mp h
      obtain ⟨name, s₄, hname, h⟩ := bind_eq_ok.mp h
      obtain ⟨i, s₅, hindex, h⟩ := bind_eq_ok.mp h
      obtain ⟨_, s₆, hmodify, h⟩ := bind_eq_ok.mp h
      obtain rfl := modify_eq_ok.mp hmodify
      obtain ⟨hindex, hi⟩ := captureIndex_passes hindex
      have hdefine : Reads (· = i) s₅ { s₅ with defined := i :: s₅.defined } :=
        ⟨Nat.le_refl _, List.prefix_refl _, id, by simp [or_comm], by simpa using hi⟩
      have hbefore := (htrivia.passes (bump_passes hbump).1).passes
        ((requireName_passes hname).passes hindex)
      obtain ⟨more, rfl, hmore⟩ := ih h
      exact ⟨i :: more, by simp, ((hdefine.trans hmore).after hbefore).congr (by simp)⟩

theorem readCaptures_reads {fuel : Nat} {captures : List Nat}
    (h : readCaptures source fuel [] s = .ok (captures, s')) : Reads (· ∈ captures) s s' := by
  obtain ⟨more, heq, hreads⟩ := readCaptures_append h
  rwa [heq, List.nil_append]

theorem readArguments_passes {fuel : Nat} {arguments arguments' : List RawArgument}
    (h : readArguments source fuel arguments s = .ok (arguments', s')) : Passes s s' := by
  induction fuel generalizing arguments s with
  | zero =>
    obtain ⟨-, rfl⟩ := pure_eq_ok.mp h
    exact .refl _
  | succ fuel ih =>
    unfold readArguments at h
    obtain ⟨_, s₁, htrivia, h⟩ := bind_eq_ok.mp h
    obtain ⟨b, s₂, hpeek, h⟩ := bind_eq_ok.mp h
    obtain ⟨-, rfl⟩ := peek_eq_ok.mp hpeek
    refine (skipTrivia_passes htrivia).passes ?_
    cases b with
    | none => exact (fail_eq_ok.mp h).elim
    | some b =>
      simp only at h
      split at h
      · obtain ⟨_, s₃, hbump, h⟩ := bind_eq_ok.mp h
        obtain ⟨-, rfl⟩ := pure_eq_ok.mp h
        exact (bump_passes hbump).1
      split at h
      · obtain ⟨t, s₃, hget, h⟩ := bind_eq_ok.mp h
        obtain ⟨rfl, rfl⟩ := get_eq_ok.mp hget
        obtain ⟨_, s₄, hbump, h⟩ := bind_eq_ok.mp h
        obtain ⟨name, s₅, hname, h⟩ := bind_eq_ok.mp h
        exact ((bump_passes hbump).1.passes (requireName_passes hname)).passes (ih h)
      split at h
      · obtain ⟨text, s₃, htext, h⟩ := bind_eq_ok.mp h
        exact (readString_passes htext).1.passes (ih h)
      split at h
      · obtain ⟨word, s₃, hword, h⟩ := bind_eq_ok.mp h
        exact (name?_passes hword).passes (ih h)
      · exact (fail_eq_ok.mp h).elim

theorem readPredicate_passes {u : Unit} (h : readPredicate source s = .ok (u, s')) :
    Passes s s' := by
  unfold readPredicate at h
  obtain ⟨t, s₁, hget, h⟩ := bind_eq_ok.mp h
  obtain ⟨rfl, rfl⟩ := get_eq_ok.mp hget
  obtain ⟨_, s₂, hbump, h⟩ := bind_eq_ok.mp h
  obtain ⟨name, s₃, hname, h⟩ := bind_eq_ok.mp h
  obtain ⟨arguments, s₄, harguments, h⟩ := bind_eq_ok.mp h
  obtain rfl := modify_eq_ok.mp h
  exact (((bump_passes hbump).1.passes (requireName_passes hname)).passes
    (readArguments_passes harguments)).passes
      ⟨Nat.le_refl _, List.prefix_refl _, id, by simp, by simp⟩

/-- A predicate is about the texts of a capture. -/
def Predicate.Mentions (p : Predicate) (i : Nat) : Prop :=
  p.capture = i ∨ p.condition = .equals (.capture i)

theorem resolveArgument_eq_ok {a : RawArgument} {b : Argument}
    (h : resolveArgument source a s = .ok (b, s')) :
    s = s' ∧ ∀ i, b = .capture i → i ∈ s.defined := by
  unfold resolveArgument at h
  cases a with
  | text t =>
    obtain ⟨rfl, rfl⟩ := pure_eq_ok.mp h
    exact ⟨rfl, by simp⟩
  | capture name offset =>
    obtain ⟨t, s₁, hget, h⟩ := bind_eq_ok.mp h
    obtain ⟨rfl, rfl⟩ := get_eq_ok.mp hget
    cases hfind : (s.names.findIdx? (· == name)).filter s.defined.contains with
    | none =>
      simp only [hfind] at h
      exact (failAt_eq_ok.mp h).elim
    | some i =>
      simp only [hfind] at h
      obtain ⟨rfl, rfl⟩ := pure_eq_ok.mp h
      obtain ⟨-, hdefined⟩ := Option.filter_eq_some_iff.mp hfind
      exact ⟨rfl, fun j hj => Argument.capture.inj hj ▸ by simpa using hdefined⟩

theorem readCondition_eq_ok {name : String} {offset : Nat} {rest : List Argument} {c : Condition}
    (h : readCondition source name offset rest s = .ok (c, s')) :
    s = s' ∧ ∀ i, c = .equals (.capture i) → .capture i ∈ rest := by
  unfold readCondition at h
  generalize stripNegations name.length name = bare at h
  split at h
  · split at h
    · obtain ⟨rfl, rfl⟩ := pure_eq_ok.mp h
      exact ⟨rfl, fun i hi => by simp [Condition.equals.inj hi]⟩
    · exact (failAt_eq_ok.mp h).elim
  · split at h
    · rename_i pattern
      cases hcompile : Regex.compile pattern with
      | ok r =>
        rw [hcompile] at h
        obtain ⟨rfl, rfl⟩ := pure_eq_ok.mp h
        exact ⟨rfl, by simp⟩
      | error e =>
        rw [hcompile] at h
        exact (failAt_eq_ok.mp h).elim
    · exact (failAt_eq_ok.mp h).elim
    · exact (failAt_eq_ok.mp h).elim
  · generalize rest.mapM Argument.text? = values at h
    split at h
    · exact (failAt_eq_ok.mp h).elim
    · exact (failAt_eq_ok.mp h).elim
    · obtain ⟨rfl, rfl⟩ := pure_eq_ok.mp h
      exact ⟨rfl, by simp⟩
  · exact (failAt_eq_ok.mp h).elim

/-- A predicate mentions only captures that are defined. -/
theorem resolvePredicate_eq_ok {p : RawPredicate} {q : Predicate}
    (h : resolvePredicate source p s = .ok (q, s')) :
    s = s' ∧ ∀ i, q.Mentions i → i ∈ s.defined := by
  unfold resolvePredicate at h
  obtain ⟨name, offset, arguments⟩ := p
  cases arguments with
  | nil => exact (failAt_eq_ok.mp h).elim
  | cons first rest =>
    obtain ⟨a, s₁, hfirst, h⟩ := bind_eq_ok.mp h
    obtain ⟨rfl, hcapture⟩ := resolveArgument_eq_ok hfirst
    cases a with
    | text t => exact (failAt_eq_ok.mp h).elim
    | capture i =>
      obtain ⟨others, s₂, hrest, h⟩ := bind_eq_ok.mp h
      obtain ⟨rfl, hothers⟩ := mapM_eq_ok (fun _ _ _ _ h => (resolveArgument_eq_ok h).1) hrest
      obtain ⟨c, s₃, hcondition, h⟩ := bind_eq_ok.mp h
      obtain ⟨rfl, hother⟩ := readCondition_eq_ok hcondition
      obtain ⟨rfl, rfl⟩ := pure_eq_ok.mp h
      refine ⟨rfl, fun j hj => ?_⟩
      rcases hj with rfl | hj
      · exact hcapture _ rfl
      · obtain ⟨raw, -, hraw⟩ := hothers _ (hother j hj)
        exact (resolveArgument_eq_ok hraw).2 j rfl

/-! ## Kinds and fields -/

theorem requireKind_eq_ok {offset : Nat} {kind : String} {ofRule : Bool} {p : Problem} {u : Unit}
    (h : requireKind l source offset kind ofRule p s = .ok (u, s')) :
    s = s' ∧ l.HasKind kind ofRule := by
  unfold requireKind at h
  split at h
  · exact (failAt_eq_ok.mp h).elim
  · rename_i hne
    obtain ⟨-, rfl⟩ := pure_eq_ok.mp h
    exact ⟨rfl, Language.hasKind_of_symbolsOfKind (by simpa using hne)⟩

theorem readField_passes {f : FieldId} (h : readField l source s = .ok (f, s')) :
    Passes s s' ∧ f < l.table.fields.size := by
  unfold readField at h
  obtain ⟨t, s₁, hget, h⟩ := bind_eq_ok.mp h
  obtain ⟨rfl, rfl⟩ := get_eq_ok.mp hget
  obtain ⟨name, s₂, hname, h⟩ := bind_eq_ok.mp h
  cases hfield : l.fieldId? name with
  | none =>
    simp only [hfield] at h
    exact (failAt_eq_ok.mp h).elim
  | some g =>
    simp only [hfield] at h
    obtain ⟨rfl, rfl⟩ := pure_eq_ok.mp h
    exact ⟨requireName_passes hname, Language.fieldId?_lt hfield⟩

theorem readMissing_passes {t : KindTest} (h : readMissing l source s = .ok (t, s')) :
    Passes s s' ∧ t.Known l := by
  unfold readMissing at h
  obtain ⟨_, s₁, htrivia, h⟩ := bind_eq_ok.mp h
  obtain ⟨r, s₂, hget, h⟩ := bind_eq_ok.mp h
  obtain ⟨rfl, rfl⟩ := get_eq_ok.mp hget
  obtain ⟨b, s₃, hpeek, h⟩ := bind_eq_ok.mp h
  obtain ⟨-, rfl⟩ := peek_eq_ok.mp hpeek
  have htrivia := skipTrivia_passes htrivia
  cases b with
  | none =>
    obtain ⟨rfl, rfl⟩ := pure_eq_ok.mp h
    exact ⟨htrivia, trivial⟩
  | some b =>
    simp only at h
    split at h
    · obtain ⟨text, s₄, htext, h⟩ := bind_eq_ok.mp h
      obtain ⟨_, s₅, hkind, h⟩ := bind_eq_ok.mp h
      obtain ⟨rfl, hknown⟩ := requireKind_eq_ok hkind
      obtain ⟨rfl, rfl⟩ := pure_eq_ok.mp h
      exact ⟨htrivia.passes (readString_passes htext).1, hknown⟩
    split at h
    · obtain ⟨name, s₄, hname, h⟩ := bind_eq_ok.mp h
      obtain ⟨_, s₅, hkind, h⟩ := bind_eq_ok.mp h
      obtain ⟨rfl, hknown⟩ := requireKind_eq_ok hkind
      obtain ⟨rfl, rfl⟩ := pure_eq_ok.mp h
      exact ⟨htrivia.passes (name?_passes hname), hknown⟩
    · obtain ⟨rfl, rfl⟩ := pure_eq_ok.mp h
      exact ⟨htrivia, trivial⟩

theorem readTest_passes {t : KindTest} (h : readTest l source s = .ok (t, s')) :
    Passes s s' ∧ t.Known l := by
  unfold readTest at h
  obtain ⟨r, s₁, hget, h⟩ := bind_eq_ok.mp h
  obtain ⟨rfl, rfl⟩ := get_eq_ok.mp hget
  obtain ⟨name, s₂, hname, h⟩ := bind_eq_ok.mp h
  replace hname := requireName_passes hname
  split at h
  · obtain ⟨rfl, rfl⟩ := pure_eq_ok.mp h
    exact ⟨hname, trivial⟩
  · obtain ⟨hmissing, hknown⟩ := readMissing_passes h
    exact ⟨hname.passes hmissing, hknown⟩
  · obtain ⟨_, s₃, hkind, h⟩ := bind_eq_ok.mp h
    obtain ⟨rfl, hknown⟩ := requireKind_eq_ok hkind
    obtain ⟨rfl, rfl⟩ := pure_eq_ok.mp h
    exact ⟨hname, hknown⟩

theorem readQuantifier_passes {q : Quantifier} (h : readQuantifier source s = .ok (q, s')) :
    Passes s s' := by
  unfold readQuantifier at h
  obtain ⟨b, s₁, hpeek, h⟩ := bind_eq_ok.mp h
  obtain ⟨-, rfl⟩ := peek_eq_ok.mp hpeek
  have hmark {found : Quantifier} (h : (bump >>= fun _ => pure found : Reader Quantifier) s =
      .ok (q, s')) : Passes s s' := by
    obtain ⟨_, s₂, hbump, h⟩ := bind_eq_ok.mp h
    obtain ⟨-, rfl⟩ := pure_eq_ok.mp h
    exact (bump_passes hbump).1
  have hnone (h : (pure .one : Reader Quantifier) s = .ok (q, s')) : Passes s s' := by
    obtain ⟨-, rfl⟩ := pure_eq_ok.mp h
    exact .refl _
  cases b with
  | none => exact hnone h
  | some b =>
    simp only at h
    by_cases hoptional : b = '?'.toUInt8
    · rw [if_pos hoptional] at h
      exact hmark h
    rw [if_neg hoptional] at h
    by_cases hmany : b = '*'.toUInt8
    · rw [if_pos hmany] at h
      exact hmark h
    rw [if_neg hmany] at h
    by_cases hsome : b = '+'.toUInt8
    · rw [if_pos hsome] at h
      exact hmark h
    · rw [if_neg hsome] at h
      exact hnone h

end Query

end Glr
