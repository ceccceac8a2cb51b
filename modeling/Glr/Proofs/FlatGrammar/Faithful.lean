import Glr.Proofs.FlatGrammar.Lowering
import Glr.Proofs.FlatGrammar.Meaning
import Glr.Proofs.FlatGrammar.Titled

/-!
# Glr.Proofs.FlatGrammar.Faithful

A flat grammar derives from a nonterminal what the rule of its name stands for:

```
Derives [A] w   →   w in a meaning of A that all productions agree with   →   Reads rule w
Reads rule w    →   w from an alternative of the run that flattened rule  →   Derives [A] w
```

The second argument follows how the rule comes to stand for some tokens, and is about any run
that flattens the rule on the way to the numbering in the end:

```
SEQ      members    what is read so far, and then the other members
REPEAT1  repeated   the symbol of the repetition, by its productions
other    rule       some alternative
```

Flattening all rules goes through them one by one, so both directions are carried from one
rule to the next.
-/

namespace Glr

open Flatten

/-- Tokens and productions of a numbering agree with what symbols stand for. -/
structure Numbering.Closed (f : Numbering) (M : Meaning) : Prop where
  sound : f.Sound
  tokens : ∀ x, IsToken f.symbols x → M x [x]
  productions : ∀ p ∈ f.productions, ∀ w, Denotes M p.rhs w → M p.lhs w

/-- What is derived is such a meaning. -/
theorem Numbering.Sound.closed {f : Numbering} (hf : f.Sound) :
    f.Closed fun x w => Derives (IsToken f.symbols) (· ∈ f.productions) [x] w where
  sound := hf
  tokens := fun _ hx => .token hx .nil
  productions := fun p hp _ hw => Derives.singleton_iff.mpr (.inr ⟨p, hp, rfl, .of_denotes hw⟩)

/-- Every rule with a symbol of its own was flattened into productions. -/
def Numbering.Lowered (g : Grammar) (f : Numbering) : Prop :=
  ∀ name x r, f.lookup name = some x → f.isLexical x = false → g.rules.get? name = some r →
    ∃ s s' as, ruleOf g r s = .ok (as, s') ∧ s'.Keeps f ∧ ∀ a ∈ as, production x a ∈ f.productions

variable {g : Grammar} {f : Numbering} {M : Meaning} {r : Rule} {w : List Symbol}

/-- Every run that flattens a rule leaves an alternative that stands for `w`. -/
structure Lowers (g : Grammar) (f : Numbering) (M : Meaning) (r : Rule) (w : List Symbol) :
    Prop where
  rule : ∀ {fuel : Nat} {entered : List String} {s s' : Numbering} {as : List Alternative},
    rule g (inlineBody g fuel entered) r s = .ok (as, s') → s'.Keeps f → AnyOf M as w
  /-- Members of a sequence come after whatever is before them. -/
  members : ∀ {a : RuleAttributes} {c : Option Rule} {ms : List Rule}, r = .node .seq a c ms →
    ∀ {fuel : Nat} {entered : List String} {heads as : List Alternative} {s s' : Numbering}
      {u : List Symbol}, sequence g (inlineBody g fuel entered) heads ms s = .ok (as, s') →
      s'.Keeps f → AnyOf M heads u → AnyOf M as (u ++ w)
  /-- The symbol of a repetition is once more the body, or the body. -/
  repeated : ∀ {a : RuleAttributes} {r' : Rule} {ms : List Rule},
    r = .node .oneOrMore a (some r') ms →
    ∀ {fuel : Nat} {entered : List String} {bs : List Alternative} {s s' : Numbering} {x : Symbol},
      Flatten.rule g (inlineBody g fuel entered) r' s = .ok (bs, s') → s'.Keeps f →
      (∀ b ∈ bs, ∀ v, Denotes M (x :: b.rhs) v → M x v) →
      (∀ b ∈ bs, ∀ v, Denotes M b.rhs v → M x v) → M x w

/-- Rules that are neither sequences nor repetitions. -/
theorem Lowers.of_rule {k : RuleKind} {a : RuleAttributes} {c : Option Rule} {ms : List Rule}
    (hk : k ≠ .seq ∧ k ≠ .oneOrMore)
    (h : ∀ {fuel : Nat} {entered : List String} {s s' : Numbering} {as : List Alternative},
      Flatten.rule g (inlineBody g fuel entered) (.node k a c ms) s = .ok (as, s') → s'.Keeps f →
      AnyOf M as w) : Lowers g f M (.node k a c ms) w where
  rule := h
  members := by
    intro _ _ _ he
    cases he
    exact absurd rfl hk.1
  repeated := by
    intro _ _ _ he
    cases he
    exact absurd rfl hk.2

/-- A sequence starts with nothing before its members. -/
theorem Lowers.of_members {a : RuleAttributes} {c : Option Rule} {ms : List Rule}
    (h : ∀ {fuel : Nat} {entered : List String} {heads as : List Alternative} {s s' : Numbering}
      {u : List Symbol}, sequence g (inlineBody g fuel entered) heads ms s = .ok (as, s') →
      s'.Keeps f → AnyOf M heads u → AnyOf M as (u ++ w)) : Lowers g f M (.node .seq a c ms) w where
  rule := fun hrun hf => h (rule_seq hrun) hf (anyOf_empty.mpr rfl)
  members := by
    intro _ _ _ he
    cases he
    exact h
  repeated := by
    intro _ _ _ he
    cases he

/-- The productions of a repetition are there in the end. -/
theorem Numbering.Closed.repetition (hM : f.Closed M) {orNone : Bool} {as bs : List Alternative}
    {s s' : Numbering} (h : repetition orNone bs s = .ok (as, s')) (hf : s'.Keeps f) :
    (∀ b ∈ bs, ∀ v, Denotes M (s.symbols.size :: b.rhs) v → M s.symbols.size v) ∧
      ∀ b ∈ bs, ∀ v, Denotes M b.rhs v → M s.symbols.size v := by
  obtain ⟨-, name, hadded⟩ := repetition_eq_ok h
  have hside {xs : List Symbol} (hxs : xs ∈ bs.flatMap fun b => [s.symbols.size :: b.rhs, b.rhs])
      (v : List Symbol) (hv : Denotes M xs v) : M s.symbols.size v := by
    obtain ⟨p, hp, hlhs, rfl⟩ := hadded.sides xs hxs
    rw [← hlhs]
    exact hM.productions p (hf.productions p hp) v hv
  constructor
  · intro b hb
    exact hside (List.mem_flatMap.mpr ⟨b, hb, by simp⟩)
  · intro b hb
    exact hside (List.mem_flatMap.mpr ⟨b, hb, by simp⟩)

/-- So what the content stands for, once or several times, the symbol derives. -/
theorem Lowers.of_repeated (hM : f.Closed M) {a : RuleAttributes} {r : Rule} {ms : List Rule}
    (h : ∀ {fuel : Nat} {entered : List String} {bs : List Alternative} {s s' : Numbering}
      {x : Symbol}, Flatten.rule g (inlineBody g fuel entered) r s = .ok (bs, s') → s'.Keeps f →
      (∀ b ∈ bs, ∀ v, Denotes M (x :: b.rhs) v → M x v) →
      (∀ b ∈ bs, ∀ v, Denotes M b.rhs v → M x v) → M x w) :
    Lowers g f M (.node .oneOrMore a (some r) ms) w where
  rule := by
    intro fuel entered s s' as hrun hf
    obtain ⟨bs, s₁, hbs, hrun⟩ := rule_repetition (.inr rfl) hrun
    obtain ⟨hmore, hone⟩ := hM.repetition hrun hf
    obtain ⟨rfl, -⟩ := repetition_eq_ok hrun
    exact ⟨_, List.mem_cons_self, Denotes.singleton_iff.mpr
      (h hbs ((repetition_keeps hrun).trans hf) hmore hone)⟩
  members := by
    intro _ _ _ he
    cases he
  repeated := by
    intro _ _ _ he
    cases he
    exact h

/-- A renaming derives what its content derives. -/
theorem Numbering.Closed.rename (hM : f.Closed M) {label : Symbol} {as bs : List Alternative}
    {s s' : Numbering} (h : rename label bs s = .ok (as, s')) (hf : s'.Keeps f)
    (hw : AnyOf M bs w) : AnyOf M as w := by
  rcases rename_eq_ok h with ⟨-, hrhs⟩ | ⟨hrhs, name, hadded⟩
  · exact (anyOf_congr hrhs).mpr hw
  · rw [anyOf_iff] at hw ⊢
    obtain ⟨xs, hxs, hw⟩ := hw
    obtain ⟨p, hp, hlhs, rfl⟩ := hadded.sides xs hxs
    have hmade := hM.productions p (hf.productions p hp) w hw
    rw [hlhs] at hmade
    rw [hrhs]
    exact ⟨_, List.mem_singleton_self _, Denotes.singleton_iff.mpr hmade⟩

/-- What a rule stands for is derived from the alternatives of any run that flattens it. -/
theorem Grammar.Reads.lowers (hM : f.Closed M) (hg : f.Lowered g) (h : g.Reads f r w) :
    Lowers g f M r w := by
  induction h with
  | blank =>
    refine .of_rule (by simp) fun hrun _ => ?_
    obtain ⟨rfl, -⟩ := rule_blank hrun
    exact anyOf_empty.mpr rfl
  | @token k a c ms key x hk hkey hx =>
    refine .of_rule (by constructor <;> rintro rfl <;> contradiction) fun hrun hf => ?_
    obtain ⟨y, hy, rfl⟩ := rule_token hk hrun
    obtain ⟨key', hkey', hlook, -⟩ := anonymousToken_eq_ok hy
    obtain rfl := Except.ok.inj (hkey.symm.trans hkey')
    obtain rfl := Option.some.inj ((hf.anonymous key y hlook).symm.trans hx)
    exact anyOf_single.mpr (hM.tokens y (hM.sound.anonymous (key, y) (mem_of_lookup hx)))
  | @named a c ms x hi hx ht =>
    refine .of_rule (by simp) fun hrun hf => ?_
    rcases rule_symbol hrun with ⟨hi', -⟩ | ⟨-, y, hy, rfl, rfl⟩
    · simp [hi] at hi'
    · rw [Numbering.lookup, hf.named] at hx
      obtain rfl := Option.some.inj (hy.symm.trans hx)
      exact anyOf_single.mpr (hM.tokens y (Numbering.isToken_of_isLexical ht))
  | @rule a c ms x r w hi hx ht hr _ ih =>
    refine .of_rule (by simp) fun hrun hf => ?_
    rcases rule_symbol hrun with ⟨hi', -⟩ | ⟨-, y, hy, rfl, rfl⟩
    · simp [hi] at hi'
    · obtain ⟨s₁, s₂, as, hrule, hkeeps, hprods⟩ := hg _ x r hx ht hr
      rw [Numbering.lookup, hf.named] at hx
      obtain rfl := Option.some.inj (hy.symm.trans hx)
      obtain ⟨b, hb, hw⟩ := ih.rule hrule hkeeps
      exact anyOf_single.mpr (hM.productions _ (hprods b hb) w hw)
  | inlined hi hr _ ih =>
    refine .of_rule (by simp) fun hrun hf => ?_
    rcases rule_symbol hrun with ⟨-, hrun⟩ | ⟨hi', -⟩
    · obtain ⟨n, body, -, hbody, hrun⟩ := inlineBody_eq_ok hrun
      obtain rfl := Option.some.inj (hr.symm.trans hbody)
      exact ih.rule hrun hf
    · simp [hi] at hi'
  | nil =>
    refine .of_members fun hrun _ hu => ?_
    obtain ⟨rfl, -⟩ := Stateful.pure_eq_ok.mp hrun
    rwa [List.append_nil]
  | cons _ _ ih ihs =>
    refine .of_members fun hrun hf hu => ?_
    obtain ⟨tails, s₁, htails, hrun⟩ := Stateful.bind_eq_ok.mp hrun
    obtain ⟨both, s₂, hboth, hrun⟩ := Stateful.bind_eq_ok.mp hrun
    obtain ⟨rfl, rfl⟩ := cross_eq_ok hboth
    have hkeeps := (sequence_keeps (fun name => inlineBody_keeps g _ _ name) _ hrun).trans hf
    have hboth := anyOf_cross.mpr ⟨_, _, rfl, hu, ih.rule htails hkeeps⟩
    rw [← List.append_assoc]
    exact ihs.members rfl hrun hf hboth
  | choice hm _ ih =>
    refine .of_rule (by simp) fun hrun hf => ?_
    obtain ⟨s₁, s₂, bs, hmember, hkeeps, hbs⟩ :=
      alternatives_of_mem (fun name => inlineBody_keeps g _ _ name) hm (rule_choice hrun)
    obtain ⟨b, hb, hw⟩ := ih.rule hmember (hkeeps.trans hf)
    exact ⟨b, hbs b hb, hw⟩
  | zero =>
    refine .of_rule (by simp) fun hrun _ => ?_
    obtain ⟨bs, s₁, -, hrun⟩ := rule_repetition (.inl rfl) hrun
    obtain ⟨rfl, -⟩ := repetition_eq_ok hrun
    exact ⟨{}, by simp, .nil⟩
  | many _ ih =>
    refine .of_rule (by simp) fun hrun hf => ?_
    obtain ⟨bs, s₁, hbs, hrun⟩ := rule_repetition (.inl rfl) hrun
    obtain ⟨hmore, hone⟩ := hM.repetition hrun hf
    have hkeeps := (repetition_keeps hrun).trans hf
    obtain ⟨rfl, -⟩ := repetition_eq_ok hrun
    exact ⟨_, List.mem_cons_self, Denotes.singleton_iff.mpr
      (ih.repeated rfl hbs hkeeps hmore hone)⟩
  | one _ ih =>
    refine .of_repeated hM fun hbs hf _ hone => ?_
    obtain ⟨b, hb, hw⟩ := ih.rule hbs hf
    exact hone b hb _ hw
  | more _ _ ihs ih =>
    refine .of_repeated hM fun hbs hf hmore hone => ?_
    obtain ⟨b, hb, hw⟩ := ih.rule hbs hf
    exact hmore b hb _ (.cons (ihs.repeated rfl hbs hf hmore hone) hw)
  | @wrapper k a r ms w hk _ ih =>
    refine .of_rule (by constructor <;> rintro rfl <;> contradiction) fun hrun hf => ?_
    by_cases hr : k = .renamed
    · subst hr
      obtain ⟨name, label, bs, s₁, s₂, -, hbs, hrun⟩ := rule_renamed hrun
      exact hM.rename hrun hf (ih.rule hbs ((rename_keeps hrun).trans hf))
    · obtain ⟨bs, fields, hbs, hshown⟩ := rule_wrapper hk hr hrun
      exact (anyOf_congr (map_rhs_of_shown hshown)).mpr (ih.rule hbs hf)

end Glr

namespace Glr

namespace Flatten

variable {g : Grammar} {f s s' : Numbering} {M : Meaning} {name : String} {r : Rule}
  {entries : List (String × Rule)} {u : Unit}

/-! ## All rules -/

/-- Flattening one rule keeps names and tokens. -/
theorem flattened_keeps {x : Symbol} {as : List Alternative}
    (h : ruleOf g r { s with currentRule := some x } = .ok (as, s')) :
    s.Keeps { s' with
      productions := s'.productions ++ (as.eraseDups.map (production x)).toArray } := by
  have hkeeps := ruleOf_keeps g r h
  exact { hkeeps with
    productions := fun p hp => mem_addProductions.mpr (.inl (hkeeps.productions p hp)) }

theorem rules_keeps (h : rules g entries s = .ok (u, s')) : s.Keeps s' := by
  induction entries generalizing s with
  | nil =>
    obtain rfl := Stateful.modify_eq_ok.mp h
    exact { Numbering.Keeps.refl s with }
  | cons e rest ih =>
    rcases rules_cons h with ⟨-, h⟩ | ⟨x, as, s₁, -, -, hrun, h⟩
    · exact ih h
    · exact (flattened_keeps hrun).trans (ih h)

/-- What is kept from after adding productions is kept from before. -/
theorem keeps_of_productions {x : Symbol} {as : List Alternative}
    (h : Numbering.Keeps { s with
      productions := s.productions ++ (as.eraseDups.map (production x)).toArray } f) : s.Keeps f :=
  { h with productions := fun p hp => h.productions p (mem_addProductions.mpr (.inl hp)) }

/-- All productions that are added agree with a meaning. -/
theorem rules_reading (hentries : ∀ e ∈ entries, g.rules.get? e.1 = some e.2) (hs : s.Sound)
    (hm : Means g f M s) (h : rules g entries s = .ok (u, s')) (hf : s'.Keeps f) :
    ∃ M', s.Agree M M' ∧ Means g f M' s' := by
  induction entries generalizing s M with
  | nil =>
    obtain rfl := Stateful.modify_eq_ok.mp h
    exact ⟨M, fun _ _ => rfl, { hm with }⟩
  | cons e rest ih =>
    obtain ⟨name, r⟩ := e
    obtain ⟨hr, hrest⟩ := List.forall_mem_cons.mp hentries
    rcases rules_cons h with ⟨-, h⟩ | ⟨x, as, s₁, hx, hl, hrun, h⟩
    · exact ih hrest hs hm h
    · have hkeeps := flattened_keeps hrun
      have hext := flattened_extends hs hx hl hrun
      have hf₁ := (rules_keeps h).trans hf
      have hs' : Numbering.Sound { s with currentRule := some x } := { hs with }
      obtain ⟨M₁, hagree₁, hm₁, hread⟩ := (ruleOf_reading g f r).exists_meaning hs'
        (keeps_of_productions hf₁) { hm with } hrun
      have hx' : f.lookup name = some x := by
        rw [Numbering.lookup, (hkeeps.trans hf₁).named]
        exact hx
      have hl' : f.isLexical x = false := ((hkeeps.trans hf₁).isLexical_eq hs hx).trans hl
      obtain ⟨r', hr', hmeans⟩ := hm₁.rules name x hx' hl'
      obtain rfl := Option.some.inj (hr.symm.trans hr')
      -- the symbol already means what its rule stands for
      have hm₂ : Means g f M₁ { s₁ with
          productions := s₁.productions ++ (as.eraseDups.map (production x)).toArray } := by
        refine { hm₁ with productions := fun p hp w hw => ?_ }
        rcases mem_addProductions.mp hp with hp | ⟨a, ha, rfl⟩
        · exact hm₁.productions p hp w hw
        · exact (hmeans w).mpr (hread w ⟨a, ha, hw⟩)
      obtain ⟨M', hagree, hm'⟩ := ih hrest hext.sound hm₂ h
      exact ⟨M', hagree₁.trans hext.grows.size_le hagree, hm'⟩

/-- Every rule with a symbol of its own is flattened at some time. -/
theorem rules_lowered (hs : s.Sound) (h : rules g entries s = .ok (u, s')) (hf : s'.Keeps f)
    (he : (name, r) ∈ entries) {x : Symbol} (hx : f.lookup name = some x)
    (hl : f.isLexical x = false) :
    ∃ s₁ s₂ as, ruleOf g r s₁ = .ok (as, s₂) ∧ s₂.Keeps f ∧ ∀ a ∈ as, production x a ∈ f.productions := by
  induction entries generalizing s with
  | nil => simp at he
  | cons e rest ih =>
    have hkeeps := (rules_keeps h).trans hf
    obtain ⟨name', r'⟩ := e
    rcases rules_cons h with ⟨hlex, h⟩ | ⟨y, as, s₁, hy, hly, hrun, h⟩
    · rcases List.mem_cons.mp he with he | he
      · obtain ⟨rfl, rfl⟩ := Prod.mk.inj he
        rw [Numbering.lookup, hkeeps.named] at hx
        rw [hkeeps.isLexical_eq hs hx, hlex x hx] at hl
        contradiction
      · exact ih hs h he
    · rcases List.mem_cons.mp he with he | he
      · obtain ⟨rfl, rfl⟩ := Prod.mk.inj he
        rw [Numbering.lookup, hkeeps.named] at hx
        obtain rfl := Option.some.inj (hx.symm.trans hy)
        have hf₁ := (rules_keeps h).trans hf
        exact ⟨_, s₁, as, hrun, keeps_of_productions hf₁, fun a ha =>
          hf₁.productions _ (mem_addProductions.mpr (.inr ⟨a, ha, rfl⟩))⟩
      · exact ih (flattened_extends hs hy hly hrun).sound h he

/-! ## Grammars -/

/-- After the four stages of numbering every nonterminal has the name of a rule. -/
theorem Stages.titled {start : String} {s₁ s₂ s₃ s : Numbering} {xs ys : List Symbol}
    (hr : g.rules.get? start = some r) (h : Stages g start xs ys s₁ s₂ s₃ s) : s.Titled g := by
  have hbare₁ := Numbering.externals_leaves _ _ _ _ h.externals Numbering.initial_bare
  have hbare₂ := Numbering.tokens_leaves _ _ _ _ h.tokens hbare₁
  have hbare₃ := (Numbered.Leaves.mapM Numbering.extra_leaves _) _ _ _ h.extras hbare₂
  have hnames : ∀ name ∈ start :: g.rules.keys.filter (· != start),
      ∃ r, g.rules.get? name = some r := by
    intro name hname
    rcases List.mem_cons.mp hname with rfl | hname
    · exact ⟨r, hr⟩
    · exact Dictionary.exists_get?_of_mem_keys (List.mem_filter.mp hname).1
  exact Numbering.nonterminals_titled hnames (hbare₃.titled h.spec.2.1) h.nonterminals

/-- When the rules are flattened every nonterminal has the name of a rule. -/
theorem grammar_titled {start : String} {flat : FlatGrammar} (hr : g.rules.get? start = some r)
    (h : grammar g start Numbering.initial = .ok (flat, s')) :
    ∃ s, s.Sound ∧ s.Titled g ∧ rules g g.rules.entries s = .ok ((), s') ∧
      flat.symbols = s'.symbols ∧ flat.productions = s'.productions := by
  obtain ⟨s₁, s₂, s₃, s₄, hstages, -, hrules, hsymbols, hproductions, -⟩ := grammar_eq_ok h
  exact ⟨s₄, hstages.sound, hstages.titled hr, hrules, hsymbols, hproductions⟩

/-- Before the rules are flattened a nonterminal can mean what its rule stands for. -/
theorem titled_means (hs : s.Titled g) (hf : s.Keeps f) :
    Means g f (fun x w => IsToken s.symbols x ∧ w = [x] ∨ ∃ info r, s.symbols[x]? = some info ∧
      info.kind = .nonterminal ∧ g.rules.get? info.name = some r ∧ g.Reads f r w) s where
  tokens := by
    intro x hx w
    constructor
    · rintro (⟨-, hw⟩ | ⟨info, r, hi, hk, -⟩)
      · exact hw
      · obtain ⟨i, hi', hk'⟩ := hx
        obtain rfl := Option.some.inj (hi.symm.trans hi')
        simp [hk] at hk'
    · exact fun hw => .inl ⟨hx, hw⟩
  rules := by
    intro name x hx hl
    rw [Numbering.lookup, hf.named] at hx
    rcases hs.named name x hx with ⟨info, hi, hk⟩ | ⟨info, hi, hk, rfl⟩
    · rw [Numbering.isLexical, hf.grows x info hi] at hl
      rcases hk with hk | hk <;> simp [hk] at hl
    · obtain ⟨-, r, hr⟩ := hs.nonterminal x info hi hk
      refine ⟨r, hr, fun w => ?_⟩
      constructor
      · rintro (⟨⟨i, hi', hk'⟩, -⟩ | ⟨i, r', hi', -, hr', hw⟩)
        · obtain rfl := Option.some.inj (hi.symm.trans hi')
          simp [hk] at hk'
        · obtain rfl := Option.some.inj (hi.symm.trans hi')
          obtain rfl := Option.some.inj (hr.symm.trans hr')
          exact hw
      · exact fun hw => .inr ⟨info, r, hi, hk, hr, hw⟩
  productions := fun p hp => absurd hp (hs.productions p)

variable {x : Symbol} {w : List Symbol}

/-- What is derived from the symbol of a rule the rule stands for. -/
theorem reads_of_derives (hs : s.Sound) (ht : s.Titled g)
    (h : rules g g.rules.entries s = .ok (u, s')) (hx : s'.lookup name = some x)
    (hl : s'.isLexical x = false) (hr : g.rules.get? name = some r)
    (hw : Derives (IsToken s'.symbols) (· ∈ s'.productions) [x] w) : g.Reads s' r w := by
  have hentries : ∀ e ∈ g.rules.entries, g.rules.get? e.1 = some e.2 :=
    fun _ he => Dictionary.get?_eq_some_iff.mpr he
  obtain ⟨M, -, hm⟩ :=
    rules_reading hentries hs (titled_means ht (rules_keeps h)) h (Numbering.Keeps.refl s')
  obtain ⟨r', hr', hmeans⟩ := hm.rules name x hx hl
  obtain rfl := Option.some.inj (hr.symm.trans hr')
  have hw := hw.denotes (fun x hx => (hm.tokens x hx [x]).mpr rfl) hm.productions
  exact (hmeans w).mp (Denotes.singleton_iff.mp hw)

/-- What a rule stands for is derived from its symbol. -/
theorem derives_of_reads (hs : s.Sound) (h : rules g g.rules.entries s = .ok (u, s'))
    (hx : s'.lookup name = some x) (hl : s'.isLexical x = false)
    (hr : g.rules.get? name = some r) (hw : g.Reads s' r w) :
    Derives (IsToken s'.symbols) (· ∈ s'.productions) [x] w := by
  have hclosed := (rules_spec hs h).sound.closed
  have hlowered : s'.Lowered g := fun name x r hx hl hr =>
    rules_lowered hs h (Numbering.Keeps.refl s') (Dictionary.get?_eq_some_iff.mp hr) hx hl
  obtain ⟨s₁, s₂, as, hrun, hkeeps, hprods⟩ := hlowered name x r hx hl hr
  obtain ⟨a, ha, hw⟩ := (hw.lowers hclosed hlowered).rule hrun hkeeps
  exact hclosed.productions _ (hprods a ha) w hw

end Flatten

/-- Flattening keeps what rules stand for: a nonterminal derives some tokens by the
productions, those of repetitions and renamings included, iff its rule stands for them. -/
theorem FlatGrammar.derives_iff_reads {grammar : Grammar} {g : FlatGrammar}
    (h : FlatGrammar.ofGrammar grammar = .ok g) :
    ∃ start s, grammar.startRule? = some start ∧
      Flatten.grammar grammar start Numbering.initial = .ok (g, s) ∧
      ∀ A info, g.symbols[A]? = some info → info.kind = .nonterminal →
        ∃ r, grammar.rules.get? info.name = some r ∧
          ∀ w, g.Derives [A] w ↔ grammar.Reads s r w := by
  obtain ⟨start, r₀, f, hstart, hr₀, hrun⟩ := ofGrammar_eq_ok h
  refine ⟨start, f, hstart, hrun, fun A info hi hk => ?_⟩
  obtain ⟨s, hs, ht, hrules, hsymbols, hproductions⟩ := Flatten.grammar_titled hr₀ hrun
  have hkeeps := Flatten.rules_keeps hrules
  rw [hsymbols] at hi
  obtain ⟨hlook, r, hr⟩ := ht.nonterminal A info (hkeeps.nonterminals A info hi hk) hk
  have hlook : f.lookup info.name = some A := by
    rw [Numbering.lookup, hkeeps.named]
    exact hlook
  have hl : f.isLexical A = false := by simp [Numbering.isLexical, hi, hk]
  refine ⟨r, hr, fun w => ?_⟩
  unfold FlatGrammar.Derives
  rw [hsymbols, hproductions]
  constructor
  · exact Flatten.reads_of_derives hs ht hrules hlook hl hr
  · exact Flatten.derives_of_reads hs hrules hlook hl hr

/-- Pairs of `a` and `b`, each of them shown as a node of its own. -/
def Grammar.pairs : Grammar :=
  { name := "pairs", extras := some [] : Grammar }
    |>.addRule "s" (.many (.renamed (.seq [.string "a", .string "b"]) "pair" true))

/-- The two tokens come first, then the rule, and then a symbol for a pair and one for the
repetition. -/
theorem FlatGrammar.derives_iff_reads_pairs : ∃ g s r, FlatGrammar.ofGrammar .pairs = .ok g ∧
    Flatten.grammar .pairs "s" Numbering.initial = .ok (g, s) ∧
    g.productions.toList.map (fun p => (p.lhs, p.rhs)) =
      [(5, [1, 2]), (6, [6, 5]), (6, [5]), (3, [6]), (3, [])] ∧
    Grammar.pairs.rules.get? "s" = some r ∧
    ∀ w, g.Derives [3] w ↔ Grammar.pairs.Reads s r w := by
  have hchecks : (FlatGrammar.ofGrammar .pairs).toOption.any (fun g =>
      (g.symbols[3]?.any fun info => info.kind == .nonterminal && info.name == "s") &&
        decide (g.productions.toList.map (fun p => (p.lhs, p.rhs)) =
          [(5, [1, 2]), (6, [6, 5]), (6, [5]), (3, [6]), (3, [])])) = true := by
    decide +kernel
  obtain ⟨g, hg, hchecks⟩ := exists_ok hchecks
  simp only [Bool.and_eq_true, Option.any_eq_true, beq_iff_eq, decide_eq_true_eq] at hchecks
  obtain ⟨⟨info, hi, hk, hname⟩, hproductions⟩ := hchecks
  obtain ⟨start, s, hstart, hrun, hlanguage⟩ := FlatGrammar.derives_iff_reads hg
  obtain rfl : "s" = start := Option.some.inj hstart
  obtain ⟨r, hr, hlanguage⟩ := hlanguage 3 info hi hk
  rw [hname] at hr
  exact ⟨g, s, r, hg, hrun, hproductions, hr, hlanguage⟩

end Glr
