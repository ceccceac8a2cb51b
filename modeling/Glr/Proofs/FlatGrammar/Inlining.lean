import Glr.Proofs.FlatGrammar.Faithful
import Glr.Proofs.FlatGrammar.Names
import Glr.Proofs.FlatGrammar.Safe
import Mathlib.Logic.Relation

/-!
# Glr.Proofs.FlatGrammar.Inlining

Rules that are declared inline.  Flattening leaves the rule that it is about for the body of one
of them and remembers on the way which ones it is in:

```
expansion entered name  =  the alternatives of the body, with expansion (name :: entered) in it
```

It refuses a name that it is in already, so with every body there are fewer names left, and within
a body the rules get smaller.  That is all that it takes to end:

* `Flatten.IsExpansion.eq` — the equations of the expansion have one solution, the one that is
  flattened by;
* `Flatten.rule_bounded` — no rule has more alternatives than there may be;
* `Flatten.Runs.not_cyclic` — where a body is flattened, none leads back to itself.
-/

namespace Glr

open Relation (TransGen ReflTransGen)

/-- Flattening a rule expands a name. -/
inductive Rule.Expands (g : Grammar) (name : String) : Rule → Prop where
  | symbol {a : RuleAttributes} {c : Option Rule} {ms : List Rule} (hn : a.name.getD "" = name)
      (hi : g.inlines name = true) : Expands g name (.node .symbol a c ms)
  | member {k : RuleKind} {a : RuleAttributes} {c : Option Rule} {m : Rule} {ms : List Rule}
      (hk : k = .seq ∨ k = .choice) (hm : m ∈ ms) (h : Expands g name m) :
      Expands g name (.node k a c ms)
  | content {k : RuleKind} {a : RuleAttributes} {r : Rule} {ms : List Rule}
      (hk : k.isWrapper = true ∨ k = .zeroOrMore ∨ k = .oneOrMore) (h : Expands g name r) :
      Expands g name (.node k a (some r) ms)

/-- The body of a name expands another. -/
def Grammar.Enters (g : Grammar) (name other : String) : Prop :=
  ∃ body, g.rules.get? name = some body ∧ body.Expands g other

/-- Flattening a rule expands a name, in its own body or in one that is expanded. -/
def Rule.Unfolds (g : Grammar) (r : Rule) (name : String) : Prop :=
  ∃ first, r.Expands g first ∧ ReflTransGen g.Enters first name

/-- The rules that get a symbol of their own: they are not declared inline and no tokens, and no
external has their name. -/
structure Grammar.Proper (g : Grammar) (name : String) (r : Rule) : Prop where
  get : g.rules.get? name = some r
  notInline : g.inlines name = false
  notToken : Numbering.isTokenRule g name = false
  notExternal : ¬∃ x ∈ g.externals.getD [], x.Names name

namespace Flatten

variable {g : Grammar} {expand other : String → Numbered (List Alternative)}
  {entered : List String} {name a b : String} {fuel : Nat} {s s' : Numbering}
  {as bs : List Alternative} {r : Rule}

/-! ## Termination -/

/-- The names that can still be entered. -/
def waiting (g : Grammar) (entered : List String) : List String :=
  (g.inlined.getD []).filter fun name => !entered.contains name

theorem waiting_lt (hi : g.inlines name = true) (h : name ∉ entered) :
    (waiting g (name :: entered)).length < (waiting g entered).length := by
  have hmem : name ∈ waiting g entered := by
    simpa [waiting, Grammar.inlines, h] using hi
  have hsplit : waiting g (name :: entered) = (waiting g entered).filter (· != name) := by
    rw [waiting, waiting, List.filter_filter]
    exact List.filter_congr fun other _ => by simp [bne, Bool.not_or, Bool.beq_eq_decide_eq]
  rw [hsplit, List.length_filter_lt_length_iff_exists]
  exact ⟨name, hmem, by simp⟩

/-- The equations by which the names that are declared inline are expanded. -/
def IsExpansion (g : Grammar) (expand : List String → String → Numbered (List Alternative)) :
    Prop :=
  ∀ entered name, g.inlines name = true → expand entered name =
    if entered.contains name then throw (.recursiveInline name)
    else
      match g.rules.get? name with
      | none => throw (.undefinedSymbol name)
      | some body => rule g (expand (name :: entered)) body

/-- The alternatives of the body of a rule that is declared inline, inside the bodies of the rules
in `entered`. -/
def expansion (g : Grammar) (entered : List String) (name : String) :
    Numbered (List Alternative) :=
  if _h : g.inlines name = true ∧ name ∉ entered then
    match g.rules.get? name with
    | none => throw (.undefinedSymbol name)
    | some body => rule g (expansion g (name :: entered)) body
  else throw (.recursiveInline name)
termination_by (waiting g entered).length
decreasing_by exact waiting_lt _h.1 _h.2

theorem isExpansion_expansion (g : Grammar) : IsExpansion g (expansion g) := by
  intro entered name hi
  rw [expansion]
  by_cases h : name ∈ entered
  · simp [h]
  · simp [h, hi]

mutual

/-- Flattening asks for the names that are declared inline only. -/
theorem rule_congr (h : ∀ name, g.inlines name = true → expand name = other name) :
    ∀ r : Rule, rule g expand r = rule g other r
  | .node k a c ms => by
    unfold rule
    cases k
    case symbol =>
      simp only
      split
      · rename_i hi
        exact h _ hi
      · rfl
    case seq => exact sequence_congr h [{}] ms
    case choice => simp only [alternatives_congr h ms]
    all_goals simp only [content_congr h _ c]

theorem content_congr (h : ∀ name, g.inlines name = true → expand name = other name)
    (k : RuleKind) : ∀ c : Option Rule, content g expand k c = content g other k c
  | none => rfl
  | some r => rule_congr h r

theorem alternatives_congr (h : ∀ name, g.inlines name = true → expand name = other name) :
    ∀ ms : List Rule, alternatives g expand ms = alternatives g other ms
  | [] => rfl
  | r :: rs => by
    rw [alternatives, alternatives, rule_congr h r, alternatives_congr h rs]

theorem sequence_congr (h : ∀ name, g.inlines name = true → expand name = other name)
    (heads : List Alternative) :
    ∀ ms : List Rule, sequence g expand heads ms = sequence g other heads ms
  | [] => rfl
  | r :: rs => by
    have hrest (heads : List Alternative) := sequence_congr h heads rs
    simp only [sequence, rule_congr h r, hrest]

end

/-- The equations have one solution. -/
theorem IsExpansion.eq {expand : List String → String → Numbered (List Alternative)}
    (h : IsExpansion g expand) (entered : List String) (r : Rule) :
    rule g (expand entered) r = rule g (expansion g entered) r := by
  refine rule_congr (fun name hi => ?_) r
  rw [h entered name hi, isExpansion_expansion g entered name hi]
  by_cases hmem : name ∈ entered
  · simp [hmem]
  · have hrest := h.eq (name :: entered)
    simp only [hrest]
termination_by (waiting g entered).length
decreasing_by exact waiting_lt hi hmem

/-- With a bound of at least the names that can be entered, none is ever refused for the bound. -/
theorem inlineBody_eq_expansion (hi : g.inlines name = true)
    (hfuel : (waiting g entered).length ≤ fuel) :
    inlineBody g fuel entered name = expansion g entered name := by
  induction fuel generalizing entered name with
  | zero =>
    have hmem : name ∈ entered := by
      by_contra hmem
      have := waiting_lt hi hmem
      omega
    rw [isExpansion_expansion g entered name hi, inlineBody]
    simp [hmem]
  | succ fuel ih =>
    rw [isExpansion_expansion g entered name hi, inlineBody]
    by_cases hmem : name ∈ entered
    · simp [hmem]
    · have hcontains : ¬entered.contains name = true := by simpa using hmem
      rw [if_neg hcontains, if_neg hcontains]
      cases g.rules.get? name with
      | none => rfl
      | some body =>
        have := waiting_lt hi hmem
        exact rule_congr (fun other hother => ih hother (by omega)) body

theorem ruleOf_eq (g : Grammar) (r : Rule) : ruleOf g r = rule g (expansion g []) r :=
  rule_congr (fun _ hi => inlineBody_eq_expansion hi (List.length_filter_le _ _)) r

/-! ## Numbers of alternatives -/

/-- A computation of no more alternatives than there may be. -/
def Bounded (m : Numbered (List Alternative)) : Prop :=
  ∀ {s s' : Numbering} {as : List Alternative}, m s = .ok (as, s') → as.length ≤ maxAlternatives

theorem one_le_maxAlternatives : 1 ≤ maxAlternatives := by decide

theorem cross_bounded (heads tails : List Alternative) : Bounded (cross heads tails) := by
  intro s s' as h
  obtain ⟨rfl, -⟩ := cross_eq_ok h
  unfold cross at h
  split at h
  · obtain ⟨_, _, -, h⟩ := Stateful.bind_eq_ok.mp h
    obtain ⟨_, _, h, -⟩ := Stateful.bind_eq_ok.mp h
    exact (Stateful.throw_eq_ok.mp h).elim
  · rename_i hle
    simpa [List.length_flatMap, List.map_const'] using hle

theorem repetition_bounded (orNone : Bool) (body : List Alternative) :
    Bounded (repetition orNone body) := by
  intro s s' as h
  obtain ⟨_, _, _, _, -, -, -, rfl⟩ := repetition_run h
  cases orNone <;> simp [maxAlternatives]

theorem rename_bounded {label : Symbol} (hbs : bs.length ≤ maxAlternatives) :
    Bounded (rename label bs) := by
  intro s s' as h
  rcases rename_run h with ⟨-, rfl⟩ | ⟨_, _, _, -, -, rfl⟩
  · simpa [mapSteps] using hbs
  · exact one_le_maxAlternatives

theorem choice_bounded {a : RuleAttributes} {c : Option Rule} {ms : List Rule} :
    Bounded (rule g expand (.node .choice a c ms)) := by
  intro s s' as h
  unfold rule at h
  obtain ⟨bs, s₁, -, h⟩ := Stateful.bind_eq_ok.mp h
  split at h
  · obtain ⟨_, _, -, h⟩ := Stateful.bind_eq_ok.mp h
    obtain ⟨_, _, h, -⟩ := Stateful.bind_eq_ok.mp h
    exact (Stateful.throw_eq_ok.mp h).elim
  · rename_i hle
    obtain ⟨rfl, -⟩ := Stateful.pure_eq_ok.mp h
    exact Nat.not_lt.mp hle

mutual

theorem rule_bounded (he : ∀ name, g.inlines name = true → Bounded (expand name))
    {s s' : Numbering} {as : List Alternative} :
    ∀ r : Rule, rule g expand r s = .ok (as, s') → as.length ≤ maxAlternatives
  | .node k a c ms, h => by
    cases k
    case blank =>
      obtain ⟨rfl, -⟩ := rule_blank h
      exact one_le_maxAlternatives
    case string | pattern | token | immediateToken =>
      obtain ⟨x, -, rfl⟩ := rule_token rfl h
      exact one_le_maxAlternatives
    case symbol =>
      rcases rule_symbol h with ⟨hi, h⟩ | ⟨-, x, -, rfl, -⟩
      · exact he _ hi h
      · exact one_le_maxAlternatives
    case seq => exact sequence_bounded he ms (by simp [maxAlternatives]) (rule_seq h)
    case choice => exact choice_bounded h
    case zeroOrMore | oneOrMore =>
      obtain ⟨bs, s₁, -, h⟩ := rule_repetition (by simp) h
      exact repetition_bounded _ _ h
    case renamed =>
      obtain ⟨name, label, bs, s₁, s₂, -, hbs, h⟩ := rule_renamed h
      exact rename_bounded (content_bounded he c hbs) h
    all_goals
      obtain ⟨bs, fields, hbs, hshown⟩ := rule_wrapper rfl (by simp) h
      have hlength : as.length = bs.length := by simpa using congrArg List.length hshown
      exact hlength ▸ content_bounded he c hbs

theorem content_bounded (he : ∀ name, g.inlines name = true → Bounded (expand name))
    {s s' : Numbering} {as : List Alternative} {k : RuleKind} :
    ∀ c : Option Rule, content g expand k c s = .ok (as, s') → as.length ≤ maxAlternatives
  | none, h => (Stateful.throw_eq_ok.mp h).elim
  | some r, h => rule_bounded he r h

theorem sequence_bounded (he : ∀ name, g.inlines name = true → Bounded (expand name))
    {s s' : Numbering} {as heads : List Alternative} :
    ∀ ms : List Rule, heads.length ≤ maxAlternatives →
      sequence g expand heads ms s = .ok (as, s') → as.length ≤ maxAlternatives
  | [], hheads, h => (Stateful.pure_eq_ok.mp h).1 ▸ hheads
  | r :: rs, _, h => by
    obtain ⟨tails, s₁, -, h⟩ := Stateful.bind_eq_ok.mp h
    obtain ⟨both, s₂, hboth, h⟩ := Stateful.bind_eq_ok.mp h
    exact sequence_bounded he rs (cross_bounded heads tails hboth) h

end

theorem inlineBody_bounded (g : Grammar) (fuel : Nat) (entered : List String) (name : String) :
    Bounded (inlineBody g fuel entered name) := by
  induction fuel generalizing entered name with
  | zero =>
    intro s s' as h
    obtain ⟨n, body, hn, -⟩ := inlineBody_eq_ok h
    contradiction
  | succ fuel ih =>
    intro s s' as h
    obtain ⟨n, body, hn, -, h⟩ := inlineBody_eq_ok h
    obtain rfl := Nat.succ.inj hn
    exact rule_bounded (fun name _ => ih _ name) body h

/-! ## Cycles -/

/-- The members of a sequence are flattened. -/
theorem sequence_of_mem {heads : List Alternative} {m : Rule} {ms : List Rule} (hm : m ∈ ms)
    (h : sequence g expand heads ms s = .ok (as, s')) :
    ∃ s₁ s₂ bs, rule g expand m s₁ = .ok (bs, s₂) := by
  induction ms generalizing s heads with
  | nil => contradiction
  | cons r rs ih =>
    obtain ⟨tails, s₁, htails, h⟩ := Stateful.bind_eq_ok.mp h
    obtain ⟨both, s₂, -, h⟩ := Stateful.bind_eq_ok.mp h
    cases hm with
    | head => exact ⟨s, s₁, tails, htails⟩
    | tail _ hm => exact ih hm h

/-- What a rule expands is expanded when the rule is flattened. -/
theorem run_of_expands (hkept : ∀ name, Kept (expand name)) (hr : r.Expands g name)
    (h : rule g expand r s = .ok (as, s')) : ∃ s₁ s₂ bs, expand name s₁ = .ok (bs, s₂) := by
  induction hr generalizing s s' as with
  | symbol hn hi =>
    subst hn
    rcases rule_symbol h with ⟨-, h⟩ | ⟨hno, -⟩
    · exact ⟨s, s', as, h⟩
    · simp [hi] at hno
  | member hk hm _ ih =>
    rcases hk with rfl | rfl
    · obtain ⟨s₁, s₂, bs, h⟩ := sequence_of_mem hm (rule_seq h)
      exact ih h
    · obtain ⟨s₁, s₂, bs, h, -⟩ := alternatives_of_mem hkept hm (rule_choice h)
      exact ih h
  | @content k a r ms hk _ ih =>
    by_cases hrenamed : k = .renamed
    · subst hrenamed
      obtain ⟨_, _, bs, s₁, s₂, -, h, -⟩ := rule_renamed h
      exact ih h
    · rcases hk with hk | hk
      · obtain ⟨bs, fields, h, -⟩ := rule_wrapper hk hrenamed h
        exact ih h
      · obtain ⟨bs, s₁, h, -⟩ := rule_repetition hk h
        exact ih h

/-- The body of a name is flattened at some time, inside the bodies of some others. -/
def Runs (g : Grammar) (entered : List String) (name : String) : Prop :=
  ∃ fuel s s' as, inlineBody g fuel entered name s = .ok (as, s')

namespace Runs

theorem notMem (h : Runs g entered name) : name ∉ entered := by
  obtain ⟨fuel, s, s', as, h⟩ := h
  unfold inlineBody at h
  split at h
  · exact (Stateful.throw_eq_ok.mp h).elim
  · rename_i hmem
    simpa using hmem

/-- In a body that is flattened, so are the bodies that it enters. -/
theorem enter (h : Runs g entered a) (hab : g.Enters a b) : Runs g (a :: entered) b := by
  obtain ⟨fuel, s, s', as, h⟩ := h
  obtain ⟨n, body, rfl, hbody, h⟩ := inlineBody_eq_ok h
  obtain ⟨body', hbody', hexpands⟩ := hab
  obtain rfl : body = body' := Option.some.inj (hbody.symm.trans hbody')
  obtain ⟨s₁, s₂, bs, h⟩ := run_of_expands (inlineBody_keeps g n _) hexpands h
  exact ⟨n, s₁, s₂, bs, h⟩

theorem of_reflTransGen (h : Runs g entered a) (hab : ReflTransGen g.Enters a b) :
    ∃ inner, Runs g inner b := by
  induction hab with
  | refl => exact ⟨entered, h⟩
  | tail _ hbc ih =>
    obtain ⟨inner, hb⟩ := ih
    exact ⟨_, hb.enter hbc⟩

/-- Where a body leads, it is one of those that are entered. -/
theorem of_transGen (h : Runs g entered a) (hab : TransGen g.Enters a b) :
    ∃ inner, a ∈ inner ∧ Runs g inner b := by
  induction hab with
  | single hab => exact ⟨a :: entered, by simp, h.enter hab⟩
  | @tail b c _ hbc ih =>
    obtain ⟨inner, ha, hb⟩ := ih
    exact ⟨b :: inner, by simp [ha], hb.enter hbc⟩

theorem not_cyclic (h : Runs g entered a) : ¬TransGen g.Enters a a := by
  intro hcycle
  obtain ⟨inner, ha, hinner⟩ := h.of_transGen hcycle
  exact hinner.notMem ha

end Runs

/-- Where a rule is flattened, no name that it unfolds leads back to itself. -/
theorem not_cyclic_of_unfolds (hr : r.Unfolds g name)
    (h : rule g (inlineBody g fuel entered) r s = .ok (as, s')) :
    ¬TransGen g.Enters name name := by
  obtain ⟨first, hfirst, hname⟩ := hr
  obtain ⟨s₁, s₂, bs, h⟩ := run_of_expands (inlineBody_keeps g fuel entered) hfirst h
  have hruns : Runs g entered first := ⟨fuel, s₁, s₂, bs, h⟩
  obtain ⟨inner, hinner⟩ := hruns.of_reflTransGen hname
  exact hinner.not_cyclic

end Flatten

/-! ## Grammars -/

open Flatten

variable {g : Grammar} {name : String} {r : Rule} {s s' : Numbering}

/-- Every name that is not declared inline is numbered. -/
theorem Numbering.nonterminals_bind {start : String} {names : List String} {u : Unit}
    (hs : s.Sound) (h : nonterminals g start names s = .ok (u, s')) (hname : name ∈ names)
    (hi : g.inlines name = false) : ∃ x, s'.lookup name = some x := by
  induction names generalizing s with
  | nil => contradiction
  | cons other rest ih =>
    unfold nonterminals at h
    obtain ⟨t, s₁, hget, h⟩ := Stateful.bind_eq_ok.mp h
    obtain ⟨rfl, rfl⟩ := Stateful.get_eq_ok.mp hget
    split at h
    · rename_i hskip
      by_cases he : name = other
      · rw [← he, ← Grammar.inlines, hi, Bool.or_false] at hskip
        obtain ⟨x, hx⟩ := Option.isSome_iff_exists.mp hskip
        exact ⟨x, (nonterminals_lookup name hs h).1 x hx⟩
      · exact ih hs h ((List.mem_cons.mp hname).resolve_left he)
    · obtain ⟨y, s₁, hpush, h⟩ := Stateful.bind_eq_ok.mp h
      obtain ⟨v, s₂, hbind, h⟩ := Stateful.bind_eq_ok.mp h
      obtain ⟨h₁, hy⟩ := push_spec hs hpush
      obtain ⟨h₂, -⟩ := bindName_sound h₁.sound (.inr ⟨_, hy, .inl rfl⟩) hbind
      by_cases he : name = other
      · have hbound : s₂.lookup name = some y := by rw [lookup_bindName name hbind, if_pos he]
        exact ⟨y, (nonterminals_lookup name h₂ h).1 y hbound⟩
      · exact ih h₂ h ((List.mem_cons.mp hname).resolve_left he)

/-- A rule that gets a symbol of its own is flattened. -/
theorem Grammar.Proper.flattened {flat : FlatGrammar} (hr : g.Proper name r)
    (h : FlatGrammar.ofGrammar g = .ok flat) :
    ∃ s s' as, ruleOf g r s = .ok (as, s') := by
  obtain ⟨start, r₀, f, hstart, hr₀, hrun⟩ := FlatGrammar.ofGrammar_eq_ok h
  obtain ⟨s₁, s₂, s₃, s, hstages, -, hrules, -⟩ := grammar_eq_ok hrun
  have hentry : (name, r) ∈ g.rules.entries := Dictionary.get?_eq_some_iff.mp hr.get
  have hlisted : name ∈ start :: g.rules.keys.filter (· != start) := by
    have hkey : name ∈ g.rules.keys := List.mem_map_of_mem (f := Prod.fst) hentry
    by_cases he : name = start <;> simp [he, hkey]
  obtain ⟨x, hx⟩ := Numbering.nonterminals_bind hstages.spec.1 hstages.nonterminals hlisted
    hr.notInline
  have hlexical : s.isLexical x = false := by
    rcases hstages.names.nonterminal name x hx with ht | hexternal | ⟨-, hi⟩
    · exact absurd (ht.symm.trans hr.notToken) (by simp)
    · exact absurd hexternal hr.notExternal
    · simp [Numbering.isLexical, hi]
  have hkeeps := rules_keeps hrules
  have hx' : f.lookup name = some x := by
    rw [Numbering.lookup, hkeeps.named]
    exact hx
  obtain ⟨s₁, s₂, as, h, -⟩ := rules_lowered hstages.sound hrules (.refl f) hentry hx'
    ((hkeeps.isLexical_eq hstages.sound hx).trans hlexical)
  exact ⟨s₁, s₂, as, h⟩

/-- Flattening ends and stays small, for every grammar.  The names that are declared inline are
expanded by equations that have one solution, so no bound has a say in it.  A rule that is
flattened has no more alternatives than there may be, and expands no name that leads back to
itself.  So a flat grammar has no such name among those that its rules unfold, and a grammar that
has one is refused. -/
theorem FlatGrammar.inlining_ends (g : Grammar) :
    (IsExpansion g (expansion g) ∧
      (∀ expand, IsExpansion g expand → ∀ entered r,
        rule g (expand entered) r = rule g (expansion g entered) r) ∧
      ∀ r, ruleOf g r = rule g (expansion g []) r) ∧
    (∀ entered r s as s', rule g (expansion g entered) r s = .ok (as, s') →
      as.length ≤ maxAlternatives ∧
        ∀ name, r.Unfolds g name → ¬TransGen g.Enters name name) ∧
    (∀ flat, FlatGrammar.ofGrammar g = .ok flat → ∀ owner r name, g.Proper owner r →
      r.Unfolds g name → ¬TransGen g.Enters name name) ∧
    ∀ owner r name, g.Proper owner r → r.Unfolds g name → TransGen g.Enters name name →
      ∃ e, e ≠ .panic ∧ FlatGrammar.ofGrammar g = .error e := by
  have hrun (entered : List String) (r : Rule) :
      rule g (expansion g entered) r = rule g (inlineBody g (waiting g entered).length entered) r :=
    rule_congr (fun _ hi => (inlineBody_eq_expansion hi (Nat.le_refl _)).symm) r
  have hflat (flat : FlatGrammar) (h : FlatGrammar.ofGrammar g = .ok flat) (owner : String)
      (r : Rule) (name : String) (hr : g.Proper owner r) (hname : r.Unfolds g name) :
      ¬TransGen g.Enters name name := by
    obtain ⟨s, s', as, h⟩ := hr.flattened h
    exact not_cyclic_of_unfolds hname h
  refine ⟨⟨isExpansion_expansion g, fun expand h => h.eq, ruleOf_eq g⟩, ?_, hflat, ?_⟩
  · intro entered r s as s' h
    rw [hrun] at h
    exact ⟨rule_bounded (fun name _ => inlineBody_bounded g _ entered name) r h,
      fun name hname => not_cyclic_of_unfolds hname h⟩
  · intro owner r name hr hname hcycle
    cases h : FlatGrammar.ofGrammar g with
    | ok flat => exact absurd hcycle (hflat flat h owner r name hr hname)
    | error e =>
      refine ⟨e, fun he => FlatGrammar.ofGrammar_ne_panic g ?_, rfl⟩
      rw [h, he]

/-- Two rules that lead to each other. -/
def Grammar.loop (inlined : List String) : Grammar :=
  { name := "loop", extras := some [], inlined := some inlined : Grammar }
    |>.addRule "s" (.seq [.string "u", .sym "a"])
    |>.addRule "a" (.choice [.sym "b", .string "x"])
    |>.addRule "b" (.seq [.sym "a", .string "y"])

/-- With both declared inline the grammar is refused; with one it is not, as the other has a symbol
of its own. -/
theorem FlatGrammar.inlining_ends_loop :
    (∃ e, e ≠ .panic ∧ FlatGrammar.ofGrammar (.loop ["a", "b"]) = .error e) ∧
    ∃ flat, FlatGrammar.ofGrammar (.loop ["b"]) = .ok flat ∧
      ¬TransGen (Grammar.loop ["b"]).Enters "b" "b" := by
  have hsym (inlined : List String) (name : String)
      (h : (Grammar.loop inlined).inlines name = true) :
      (Rule.sym name).Expands (Grammar.loop inlined) name := .symbol rfl h
  constructor
  · have hs : (Grammar.loop ["a", "b"]).Proper "s" (.seq [.string "u", .sym "a"]) :=
      ⟨rfl, rfl, rfl, by simp [Grammar.loop, Grammar.addRule]⟩
    have ha : (Rule.seq [.string "u", .sym "a"]).Unfolds (Grammar.loop ["a", "b"]) "a" :=
      ⟨"a", .member (.inl rfl) (by simp) (hsym _ _ rfl), .refl⟩
    have hab : (Grammar.loop ["a", "b"]).Enters "a" "b" :=
      ⟨_, rfl, .member (.inr rfl) (List.mem_cons_self ..) (hsym _ _ rfl)⟩
    have hba : (Grammar.loop ["a", "b"]).Enters "b" "a" :=
      ⟨_, rfl, .member (.inl rfl) (List.mem_cons_self ..) (hsym _ _ rfl)⟩
    obtain ⟨-, -, -, hrefused⟩ := FlatGrammar.inlining_ends (.loop ["a", "b"])
    exact hrefused "s" _ "a" hs ha (.tail (.single hab) hba)
  · have hflat : (FlatGrammar.ofGrammar (.loop ["b"])).toOption.any (fun _ => true) = true := by
      decide +kernel
    obtain ⟨flat, hflat, -⟩ := exists_ok hflat
    have ha : (Grammar.loop ["b"]).Proper "a" (.choice [.sym "b", .string "x"]) :=
      ⟨rfl, rfl, rfl, by simp [Grammar.loop, Grammar.addRule]⟩
    have hb : (Rule.choice [.sym "b", .string "x"]).Unfolds (Grammar.loop ["b"]) "b" :=
      ⟨"b", .member (.inr rfl) (by simp) (hsym _ _ rfl), .refl⟩
    obtain ⟨-, -, hacyclic, -⟩ := FlatGrammar.inlining_ends (.loop ["b"])
    exact ⟨flat, hflat, hacyclic flat hflat "a" _ "b" ha hb⟩

end Glr
