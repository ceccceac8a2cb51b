import Glr.Proofs.FlatGrammar.Titled

/-!
# Glr.Proofs.FlatGrammar.Names

What names stand for.  A rule that is no token gets a nonterminal, unless an external has its
name: externals are numbered first, and what has a name keeps it.

```
externals             name → external, if one has the name
tokens, extras        name → token, if it is that of a token rule; no other
nonterminals          name → nonterminal, if it stands for nothing yet
```
-/

namespace Glr

/-- A reference with this name. -/
def Rule.Names (r : Rule) (name : String) : Prop :=
  r.kind = .symbol ∧ r.attributes.name.getD "" = name

/-- An external has the name of the start rule. -/
def Grammar.StartsExternal (g : Grammar) : Prop :=
  ∃ start, g.startRule? = some start ∧ ∃ r ∈ g.externals.getD [], r.Names start

namespace Numbering

open Numbered Stateful

variable {g : Grammar} {name : String} {v : Option Symbol} {s s' : Numbering} {x : Symbol}
  {I : Numbering → Prop}

theorem lookup_bindName (name : String) {other : String} {u : Unit}
    (h : bindName other x s = .ok (u, s')) :
    s'.lookup name = if name = other then some x else s.lookup name := by
  obtain rfl := modify_eq_ok.mp h
  unfold lookup
  simp only [List.lookup_cons]
  split <;> simp_all

theorem lookup_of_named (h : s'.named = s.named) : s'.lookup name = s.lookup name :=
  congrArg (List.lookup name) h

/-! ## Externals -/

/-- An external takes the name it has over, and touches no other. -/
theorem externals_cons (name : String) {r : Rule} {rs : List Rule} {xs : List Symbol}
    (h : externals (r :: rs) s = .ok (xs, s')) :
    ∃ s₁ ys, externals rs s₁ = .ok (ys, s') ∧
      (r.Names name → ∃ x, s₁.lookup name = some x) ∧
      (¬r.Names name → s₁.lookup name = s.lookup name) := by
  unfold externals at h
  cases hk : r.kind
  case symbol =>
    rw [hk] at h
    obtain ⟨p, s₁, hp, h⟩ := bind_eq_ok.mp h
    obtain ⟨rfl, rfl⟩ := pure_eq_ok.mp hp
    obtain ⟨x, s₁, hpush, h⟩ := bind_eq_ok.mp h
    obtain ⟨u, s₂, hbind, h⟩ := bind_eq_ok.mp h
    obtain ⟨ys, s₃, hys, h⟩ := bind_eq_ok.mp h
    obtain ⟨-, rfl⟩ := pure_eq_ok.mp h
    have hlook := lookup_bindName name hbind
    rw [lookup_of_named (Flatten.push_eq_ok hpush).2.1.named] at hlook
    refine ⟨s₂, ys, hys, fun hn => ⟨x, hlook.trans (if_pos hn.2.symm)⟩, fun hn => ?_⟩
    exact hlook.trans (if_neg fun he => hn ⟨hk, he.symm⟩)
  case string =>
    rw [hk] at h
    obtain ⟨p, s₁, hp, h⟩ := bind_eq_ok.mp h
    obtain ⟨hmap, rfl⟩ := lift_eq_ok.mp hp
    obtain ⟨text, hname⟩ : ∃ text, p = (text, false) := by
      cases ht : r.requireText with
      | error e =>
        rw [ht] at hmap
        contradiction
      | ok text =>
        rw [ht] at hmap
        exact ⟨text, (Except.ok.inj hmap).symm⟩
    subst hname
    obtain ⟨x, s₁, hpush, h⟩ := bind_eq_ok.mp h
    obtain ⟨ys, s₂, hys, h⟩ := bind_eq_ok.mp h
    obtain ⟨-, rfl⟩ := pure_eq_ok.mp h
    refine ⟨s₁, ys, hys, fun hn => ?_, fun _ =>
      lookup_of_named (Flatten.push_eq_ok hpush).2.1.named⟩
    rw [Rule.Names, hk] at hn
    obtain ⟨hkind, -⟩ := hn
    contradiction
  all_goals
    rw [hk] at h
    obtain ⟨p, s₁, hp, h⟩ := bind_eq_ok.mp h
    exact (throw_eq_ok.mp hp).elim

theorem externals_keep {rs : List Rule} {xs : List Symbol} (h : externals rs s = .ok (xs, s'))
    (hx : ∃ x, s.lookup name = some x) : ∃ x, s'.lookup name = some x := by
  induction rs generalizing s xs with
  | nil =>
    obtain ⟨-, rfl⟩ := pure_eq_ok.mp h
    exact hx
  | cons r rs ih =>
    obtain ⟨s₁, ys, h, hnamed, hother⟩ := externals_cons name h
    refine ih h ?_
    by_cases hn : r.Names name
    · exact hnamed hn
    · rwa [hother hn]

/-- A name stands for an external if one has it. -/
theorem externals_lookup {rs : List Rule} {xs : List Symbol} (hnew : s.lookup name = none)
    (h : externals rs s = .ok (xs, s')) :
    (∃ x, s'.lookup name = some x) ↔ ∃ r ∈ rs, r.Names name := by
  induction rs generalizing s xs with
  | nil =>
    obtain ⟨-, rfl⟩ := pure_eq_ok.mp h
    simp [hnew]
  | cons r rs ih =>
    obtain ⟨s₁, ys, h, hnamed, hother⟩ := externals_cons name h
    by_cases hn : r.Names name
    · exact ⟨fun _ => ⟨r, by simp, hn⟩, fun _ => externals_keep h (hnamed hn)⟩
    · rw [ih ((hother hn).trans hnew) h]
      simp [hn]

/-! ## Tokens and extras -/

/-- What depends on names alone, and stays when a token rule gets its own. -/
structure OnNames (g : Grammar) (I : Numbering → Prop) : Prop where
  congr : ∀ {s s'}, s'.named = s.named → I s → I s'
  bindName : ∀ {name} x, isTokenRule g name = true → Leaves I (bindName name x)

/-- The name of a rule that is no token stands for what it did. -/
theorem onNames_lookup (hn : isTokenRule g name = false) : OnNames g (·.lookup name = v) where
  congr := fun hnamed hs => (lookup_of_named hnamed).trans hs
  bindName := fun {other} x ho s s' u h hs => by
    refine (lookup_bindName name h).trans ((if_neg ?_).trans hs)
    rintro rfl
    exact Bool.false_ne_true (hn.symm.trans ho)

/-- A name that stands for something goes on to. -/
theorem onNames_exists (name : String) : OnNames g (fun s => ∃ x, s.lookup name = some x) where
  congr := fun hnamed ⟨x, hx⟩ => ⟨x, (lookup_of_named hnamed).trans hx⟩
  bindName := fun {other} x _ s s' u h ⟨y, hy⟩ => by
    by_cases he : name = other
    · exact ⟨x, (lookup_bindName name h).trans (if_pos he)⟩
    · exact ⟨y, (lookup_bindName name h).trans ((if_neg he).trans hy)⟩

namespace OnNames

theorem anonymousToken (hI : OnNames g I) (r : Rule) : Leaves I (anonymousToken r) := by
  intro s s' x h hs
  obtain ⟨key, -, -, rfl | ⟨-, info, -, hadded⟩⟩ := Flatten.anonymousToken_eq_ok h
  · exact hs
  · exact hI.congr hadded.named hs

theorem namedToken (hI : OnNames g I) {name : String} (hn : isTokenRule g name = true) :
    Leaves I (namedToken g name) := by
  refine .bind .get fun s => ?_
  split
  · exact .pure _
  · split
    · exact .throw _
    · refine .bind (.lift _) fun key => .bind ?_ fun x => .bind (hI.bindName x hn) fun _ => .pure _
      exact fun _ _ _ h hs => hI.congr (Flatten.addToken_eq_ok h).2.1.named hs

mutual

theorem ruleTokens (hI : OnNames g I) : ∀ r : Rule, Leaves I (ruleTokens g r)
  | .node k a c ms => by
    unfold Numbering.ruleTokens
    cases k
    case string | pattern | token | immediateToken =>
      exact (hI.anonymousToken _).bind fun _ => .pure _
    case symbol =>
      cases a.name with
      | none => exact .pure _
      | some name =>
        simp only
        split
        · rename_i hn
          exact (hI.namedToken hn).bind fun _ => .pure _
        · exact .pure _
    all_goals exact (hI.contentTokens c).bind fun _ => hI.memberTokens ms

theorem contentTokens (hI : OnNames g I) : ∀ c : Option Rule, Leaves I (contentTokens g c)
  | none => .pure _
  | some r => hI.ruleTokens r

theorem memberTokens (hI : OnNames g I) : ∀ ms : List Rule, Leaves I (memberTokens g ms)
  | [] => .pure _
  | r :: rs => (hI.ruleTokens r).bind fun _ => hI.memberTokens rs

end

theorem isTokenRule_of_entry {e : String × Rule} (he : g.rules.get? e.1 = some e.2)
    (ht : e.2.isTerminal = true) : isTokenRule g e.1 = true := by
  rw [isTokenRule, he]
  exact ht

theorem tokens (hI : OnNames g I) {entries : List (String × Rule)}
    (he : ∀ e ∈ entries, g.rules.get? e.1 = some e.2) : Leaves I (tokens g entries) := by
  induction entries with
  | nil => exact .pure _
  | cons e rest ih =>
    obtain ⟨hr, hrest⟩ := List.forall_mem_cons.mp he
    refine .bind .get fun s => ?_
    split
    · split
      · rename_i ht
        exact (hI.namedToken (isTokenRule_of_entry hr ht)).bind fun _ => ih hrest
      · exact (hI.ruleTokens e.2).bind fun _ => ih hrest
    · exact ih hrest

theorem extra (hI : OnNames g I) (r : Rule) : Leaves I (extra g r) := by
  have hnamed (name : String) : Leaves I (if isTokenRule g name then
      Numbering.namedToken g name else throw (.nonTokenExtra name)) := by
    split
    · rename_i hn
      exact hI.namedToken hn
    · exact .throw _
  unfold Numbering.extra
  split
  · refine .bind .get fun s => ?_
    split
    · split
      · exact .pure _
      · exact hnamed _
    · exact hnamed _
  · split
    · exact hI.anonymousToken r
    · exact .throw _

end OnNames

theorem namedToken_lookup (h : namedToken g name s = .ok (x, s')) :
    s'.lookup name = some x := by
  unfold namedToken at h
  obtain ⟨t, s₁, hget, h⟩ := bind_eq_ok.mp h
  obtain ⟨rfl, rfl⟩ := get_eq_ok.mp hget
  cases hlook : s.lookup name with
  | some y =>
    rw [hlook] at h
    obtain ⟨rfl, rfl⟩ := pure_eq_ok.mp h
    exact hlook
  | none =>
    rw [hlook] at h
    cases hr : g.rules.get? name with
    | none =>
      rw [hr] at h
      exact (throw_eq_ok.mp h).elim
    | some r =>
      rw [hr] at h
      obtain ⟨key, s₁, -, h⟩ := bind_eq_ok.mp h
      obtain ⟨y, s₂, -, h⟩ := bind_eq_ok.mp h
      obtain ⟨u, s₃, hbind, h⟩ := bind_eq_ok.mp h
      obtain ⟨rfl, rfl⟩ := pure_eq_ok.mp h
      exact (lookup_bindName name hbind).trans (if_pos rfl)

/-- The name of a token rule stands for a token once all rules have been gone through. -/
theorem tokens_lookup {entries : List (String × Rule)} {r : Rule} {u : Unit}
    (he : ∀ e ∈ entries, g.rules.get? e.1 = some e.2) (hm : (name, r) ∈ entries)
    (ht : r.isTerminal = true) (h : tokens g entries s = .ok (u, s')) :
    ∃ x, s'.lookup name = some x := by
  induction entries generalizing s with
  | nil => simp at hm
  | cons e rest ih =>
    obtain ⟨hr, hrest⟩ := List.forall_mem_cons.mp he
    have hkept := (onNames_exists name).tokens hrest
    unfold tokens at h
    obtain ⟨t, s₁, hget, h⟩ := bind_eq_ok.mp h
    obtain ⟨rfl, rfl⟩ := get_eq_ok.mp hget
    rcases List.mem_cons.mp hm with rfl | hm
    · cases hlook : s.lookup name with
      | some x =>
        simp only [hlook, Option.isNone_some, Bool.false_eq_true, if_false] at h
        exact hkept _ _ _ h ⟨x, hlook⟩
      | none =>
        simp only [hlook, Option.isNone_none, if_true, ht] at h
        obtain ⟨x, s₁, hx, h⟩ := bind_eq_ok.mp h
        exact hkept _ _ _ h ⟨x, namedToken_lookup hx⟩
    · split at h
      · split at h
        · obtain ⟨x, s₁, -, h⟩ := bind_eq_ok.mp h
          exact ih hrest hm h
        · obtain ⟨x, s₁, -, h⟩ := bind_eq_ok.mp h
          exact ih hrest hm h
      · exact ih hrest hm h

/-! ## Nonterminals -/

/-- What has a name keeps it, and what gets one is a nonterminal.  Names of rules that are
expanded where they are used get none. -/
theorem nonterminals_lookup (name : String) {start : String} {names : List String} {u : Unit}
    (hs : s.Sound) (h : nonterminals g start names s = .ok (u, s')) :
    (∀ x, s.lookup name = some x → s'.lookup name = some x) ∧
      ∀ x, s'.lookup name = some x → s.lookup name = some x ∨ g.inlines name = false ∧
        s'.symbols[x]? = some ⟨name, true, name == start || !isHiddenName name, .nonterminal⟩ := by
  induction names generalizing s with
  | nil =>
    obtain ⟨-, rfl⟩ := pure_eq_ok.mp h
    exact ⟨fun _ hx => hx, fun _ hx => .inl hx⟩
  | cons other rest ih =>
    unfold nonterminals at h
    obtain ⟨t, s₁, hget, h⟩ := bind_eq_ok.mp h
    obtain ⟨rfl, rfl⟩ := get_eq_ok.mp hget
    split at h
    · exact ih hs h
    · rename_i hnew
      obtain ⟨y, s₁, hpush, h⟩ := bind_eq_ok.mp h
      obtain ⟨v, s₂, hbind, h⟩ := bind_eq_ok.mp h
      obtain ⟨h₁, hy⟩ := push_spec hs hpush
      obtain ⟨h₂, hgrows⟩ := bindName_sound h₁.sound (.inr ⟨_, hy, .inl rfl⟩) hbind
      have hgrows := hgrows.trans (nonterminals_spec h₂ h).2
      obtain ⟨hkept, hback⟩ := ih h₂ h
      have hlook := lookup_bindName name hbind
      rw [lookup_of_named (Flatten.push_eq_ok hpush).2.1.named] at hlook
      simp only [Bool.or_eq_true, not_or, Bool.not_eq_true, Option.isSome_eq_false_iff,
        Option.isNone_iff_eq_none] at hnew
      have hnone : name = other → s.lookup name = none := by
        rintro rfl
        exact hnew.1
      refine ⟨fun x hx => hkept x (hlook.trans ((if_neg fun he => ?_).trans hx)), fun x hx => ?_⟩
      · rw [hnone he] at hx
        contradiction
      · rcases hback x hx with hx | hx
        · rw [hlook] at hx
          split at hx
          · rename_i he
            obtain rfl := Option.some.inj hx
            subst he
            exact .inr ⟨hnew.2, hgrows _ _ hy⟩
          · exact .inl hx
        · exact .inr hx

end Numbering

/-! ## The start symbol -/

variable {g : Grammar} {start : String} {flat : FlatGrammar} {f : Numbering}

/-- What names stand for when the rules are flattened. -/
structure Numbering.Names (g : Grammar) (start : String) (s : Numbering) : Prop where
  /-- The names of token rules and externals stand for tokens. -/
  isToken : ∀ name, isTokenRule g name = true ∨ (∃ r ∈ g.externals.getD [], r.Names name) →
    ∃ x, s.lookup name = some x ∧ IsToken s.symbols x
  /-- Other names stand for nonterminals. -/
  nonterminal : ∀ name x, s.lookup name = some x → isTokenRule g name = true ∨
    (∃ r ∈ g.externals.getD [], r.Names name) ∨ g.inlines name = false ∧
      s.symbols[x]? = some ⟨name, true, name == start || !isHiddenName name, .nonterminal⟩

/-- What is no token is the nonterminal of the name that stands for it. -/
theorem Numbering.Names.of_not_isToken {s : Numbering} {name : String} {x : Symbol}
    (h : s.Names g start) (hx : s.lookup name = some x) (hno : ¬IsToken s.symbols x) :
    g.inlines name = false ∧
      s.symbols[x]? = some ⟨name, true, name == start || !isHiddenName name, .nonterminal⟩ := by
  have hnot (ht : isTokenRule g name = true ∨ ∃ r ∈ g.externals.getD [], r.Names name) : False := by
    obtain ⟨y, hy, htoken⟩ := h.isToken name ht
    obtain rfl := Option.some.inj (hx.symm.trans hy)
    exact hno htoken
  rcases h.nonterminal name x hx with ht | ht | hx
  · exact (hnot (.inl ht)).elim
  · exact (hnot (.inr ht)).elim
  · exact hx

/-- The names after the four stages of numbering. -/
theorem Flatten.Stages.names {s₁ s₂ s₃ s : Numbering} {xs ys : List Symbol}
    (h : Flatten.Stages g start xs ys s₁ s₂ s₃ s) : s.Names g start := by
  obtain ⟨hs₃, hlexical, -⟩ := h.spec
  have hentries : ∀ e ∈ g.rules.entries, g.rules.get? e.1 = some e.2 :=
    fun _ he => Dictionary.get?_eq_some_iff.mpr he
  refine ⟨fun name hname => ?_, fun name x hx => ?_⟩
  · -- the name is bound by then, and all names are those of tokens
    have hextra := (Numbering.onNames_exists name).extra (g := g)
    have hbound : ∃ x, s₃.lookup name = some x := by
      refine Numbered.Leaves.mapM hextra _ _ _ _ h.extras ?_
      rcases hname with ht | hname
      · cases hr : g.rules.get? name with
        | none => simp [Numbering.isTokenRule, hr] at ht
        | some r =>
          rw [Numbering.isTokenRule, hr] at ht
          exact Numbering.tokens_lookup hentries (Dictionary.get?_eq_some_iff.mp hr) ht h.tokens
      · exact (Numbering.onNames_exists name).tokens hentries _ _ _ h.tokens
          ((Numbering.externals_lookup rfl h.externals).mpr hname)
    obtain ⟨x, hx⟩ := hbound
    exact ⟨x, (Numbering.nonterminals_lookup name hs₃ h.nonterminals).1 x hx,
      h.grows.isToken (hlexical (name, x) (mem_of_lookup hx))⟩
  · by_cases ht : Numbering.isTokenRule g name = true
    · exact .inl ht
    refine .inr ?_
    rcases (Numbering.nonterminals_lookup name hs₃ h.nonterminals).2 x hx with hx | hx
    · -- the tokens and extras leave what the externals have bound
      have hnot : Numbering.isTokenRule g name = false := Bool.eq_false_iff.mpr ht
      have hkept := Numbering.onNames_lookup (v := s₁.lookup name) hnot
      have hlook₂ := hkept.tokens hentries _ _ _ h.tokens rfl
      have hlook₃ := Numbered.Leaves.mapM hkept.extra _ _ _ _ h.extras hlook₂
      exact .inl ((Numbering.externals_lookup rfl h.externals).mp ⟨x, hlook₃.symm.trans hx⟩)
    · exact .inr hx

/-- The start symbol is a token just if an external has the name of the start rule. -/
theorem FlatGrammar.isTerminal_start_iff (h : FlatGrammar.ofGrammar g = .ok flat) :
    flat.isTerminal flat.start = true ↔ g.StartsExternal := by
  obtain ⟨start, r, f, hstart, hr, hrun⟩ := ofGrammar_eq_ok h
  have hnot : Numbering.isTokenRule g start = false := by
    unfold ofGrammar at h
    simp only [hstart, hr] at h
    split at h
    · contradiction
    · rename_i ht
      rw [Numbering.isTokenRule, hr]
      simpa using ht
  obtain ⟨s₁, s₂, s₃, s, hstages, hlook, hrules, hsymbols, -⟩ := Flatten.grammar_eq_ok hrun
  have hnames := hstages.names
  have hgrows := (Flatten.rules_spec hstages.sound hrules).grows
  constructor
  · intro ht
    refine ⟨start, hstart, ?_⟩
    rcases hnames.nonterminal start _ hlook with htoken | hexternal | ⟨-, hi⟩
    · exact absurd htoken (Bool.eq_false_iff.mp hnot)
    · exact hexternal
    · rw [isTerminal, hsymbols, hgrows _ _ hi] at ht
      contradiction
  · rintro ⟨other, hother, hx⟩
    obtain rfl := Option.some.inj (hstart.symm.trans hother)
    obtain ⟨x, hlook', htoken⟩ := hnames.isToken start (.inr hx)
    obtain rfl := Option.some.inj (hlook.symm.trans hlook')
    exact isTerminal_of_isToken (hsymbols ▸ hgrows.isToken htoken)

end Glr
