import Glr.Proofs.FlatGrammar.Runs

/-!
# Glr.Proofs.FlatGrammar.Flattened

Flattening goes from one sound numbering to another one, and the alternatives it
answers are made of symbols that are there by then.  So a flat grammar is well
formed: every step takes a token or a node that has productions, and nothing
takes the end of the input.
-/

namespace Glr

/-- What holds of the flat form of every grammar. -/
structure FlatGrammar.WellFormed (g : FlatGrammar) : Prop where
  size_le : g.symbols.size ≤ errorSymbol
  /-- Symbol zero is the end of the input. -/
  first : ∃ info, g.symbols[endSymbol]? = some info ∧ info.kind = .endOfInput
  start : IsToken g.symbols g.start ∨ IsRule g.symbols g.start
  productions : ∀ p ∈ g.productions, p.Fits g.symbols
  lexRules : ∀ r ∈ g.lexRules, IsToken g.symbols r.symbol
  extras : ∀ x ∈ g.extras, IsToken g.symbols x
  externals : ∀ x ∈ g.externals, IsToken g.symbols x

section

variable {g : FlatGrammar} {x : Symbol}

theorem FlatGrammar.isTerminal_of_isToken (h : IsToken g.symbols x) : g.isTerminal x = true := by
  obtain ⟨info, hi, hk⟩ := h
  rw [isTerminal, hi]
  rcases hk with hk | hk <;> simp [hk, SymbolKind.isTerminal]

theorem FlatGrammar.isTerminal_of_isRule (h : IsRule g.symbols x) : g.isTerminal x = false := by
  obtain ⟨info, hi, hk⟩ := h
  rw [isTerminal, hi]
  rcases hk with hk | hk <;> simp [hk, SymbolKind.isTerminal]

end

namespace Flatten

open Glr.Numbering

variable {s s' : Numbering} {x : Symbol} {as bs : List Alternative}

/-- A computation whose alternatives fit the symbols numbered after it. -/
def Sound (m : Numbered (List Alternative)) : Prop :=
  ∀ {s s' : Numbering} {as : List Alternative}, s.Sound → m s = .ok (as, s') →
    s.Extends s' ∧ ∀ a ∈ as, a.Fits s'.symbols

theorem fits_single (hx : IsToken s.symbols x ∨ IsRule s.symbols x) :
    (single x).Fits s.symbols := by
  intro st hst
  obtain rfl := List.mem_singleton.mp hst
  exact ⟨hx, by simp⟩

theorem fits_empty : ({} : Alternative).Fits s.symbols := by
  intro st hst
  exact absurd hst (by simp)

theorem fits_append {a b : Alternative} (ha : a.Fits s.symbols) (hb : b.Fits s.symbols) :
    (append a b).Fits s.symbols := by
  intro st hst
  rcases List.mem_append.mp hst with h | h
  · exact ha st h
  · exact hb st h

/-- Changing steps keeps what they fit, as long as new labels are shown. -/
theorem fits_mapSteps {f : Step → Step} (hf : ∀ st, st.Fits s.symbols → (f st).Fits s.symbols)
    (ha : ∀ a ∈ as, a.Fits s.symbols) : ∀ a ∈ mapSteps f as, a.Fits s.symbols := by
  intro a hm st hst
  obtain ⟨b, hb, rfl⟩ := List.mem_map.mp hm
  obtain ⟨st', hst', rfl⟩ := List.mem_map.mp hst
  exact hf st' (ha b hb st' hst')

/-- What an alternative fits depends on its symbols and labels alone. -/
theorem fits_of_shown (h : as.map Alternative.shown = bs.map Alternative.shown)
    (hb : ∀ b ∈ bs, b.Fits s.symbols) : ∀ a ∈ as, a.Fits s.symbols := by
  intro a ha st hst
  have hshown : a.shown ∈ bs.map Alternative.shown := h ▸ List.mem_map_of_mem ha
  obtain ⟨b, hbm, hab⟩ := List.mem_map.mp hshown
  have hst : (st.symbol, st.label) ∈ b.shown := hab ▸ List.mem_map_of_mem hst
  obtain ⟨st', hst', he⟩ := List.mem_map.mp hst
  obtain ⟨hsymbol, hlabel⟩ := Prod.mk.inj he
  have hfits := hb b hbm st' hst'
  exact ⟨hsymbol ▸ hfits.symbol, hlabel ▸ hfits.label⟩

theorem addProductions_spec {u : Unit} (hs : s.Sound) (hx : IsRule s.symbols x)
    (ha : ∀ a ∈ as, a.Fits s.symbols) (h : addProductions x as s = .ok (u, s')) :
    s.Extends s' := by
  obtain rfl := Stateful.modify_eq_ok.mp h
  refine ⟨{ hs with productions := ?_ }, .refl s, id⟩
  intro p hp
  rcases Array.mem_append.mp hp with hp | hp
  · exact hs.productions p hp
  · obtain ⟨a, hm, rfl⟩ := List.mem_map.mp (List.mem_toArray.mp hp)
    exact ⟨hx, ha a (List.mem_eraseDups.mp hm)⟩

theorem labelSymbol_spec {name : String} {named : Bool} (hs : s.Sound)
    (h : labelSymbol name named s = .ok (x, s')) : s.Extends s' ∧ IsShown s'.symbols x := by
  rcases labelSymbol_run h with ⟨rfl, hx⟩ | h
  · exact ⟨hs.refl, hx⟩
  · obtain ⟨h₁, hx⟩ := push_spec hs h
    exact ⟨h₁, _, hx, rfl, by simp⟩

theorem helper_spec {suffix : String} (hs : s.Sound) (h : helper suffix s = .ok (x, s')) :
    s.Extends s' ∧ IsRule s'.symbols x := by
  obtain ⟨helperCounts, name, h⟩ := helper_run h
  have h₁ : s.Extends { s with helperCounts } := hs.same rfl rfl rfl rfl rfl
  obtain ⟨h₂, hx⟩ := push_spec h₁.sound h
  exact ⟨h₁.trans h₂, _, hx, .inr rfl⟩

theorem fits_cross {heads tails : List Alternative} (hh : ∀ a ∈ heads, a.Fits s.symbols)
    (ht : ∀ a ∈ tails, a.Fits s.symbols) :
    ∀ a ∈ heads.flatMap (fun head => tails.map (append head)), a.Fits s.symbols := by
  intro a hm
  obtain ⟨head, hhead, hm⟩ := List.mem_flatMap.mp hm
  obtain ⟨tail, htail, rfl⟩ := List.mem_map.mp hm
  exact fits_append (hh head hhead) (ht tail htail)

theorem repetition_spec {orNone : Bool} {body : List Alternative} (hs : s.Sound)
    (hb : ∀ a ∈ body, a.Fits s.symbols) (h : repetition orNone body s = .ok (as, s')) :
    s.Extends s' ∧ ∀ a ∈ as, a.Fits s'.symbols := by
  obtain ⟨y, s₁, u, again, hy, hagain, hadd, rfl⟩ := repetition_run h
  obtain ⟨h₁, hy⟩ := helper_spec hs hy
  have hb₁ := h₁.grows.alternatives hb
  have h₂ : s₁.Extends s' := by
    refine addProductions_spec h₁.sound hy ?_ hadd
    intro a hm
    obtain ⟨a', ha', hm⟩ := List.mem_flatMap.mp hm
    rcases List.mem_cons.mp hm with rfl | hm
    · intro st hst
      rw [hagain] at hst
      rcases List.mem_cons.mp hst with rfl | hst
      · exact ⟨.inr hy, by simp⟩
      · exact hb₁ a' ha' st hst
    · obtain rfl := List.mem_singleton.mp hm
      exact hb₁ a ha'
  refine ⟨h₁.trans h₂, ?_⟩
  intro a hm
  rcases List.mem_cons.mp hm with rfl | hm
  · exact fits_single (.inr (h₂.grows.isRule hy))
  · cases orNone with
    | false => simp at hm
    | true =>
      obtain rfl := List.mem_singleton.mp hm
      exact fits_empty

theorem rename_spec (hs : s.Sound) (hx : IsShown s.symbols x) (hb : ∀ a ∈ bs, a.Fits s.symbols)
    (h : rename x bs s = .ok (as, s')) : s.Extends s' ∧ ∀ a ∈ as, a.Fits s'.symbols := by
  rcases rename_run h with ⟨rfl, rfl⟩ | ⟨y, s₁, u, hy, hadd, rfl⟩
  · refine ⟨hs.refl, fits_mapSteps ?_ hb⟩
    intro st hst
    refine ⟨hst.symbol, ?_⟩
    intro y hy
    cases hl : st.label with
    | none =>
      rw [hl] at hy
      obtain rfl := Option.some.inj hy
      exact hx
    | some z =>
      rw [hl] at hy
      obtain rfl := Option.some.inj hy
      exact hst.label z hl
  · obtain ⟨h₁, hy⟩ := helper_spec hs hy
    have h₂ := addProductions_spec h₁.sound hy (h₁.grows.alternatives hb) hadd
    have h₃ := h₁.trans h₂
    refine ⟨h₃, ?_⟩
    intro a hm st hst
    obtain rfl := List.mem_singleton.mp hm
    obtain rfl := List.mem_singleton.mp hst
    refine ⟨.inr (h₂.grows.isRule hy), ?_⟩
    intro z hz
    obtain rfl := Option.some.inj hz
    obtain ⟨info, hi, hv⟩ := hx
    exact ⟨info, h₃.grows _ _ hi, hv⟩

/-! ## Rules -/

mutual

theorem rule_spec {g : Grammar} {expand : String → Numbered (List Alternative)}
    (he : ∀ name, Sound (expand name)) {s s' : Numbering} {as : List Alternative} (hs : s.Sound) :
    ∀ r : Rule, rule g expand r s = .ok (as, s') →
      s.Extends s' ∧ ∀ a ∈ as, a.Fits s'.symbols
  | .node k a c ms, h => by
    cases k
    case blank =>
      obtain ⟨rfl, rfl⟩ := rule_blank h
      refine ⟨hs.refl, ?_⟩
      intro a hm
      obtain rfl := List.mem_singleton.mp hm
      exact fits_empty
    case string | pattern | token | immediateToken =>
      obtain ⟨x, hx, rfl⟩ := rule_token rfl h
      obtain ⟨h₁, hx⟩ := anonymousToken_spec hs hx
      refine ⟨h₁, ?_⟩
      intro a hm
      obtain rfl := List.mem_singleton.mp hm
      exact fits_single (.inl hx)
    case symbol =>
      rcases rule_symbol h with ⟨-, h⟩ | ⟨-, x, hx, rfl, rfl⟩
      · exact he _ hs h
      · refine ⟨hs.refl, ?_⟩
        intro a hm
        obtain rfl := List.mem_singleton.mp hm
        exact fits_single (lookup_spec hs hx)
    case seq =>
      refine sequence_spec he hs ?_ ms (rule_seq h)
      intro a hm
      obtain rfl := List.mem_singleton.mp hm
      exact fits_empty
    case choice => exact alternatives_spec he hs ms (rule_choice h)
    case zeroOrMore | oneOrMore =>
      obtain ⟨bs, s₁, hbs, h⟩ := rule_repetition (by simp) h
      obtain ⟨h₁, hb⟩ := content_spec he hs c hbs
      obtain ⟨h₂, ha⟩ := repetition_spec h₁.sound hb h
      exact ⟨h₁.trans h₂, ha⟩
    case renamed =>
      obtain ⟨name, x, bs, s₁, s₂, hx, hbs, h⟩ := rule_renamed h
      obtain ⟨h₁, info, hi, hv⟩ := labelSymbol_spec hs hx
      obtain ⟨h₂, hb⟩ := content_spec he h₁.sound c hbs
      obtain ⟨h₃, ha⟩ := rename_spec h₂.sound ⟨info, h₂.grows _ _ hi, hv⟩ hb h
      exact ⟨(h₁.trans h₂).trans h₃, ha⟩
    all_goals
      obtain ⟨bs, fields, hbs, hshown⟩ := rule_wrapper rfl (by simp) h
      have h₁ : s.Extends { s with fields } := hs.same rfl rfl rfl rfl rfl
      obtain ⟨h₂, hb⟩ := content_spec he h₁.sound c hbs
      exact ⟨h₁.trans h₂, fits_of_shown hshown hb⟩

theorem content_spec {g : Grammar} {expand : String → Numbered (List Alternative)}
    (he : ∀ name, Sound (expand name)) {s s' : Numbering} {as : List Alternative} {k : RuleKind}
    (hs : s.Sound) : ∀ c : Option Rule, content g expand k c s = .ok (as, s') →
      s.Extends s' ∧ ∀ a ∈ as, a.Fits s'.symbols
  | none, h => (Stateful.throw_eq_ok.mp h).elim
  | some r, h => rule_spec he hs r h

theorem alternatives_spec {g : Grammar} {expand : String → Numbered (List Alternative)}
    (he : ∀ name, Sound (expand name)) {s s' : Numbering} {as : List Alternative} (hs : s.Sound) :
    ∀ ms : List Rule, alternatives g expand ms s = .ok (as, s') →
      s.Extends s' ∧ ∀ a ∈ as, a.Fits s'.symbols
  | [], h => by
    obtain ⟨rfl, rfl⟩ := Stateful.pure_eq_ok.mp h
    exact ⟨hs.refl, by simp⟩
  | r :: rs, h => by
    obtain ⟨first, s₁, hfirst, h⟩ := Stateful.bind_eq_ok.mp h
    obtain ⟨others, s₂, hothers, h⟩ := Stateful.bind_eq_ok.mp h
    obtain ⟨rfl, rfl⟩ := Stateful.pure_eq_ok.mp h
    obtain ⟨h₁, hf⟩ := rule_spec he hs r hfirst
    obtain ⟨h₂, ho⟩ := alternatives_spec he h₁.sound rs hothers
    refine ⟨h₁.trans h₂, ?_⟩
    intro a hm
    rcases List.mem_append.mp hm with hm | hm
    · exact h₂.grows.alternatives hf a hm
    · exact ho a hm

theorem sequence_spec {g : Grammar} {expand : String → Numbered (List Alternative)}
    (he : ∀ name, Sound (expand name)) {s s' : Numbering} {heads as : List Alternative}
    (hs : s.Sound) (hh : ∀ a ∈ heads, a.Fits s.symbols) :
    ∀ ms : List Rule, sequence g expand heads ms s = .ok (as, s') →
      s.Extends s' ∧ ∀ a ∈ as, a.Fits s'.symbols
  | [], h => by
    obtain ⟨rfl, rfl⟩ := Stateful.pure_eq_ok.mp h
    exact ⟨hs.refl, hh⟩
  | r :: rs, h => by
    obtain ⟨tails, s₁, htails, h⟩ := Stateful.bind_eq_ok.mp h
    obtain ⟨both, s₂, hboth, h⟩ := Stateful.bind_eq_ok.mp h
    obtain ⟨h₁, ht⟩ := rule_spec he hs r htails
    obtain ⟨rfl, rfl⟩ := cross_eq_ok hboth
    obtain ⟨h₂, ha⟩ := sequence_spec he h₁.sound (fits_cross (h₁.grows.alternatives hh) ht) rs h
    exact ⟨h₁.trans h₂, ha⟩

end

theorem inlineBody_spec (g : Grammar) (fuel : Nat) (entered : List String) (name : String) :
    Sound (inlineBody g fuel entered name) := by
  induction fuel generalizing entered name with
  | zero =>
    intro s s' as _ h
    obtain ⟨n, body, hn, -⟩ := inlineBody_eq_ok h
    contradiction
  | succ fuel ih =>
    intro s s' as hs h
    obtain ⟨n, body, hn, -, h⟩ := inlineBody_eq_ok h
    obtain rfl := Nat.succ.inj hn
    exact rule_spec (fun name => ih _ name) hs body h

theorem ruleOf_spec (g : Grammar) (r : Rule) : Sound (ruleOf g r) :=
  fun hs h => rule_spec (fun name => inlineBody_spec g _ [] name) hs r h

theorem isRule_of_not_isLexical (hx : IsToken s.symbols x ∨ IsRule s.symbols x)
    (h : s.isLexical x = false) : IsRule s.symbols x := by
  rcases hx with ⟨info, hi, hk⟩ | hx
  · unfold isLexical at h
    rcases hk with hk | hk <;> simp [hi, hk] at h
  · exact hx

/-- Flattening one rule gives its symbol what the alternatives fit. -/
theorem flattened_extends {g : Grammar} {name : String} {r : Rule} (hs : s.Sound)
    (hx : s.lookup name = some x) (hl : s.isLexical x = false)
    (h : ruleOf g r { s with currentRule := some x } = .ok (as, s')) :
    s.Extends { s' with
      productions := s'.productions ++ (as.eraseDups.map (production x)).toArray } := by
  have h₁ : s.Extends { s with currentRule := some x } := hs.same rfl rfl rfl rfl rfl
  obtain ⟨h₂, hfits⟩ := ruleOf_spec g r h₁.sound h
  have hext := h₁.trans h₂
  have hrule := isRule_of_not_isLexical (lookup_spec hs hx) hl
  exact hext.trans (addProductions_spec (u := ()) h₂.sound (hext.grows.isRule hrule) hfits rfl)

theorem rules_spec {g : Grammar} {entries : List (String × Rule)} {u : Unit} (hs : s.Sound)
    (h : rules g entries s = .ok (u, s')) : s.Extends s' := by
  induction entries generalizing s with
  | nil =>
    obtain rfl := Stateful.modify_eq_ok.mp h
    exact hs.same rfl rfl rfl rfl rfl
  | cons e rest ih =>
    obtain ⟨name, r⟩ := e
    rcases rules_cons h with ⟨-, h⟩ | ⟨x, as, s₁, hlook, hx, has, h⟩
    · exact ih hs h
    · have hext := flattened_extends hs hlook hx has
      exact hext.trans (ih hext.sound h)

/-- Symbols are numbered in four stages: externals, tokens, extras and nonterminals. -/
structure Stages (g : Grammar) (start : String) (xs ys : List Symbol) (s₁ s₂ s₃ s : Numbering) :
    Prop where
  externals : Numbering.externals (g.externals.getD []) Numbering.initial = .ok (xs, s₁)
  tokens : Numbering.tokens g g.rules.entries s₁ = .ok ((), s₂)
  extras : g.effectiveExtras.mapM (Numbering.extra g) s₂ = .ok (ys, s₃)
  nonterminals :
    Numbering.nonterminals g start (start :: g.rules.keys.filter (· != start)) s₃ = .ok ((), s)

/-- The rules are flattened in a fifth stage. -/
theorem grammar_eq_ok {g : Grammar} {start : String} {flat : FlatGrammar} {s' : Numbering}
    (h : grammar g start Numbering.initial = .ok (flat, s')) :
    ∃ s₁ s₂ s₃ s, Stages g start flat.externals flat.extras s₁ s₂ s₃ s ∧
      s.lookup start = some flat.start ∧ rules g g.rules.entries s = .ok ((), s') ∧
      flat.symbols = s'.symbols ∧ flat.productions = s'.productions ∧
      flat.lexRules = s'.lexRules.toList := by
  unfold grammar at h
  obtain ⟨externals, s₁, hexternals, h⟩ := Stateful.bind_eq_ok.mp h
  obtain ⟨u₂, s₂, htokens, h⟩ := Stateful.bind_eq_ok.mp h
  obtain ⟨extras, s₃, hextras, h⟩ := Stateful.bind_eq_ok.mp h
  obtain ⟨u₄, s₄, hnonterminals, h⟩ := Stateful.bind_eq_ok.mp h
  obtain ⟨t, s₅, hget, h⟩ := Stateful.bind_eq_ok.mp h
  obtain ⟨rfl, rfl⟩ := Stateful.get_eq_ok.mp hget
  refine ⟨s₁, s₂, s₃, s₄, ?_⟩
  cases hlook : s₄.lookup start with
  | none =>
    simp only [hlook] at h
    obtain ⟨x, s₅, h, -⟩ := Stateful.bind_eq_ok.mp h
    exact (Stateful.throw_eq_ok.mp h).elim
  | some x =>
    simp only [hlook] at h
    obtain ⟨y, s₅, hy, h⟩ := Stateful.bind_eq_ok.mp h
    obtain ⟨rfl, rfl⟩ := Stateful.pure_eq_ok.mp hy
    obtain ⟨u₅, s₅, hrules, h⟩ := Stateful.bind_eq_ok.mp h
    obtain ⟨t, s₆, hget, h⟩ := Stateful.bind_eq_ok.mp h
    obtain ⟨rfl, rfl⟩ := Stateful.get_eq_ok.mp hget
    obtain ⟨word, s₆, hword, h⟩ := Stateful.bind_eq_ok.mp h
    obtain ⟨-, rfl⟩ := Stateful.lift_eq_ok.mp hword
    obtain ⟨conflicts, s₆, hconflicts, h⟩ := Stateful.bind_eq_ok.mp h
    obtain ⟨-, rfl⟩ := Stateful.lift_eq_ok.mp hconflicts
    obtain ⟨rfl, rfl⟩ := Stateful.pure_eq_ok.mp h
    exact ⟨⟨hexternals, htokens, hextras, hnonterminals⟩, rfl, hrules, rfl, rfl, rfl⟩

section

variable {g : Grammar} {start : String} {xs ys : List Symbol} {s₁ s₂ s₃ : Numbering}

/-- Until the nonterminals get their numbers all names stand for tokens, and so do externals and
extras. -/
theorem Stages.spec (h : Stages g start xs ys s₁ s₂ s₃ s) :
    s₃.Sound ∧ s₃.Lexical ∧ ∀ x, x ∈ xs ∨ x ∈ ys → IsToken s₃.symbols x := by
  obtain ⟨h₁, hxs⟩ := externals_spec initial_sound h.externals
  have h₂ := tokens_spec h₁.sound h.tokens
  have hlexical := h₂.lexical (h₁.lexical (by simp [Lexical, initial]))
  obtain ⟨h₃, hys⟩ := extras_spec h₂.sound hlexical h.extras
  refine ⟨h₃.sound, h₃.lexical hlexical, fun x hx => ?_⟩
  rcases hx with hx | hx
  · exact (h₂.grows.trans h₃.grows).isToken (hxs x hx)
  · exact hys x hx

theorem Stages.sound (h : Stages g start xs ys s₁ s₂ s₃ s) : s.Sound :=
  (nonterminals_spec h.spec.1 h.nonterminals).1

theorem Stages.grows (h : Stages g start xs ys s₁ s₂ s₃ s) : s₃.Grows s :=
  (nonterminals_spec h.spec.1 h.nonterminals).2

end

theorem grammar_spec {g : Grammar} {start : String} {flat : FlatGrammar} {s : Numbering}
    (h : grammar g start Numbering.initial = .ok (flat, s)) : flat.WellFormed := by
  obtain ⟨s₁, s₂, s₃, s₄, hstages, hlook, hrules, hsymbols, hproductions, hlexRules⟩ :=
    grammar_eq_ok h
  have h₅ := rules_spec hstages.sound hrules
  obtain ⟨-, -, htokens⟩ := hstages.spec
  have hgrows := hstages.grows.trans h₅.grows
  constructor
  · rw [hsymbols]
    exact h₅.sound.size_le
  · rw [hsymbols]
    exact h₅.sound.first
  · rw [hsymbols]
    exact (lookup_spec hstages.sound hlook).imp h₅.grows.isToken h₅.grows.isRule
  · rw [hsymbols, hproductions]
    exact h₅.sound.productions
  · rw [hsymbols, hlexRules]
    exact fun r hr => h₅.sound.lexRules r (Array.mem_toList_iff.mp hr)
  · rw [hsymbols]
    exact fun x hx => hgrows.isToken (htokens x (.inr hx))
  · rw [hsymbols]
    exact fun x hx => hgrows.isToken (htokens x (.inl hx))

end Flatten

/-- What is computed of a result holds of what it is. -/
theorem exists_ok {ε α : Type} {x : Except ε α} {p : α → Bool} (h : x.toOption.any p = true) :
    ∃ a, x = .ok a ∧ p a = true := by
  cases x with
  | ok a => exact ⟨a, rfl, h⟩
  | error e => contradiction

/-- A flat grammar comes from a start rule that is no token. -/
theorem FlatGrammar.ofGrammar_eq_ok {g : Grammar} {flat : FlatGrammar}
    (h : FlatGrammar.ofGrammar g = .ok flat) :
    ∃ start r s, g.startRule? = some start ∧ g.rules.get? start = some r ∧
      Flatten.grammar g start Numbering.initial = .ok (flat, s) := by
  unfold FlatGrammar.ofGrammar at h
  split at h
  · contradiction
  · rename_i start hstart
    split at h
    · contradiction
    · rename_i r hr
      split at h
      · contradiction
      · cases hrun : (Flatten.grammar g start).run Numbering.initial with
        | error e =>
          rw [hrun] at h
          contradiction
        | ok p =>
          rw [hrun] at h
          obtain ⟨flat', s⟩ := p
          obtain rfl := Except.ok.inj h
          exact ⟨start, r, s, hstart, hr, hrun⟩

theorem FlatGrammar.ofGrammar_wellFormed {g : Grammar} {flat : FlatGrammar}
    (h : FlatGrammar.ofGrammar g = .ok flat) : flat.WellFormed := by
  obtain ⟨start, r, s, -, -, hrun⟩ := ofGrammar_eq_ok h
  exact Flatten.grammar_spec hrun

end Glr
