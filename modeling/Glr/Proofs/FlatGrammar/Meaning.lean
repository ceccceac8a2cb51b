import Glr.Proofs.FlatGrammar.Lowering
import Mathlib.Logic.Function.Basic

/-!
# Glr.Proofs.FlatGrammar.Meaning

What is derived from the alternatives of a rule is what the rule stands for.  While rules
are flattened, symbols get their meaning:

```
token          itself
nonterminal    what its rule stands for
repetition     what one or more of its body stand for
renaming       what its content stands for
```

Every production that is added agrees with it, and a symbol that is new does not change what
the others mean.
-/

namespace Glr

open Flatten

/-- What the symbols of a numbering mean, where `f` is the numbering in the end. -/
structure Means (g : Grammar) (f : Numbering) (M : Meaning) (s : Numbering) : Prop where
  tokens : ∀ x, IsToken s.symbols x → ∀ w, M x w ↔ w = [x]
  rules : ∀ name x, f.lookup name = some x → f.isLexical x = false →
    ∃ r, g.rules.get? name = some r ∧ ∀ w, M x w ↔ g.Reads f r w
  productions : ∀ p ∈ s.productions, ∀ w, Denotes M p.rhs w → M p.lhs w

/-- Symbols that are numbered keep their meaning. -/
def Numbering.Agree (s : Numbering) (M M' : Meaning) : Prop := ∀ x < s.symbols.size, M' x = M x

variable {g : Grammar} {f s s' : Numbering} {M M' M'' : Meaning} {as bs : List Alternative}
  {x : Symbol} {w : List Symbol}

/-! ## New symbols -/

theorem Numbering.Grows.size_le (h : s.Grows s') : s.symbols.size ≤ s'.symbols.size := by
  cases hn : s.symbols.size with
  | zero => exact Nat.zero_le _
  | succ n =>
    have hlast := h n _ (Array.getElem?_eq_getElem (by omega))
    exact (Array.getElem?_eq_some_iff.mp hlast).1

theorem Numbering.Agree.trans (h : s.Agree M M') (hle : s.symbols.size ≤ s'.symbols.size)
    (h' : s'.Agree M' M'') : s.Agree M M'' :=
  fun x hx => (h' x (Nat.lt_of_lt_of_le hx hle)).trans (h x hx)

theorem lt_size_of_isToken_or_isRule {symbols : Array SymbolInfo}
    (h : IsToken symbols x ∨ IsRule symbols x) : x < symbols.size := by
  rcases h with ⟨info, hi, -⟩ | ⟨info, hi, -⟩
  · exact (Array.getElem?_eq_some_iff.mp hi).1
  · exact (Array.getElem?_eq_some_iff.mp hi).1

/-- Alternatives of symbols that keep their meaning stand for the same. -/
theorem Numbering.Agree.anyOf (h : s.Agree M M') (hfits : ∀ a ∈ as, a.Fits s.symbols) :
    AnyOf M' as w ↔ AnyOf M as w := by
  have hrhs (a : Alternative) (ha : a ∈ as) : Denotes M' a.rhs w ↔ Denotes M a.rhs w := by
    refine Denotes.congr fun _ hx => ?_
    obtain ⟨st, hst, rfl⟩ := List.mem_map.mp hx
    exact h _ (lt_size_of_isToken_or_isRule (hfits a ha st hst).symbol)
  constructor
  · rintro ⟨a, ha, hw⟩
    exact ⟨a, ha, (hrhs a ha).mp hw⟩
  · rintro ⟨a, ha, hw⟩
    exact ⟨a, ha, (hrhs a ha).mpr hw⟩

theorem Numbering.agree_update (s : Numbering) (M : Meaning) (m : List Symbol → Prop) :
    s.Agree M (Function.update M s.symbols.size m) :=
  fun _ hx => Function.update_of_ne (Nat.ne_of_lt hx) m M

/-- A new symbol takes a meaning that its productions agree with. -/
theorem Means.added (hm : Means g f M s) (hs : s.Sound) (hf : f.named = s.named)
    {info : SymbolInfo} {sides : List (List Symbol)} (h : Added info sides s s')
    {m : List Symbol → Prop}
    (htoken : info.kind = .terminal ∨ info.kind = .external → ∀ w, m w ↔ w = [s.symbols.size])
    (hsides : ∀ xs ∈ sides, ∀ w, Denotes (Function.update M s.symbols.size m) xs w → m w) :
    Means g f (Function.update M s.symbols.size m) s' where
  tokens := by
    rintro x ⟨i, hi, hk⟩ w
    rw [h.symbols, Array.getElem?_push] at hi
    split at hi
    · rename_i he
      subst he
      obtain rfl := Option.some.inj hi
      rw [Function.update_self]
      exact htoken hk w
    · rw [s.agree_update M m x (Array.getElem?_eq_some_iff.mp hi).1]
      exact hm.tokens x ⟨i, hi, hk⟩ w
  rules := by
    intro name x hx hl
    have hlt : x < s.symbols.size := by
      rw [Numbering.lookup, hf] at hx
      exact lt_size_of_isToken_or_isRule (Numbering.lookup_spec hs hx)
    rw [s.agree_update M m x hlt]
    exact hm.rules name x hx hl
  productions := by
    intro p hp w hw
    rcases h.productions p hp with hp | ⟨hlhs, hrhs⟩
    · have hfits := hs.productions p hp
      rw [s.agree_update M m p.lhs (lt_size_of_isToken_or_isRule (.inr hfits.lhs))]
      refine hm.productions p hp w ((Denotes.congr fun x hx => ?_).mp hw)
      obtain ⟨st, hst, rfl⟩ := List.mem_map.mp hx
      exact s.agree_update M m _ (lt_size_of_isToken_or_isRule (hfits.steps st hst).symbol)
    · rw [hlhs, Function.update_self]
      exact hsides p.rhs hrhs w hw

/-! ## Rules -/

/-- Whatever is numbered on the way can be given a meaning, so that the alternatives stand
for no more than `L`. -/
structure Reading (g : Grammar) (f : Numbering) (m : Numbered (List Alternative))
    (L : List Symbol → Prop) : Prop where
  exists_meaning : ∀ {s s' : Numbering} {as : List Alternative} {M : Meaning}, s.Sound →
    s'.Keeps f → Means g f M s → m s = .ok (as, s') →
    ∃ M', s.Agree M M' ∧ Means g f M' s' ∧ ∀ w, AnyOf M' as w → L w

/-- What expands the rules that are declared inline. -/
structure Expanding (g : Grammar) (f : Numbering) (expand : String → Numbered (List Alternative)) :
    Prop where
  sound : ∀ name, Flatten.Sound (expand name)
  kept : ∀ name, Kept (expand name)
  reading : ∀ name, Reading g f (expand name)
    fun w => ∃ r, g.rules.get? name = some r ∧ g.Reads f r w

theorem token_reading {r : Rule} (hs : s.Sound) (hf : s'.Keeps f) (hm : Means g f M s)
    (h : Numbering.anonymousToken r s = .ok (x, s')) :
    ∃ M' key, s.Agree M M' ∧ Means g f M' s' ∧ r.tokenKey = .ok key ∧
      f.anonymous.lookup key = some x ∧ ∀ w, M' x w ↔ w = [x] := by
  obtain ⟨key, hkey, hlook, hnew⟩ := anonymousToken_eq_ok h
  have htoken := (Numbering.anonymousToken_spec hs h).2
  have hx := hf.anonymous key x hlook
  rcases hnew with rfl | ⟨rfl, info, hk, hadded⟩
  · exact ⟨M, key, fun _ _ => rfl, hm, hkey, hx, hm.tokens x htoken⟩
  · have hnamed : f.named = s.named := hf.named.trans hadded.named
    have hm' := hm.added hs hnamed hadded (m := fun w => w = [s.symbols.size])
      (fun _ _ => Iff.rfl) (by simp)
    exact ⟨_, key, s.agree_update M _, hm', hkey, hx, hm'.tokens _ htoken⟩

/-- A new label means nothing. -/
theorem Means.label (hm : Means g f M s) (hs : s.Sound) (hf : s'.Keeps f) {name : String}
    {named : Bool} (h : labelSymbol name named s = .ok (x, s')) :
    ∃ M', s.Agree M M' ∧ Means g f M' s' := by
  rcases labelSymbol_eq_ok h with rfl | hadded
  · exact ⟨M, fun _ _ => rfl, hm⟩
  · have hnamed : f.named = s.named := hf.named.trans hadded.named
    exact ⟨_, s.agree_update M _, hm.added hs hnamed hadded (m := fun _ => False) (by simp)
      (by simp)⟩

/-- A repetition stands for any number of times what its content stands for. -/
theorem repetition_reading {expand : String → Numbered (List Alternative)}
    (he : Expanding g f expand) {k : RuleKind} {a : RuleAttributes} {c : Option Rule}
    {ms : List Rule} (hk : k = .zeroOrMore ∨ k = .oneOrMore)
    (hc : Reading g f (content g expand k c) fun w => ∃ r, c = some r ∧ g.Reads f r w) :
    Reading g f (rule g expand (.node k a c ms)) (g.Reads f (.node k a c ms)) :=
  ⟨fun {s s' as M} hs hf hm h => by
    obtain ⟨bs, s₁, hbs, hrepetition⟩ := rule_repetition hk h
    obtain ⟨M₁, hagree₁, hm₁, hread⟩ :=
      hc.exists_meaning hs ((repetition_keeps hrepetition).trans hf) hm hbs
    obtain ⟨hext, hfits⟩ := content_spec he.sound hs c hbs
    obtain ⟨r, rfl⟩ := exists_content hbs
    obtain ⟨rfl, name, hadded⟩ := repetition_eq_ok hrepetition
    have hnamed : f.named = s₁.named := hf.named.trans hadded.named
    -- the new symbol means one or more of the body
    let m : List Symbol → Prop := g.Reads f (.node .oneOrMore a (some r) ms)
    have hagree := s₁.agree_update M₁ m
    have hbody (b : Alternative) (hb : b ∈ bs) (w : List Symbol)
        (hw : Denotes (Function.update M₁ s₁.symbols.size m) b.rhs w) : g.Reads f r w := by
      obtain ⟨r', hr, hread⟩ := hread w ((hagree.anyOf hfits).mp ⟨b, hb, hw⟩)
      rwa [Option.some.inj hr]
    have hm' := hm₁.added hext.sound hnamed hadded (m := m) (by simp) fun xs hxs w hw => by
      obtain ⟨b, hb, hxs⟩ := List.mem_flatMap.mp hxs
      rcases List.mem_cons.mp hxs with rfl | hxs
      · obtain ⟨u, v, rfl, hu, hv⟩ := Denotes.cons_iff.mp hw
        rw [Function.update_self] at hu
        exact .more hu (hbody b hb v hv)
      · rw [List.mem_singleton.mp hxs] at hw
        exact .one (hbody b hb w hw)
    refine ⟨_, hagree₁.trans hext.grows.size_le hagree, hm', fun w hw => ?_⟩
    obtain ⟨b, hb, hw⟩ := hw
    rcases List.mem_cons.mp hb with rfl | hb
    · rw [rhs_single, Denotes.singleton_iff, Function.update_self] at hw
      rcases hk with rfl | rfl
      · exact .many hw
      · exact hw
    · rcases hk with rfl | rfl
      · obtain rfl := List.mem_singleton.mp hb
        rw [Denotes.nil_iff.mp hw]
        exact .zero
      · simp at hb⟩

/-- A renaming stands for what its content stands for. -/
theorem rename_reading {label : Symbol} {L : List Symbol → Prop} (hs : s.Sound) (hf : s'.Keeps f)
    (hm : Means g f M s) (hfits : ∀ b ∈ bs, b.Fits s.symbols) (hbs : ∀ w, AnyOf M bs w → L w)
    (h : rename label bs s = .ok (as, s')) :
    ∃ M', s.Agree M M' ∧ Means g f M' s' ∧ ∀ w, AnyOf M' as w → L w := by
  rcases rename_eq_ok h with ⟨rfl, hrhs⟩ | ⟨hrhs, name, hadded⟩
  · exact ⟨M, fun _ _ => rfl, hm, fun w hw => hbs w ((anyOf_congr hrhs).mp hw)⟩
  · have hnamed : f.named = s.named := hf.named.trans hadded.named
    have hagree := s.agree_update M L
    refine ⟨_, hagree, hm.added hs hnamed hadded (by simp) fun xs hxs w hw => ?_, fun w hw => ?_⟩
    · obtain ⟨b, hb, rfl⟩ := List.mem_map.mp hxs
      exact hbs w ((hagree.anyOf hfits).mp ⟨b, hb, hw⟩)
    · rw [anyOf_iff, hrhs] at hw
      obtain ⟨xs, hxs, hw⟩ := hw
      rw [List.mem_singleton.mp hxs, Denotes.singleton_iff, Function.update_self] at hw
      exact hw

mutual

theorem rule_reading {expand : String → Numbered (List Alternative)} (he : Expanding g f expand) :
    ∀ r : Rule, Reading g f (rule g expand r) (g.Reads f r)
  | .node k a c ms => ⟨fun {s s' as M} hs hf hm h => by
    cases k
    case blank =>
      obtain ⟨rfl, rfl⟩ := rule_blank h
      refine ⟨M, fun _ _ => rfl, hm, fun w hw => ?_⟩
      rw [anyOf_empty.mp hw]
      exact .blank
    case string | pattern | token | immediateToken =>
      obtain ⟨x, hx, rfl⟩ := rule_token rfl h
      obtain ⟨M', key, hagree, hm', hkey, hlook, hmeans⟩ := token_reading hs hf hm hx
      refine ⟨M', hagree, hm', fun w hw => ?_⟩
      rw [(hmeans w).mp (anyOf_single.mp hw)]
      exact .token rfl hkey hlook
    case symbol =>
      rcases rule_symbol h with ⟨hi, h⟩ | ⟨hi, x, hx, rfl, rfl⟩
      · obtain ⟨M', hagree, hm', hread⟩ := (he.reading _).exists_meaning hs hf hm h
        refine ⟨M', hagree, hm', fun w hw => ?_⟩
        obtain ⟨r, hr, hw⟩ := hread w hw
        exact .inlined hi hr hw
      · refine ⟨M, fun _ _ => rfl, hm, fun w hw => ?_⟩
        rw [anyOf_single] at hw
        have hx' : f.lookup (a.name.getD "") = some x := by
          rw [Numbering.lookup, hf.named]
          exact hx
        cases hl : f.isLexical x with
        | true =>
          rw [(hm.tokens x (Numbering.isToken_of_isLexical (hf.isLexical_eq hs hx ▸ hl)) w).mp hw]
          exact .named hi hx' hl
        | false =>
          obtain ⟨r, hr, hmeans⟩ := hm.rules _ x hx' hl
          exact .rule hi hx' hl hr ((hmeans w).mp hw)
    case seq =>
      obtain ⟨M', hagree, hm', hread⟩ := sequence_reading he ms a c hs hf hm
        (by simp [Alternative.Fits]) (rule_seq h)
      refine ⟨M', hagree, hm', fun w hw => ?_⟩
      obtain ⟨u, v, rfl, hu, hv⟩ := hread w hw
      rw [anyOf_empty.mp hu]
      exact hv
    case choice =>
      obtain ⟨M', hagree, hm', hread⟩ := (alternatives_reading he ms).exists_meaning hs hf hm (rule_choice h)
      refine ⟨M', hagree, hm', fun w hw => ?_⟩
      obtain ⟨m, hmem, hw⟩ := hread w hw
      exact .choice hmem hw
    case zeroOrMore =>
      exact (repetition_reading he (.inl rfl) (content_reading he c)).exists_meaning hs hf hm h
    case oneOrMore =>
      exact (repetition_reading he (.inr rfl) (content_reading he c)).exists_meaning hs hf hm h
    case renamed =>
      obtain ⟨name, label, bs, s₁, s₂, hlabel, hbs, h⟩ := rule_renamed h
      obtain ⟨hext₁, -⟩ := labelSymbol_spec hs hlabel
      obtain ⟨hext₂, hfits⟩ := content_spec he.sound hext₁.sound c hbs
      have hkeeps := (rename_keeps h).trans hf
      obtain ⟨M₁, hagree₁, hm₁⟩ :=
        hm.label hs ((content_keeps he.kept c hbs).trans hkeeps) hlabel
      obtain ⟨M₂, hagree₂, hm₂, hread₂⟩ := (content_reading he c).exists_meaning hext₁.sound hkeeps hm₁ hbs
      obtain ⟨M', hagree, hm', hread⟩ := rename_reading hext₂.sound hf hm₂ hfits hread₂ h
      refine ⟨M', (hagree₁.trans hext₁.grows.size_le hagree₂).trans
        (hext₁.trans hext₂).grows.size_le hagree, hm', fun w hw => ?_⟩
      obtain ⟨r, rfl, hw⟩ := hread w hw
      exact .wrapper rfl hw
    all_goals
      obtain ⟨bs, fields, hbs, hshown⟩ := rule_wrapper rfl (by simp) h
      have hs' : Numbering.Sound { s with fields } := { hs with }
      have hm₁ : Means g f M { s with fields } := { hm with }
      obtain ⟨M', hagree, hm', hread⟩ := (content_reading he c).exists_meaning hs' hf hm₁ hbs
      refine ⟨M', hagree, hm', fun w hw => ?_⟩
      obtain ⟨r, rfl, hw⟩ := hread w ((anyOf_congr (map_rhs_of_shown hshown)).mp hw)
      exact .wrapper rfl hw⟩

theorem content_reading {expand : String → Numbered (List Alternative)} (he : Expanding g f expand)
    {k : RuleKind} : ∀ c : Option Rule,
      Reading g f (content g expand k c) fun w => ∃ r, c = some r ∧ g.Reads f r w
  | none => ⟨fun {s s' as M} hs hf hm h => by
    exact (Stateful.throw_eq_ok.mp h).elim⟩
  | some r => ⟨fun {s s' as M} hs hf hm h => by
    obtain ⟨M', hagree, hm', hread⟩ := (rule_reading he r).exists_meaning hs hf hm h
    exact ⟨M', hagree, hm', fun w hw => ⟨r, rfl, hread w hw⟩⟩⟩

theorem alternatives_reading {expand : String → Numbered (List Alternative)}
    (he : Expanding g f expand) : ∀ ms : List Rule,
      Reading g f (alternatives g expand ms) fun w => ∃ m ∈ ms, g.Reads f m w
  | [] => ⟨fun {s s' as M} hs hf hm h => by
    obtain ⟨rfl, rfl⟩ := Stateful.pure_eq_ok.mp h
    exact ⟨M, fun _ _ => rfl, hm, by simp [AnyOf]⟩⟩
  | r :: rs => ⟨fun {s s' as M} hs hf hm h => by
    obtain ⟨first, s₁, hfirst, h⟩ := Stateful.bind_eq_ok.mp h
    obtain ⟨others, s₂, hothers, h⟩ := Stateful.bind_eq_ok.mp h
    obtain ⟨rfl, rfl⟩ := Stateful.pure_eq_ok.mp h
    obtain ⟨M₁, hagree₁, hm₁, hread₁⟩ :=
      (rule_reading he r).exists_meaning hs ((alternatives_keeps he.kept rs hothers).trans hf) hm hfirst
    obtain ⟨hext, hfits⟩ := rule_spec he.sound hs r hfirst
    obtain ⟨M', hagree, hm', hread⟩ := (alternatives_reading he rs).exists_meaning hext.sound hf hm₁ hothers
    refine ⟨M', hagree₁.trans hext.grows.size_le hagree, hm', fun w hw => ?_⟩
    rcases anyOf_append.mp hw with hw | hw
    · exact ⟨r, by simp, hread₁ w ((hagree.anyOf hfits).mp hw)⟩
    · obtain ⟨m, hmem, hw⟩ := hread w hw
      exact ⟨m, by simp [hmem], hw⟩⟩

theorem sequence_reading {expand : String → Numbered (List Alternative)}
    (he : Expanding g f expand) {heads : List Alternative} :
    ∀ (ms : List Rule) (a : RuleAttributes) (c : Option Rule) {s s' : Numbering}
      {as : List Alternative} {M : Meaning}, s.Sound → s'.Keeps f → Means g f M s →
      (∀ h ∈ heads, h.Fits s.symbols) → sequence g expand heads ms s = .ok (as, s') →
      ∃ M', s.Agree M M' ∧ Means g f M' s' ∧ ∀ w, AnyOf M' as w →
        ∃ u v, w = u ++ v ∧ AnyOf M heads u ∧ g.Reads f (.node .seq a c ms) v
  | [], a, c, s, s', as, M, hs, hf, hm, hfits, h => by
    obtain ⟨rfl, rfl⟩ := Stateful.pure_eq_ok.mp h
    exact ⟨M, fun _ _ => rfl, hm, fun w hw => ⟨w, [], (List.append_nil w).symm, hw, .nil⟩⟩
  | r :: rs, a, c, s, s', as, M, hs, hf, hm, hfits, h => by
    obtain ⟨tails, s₁, htails, h⟩ := Stateful.bind_eq_ok.mp h
    obtain ⟨both, s₂, hboth, h⟩ := Stateful.bind_eq_ok.mp h
    obtain ⟨hext, hfits₁⟩ := rule_spec he.sound hs r htails
    obtain ⟨rfl, rfl⟩ := cross_eq_ok hboth
    have hfits₂ := fits_cross (hext.grows.alternatives hfits) hfits₁
    obtain ⟨M₁, hagree₁, hm₁, hread₁⟩ :=
      (rule_reading he r).exists_meaning hs ((sequence_keeps he.kept rs h).trans hf) hm htails
    obtain ⟨M', hagree, hm', hread⟩ := sequence_reading he rs a c hext.sound hf hm₁ hfits₂ h
    refine ⟨M', hagree₁.trans hext.grows.size_le hagree, hm', fun w hw => ?_⟩
    obtain ⟨u, v, rfl, hu, hv⟩ := hread w hw
    obtain ⟨t, u, rfl, ht, hu⟩ := anyOf_cross.mp hu
    exact ⟨t, u ++ v, List.append_assoc .., (hagree₁.anyOf hfits).mp ht, .cons (hread₁ u hu) hv⟩

end

theorem inlineBody_expanding (g : Grammar) (f : Numbering) (fuel : Nat) (entered : List String) :
    Expanding g f (inlineBody g fuel entered) := by
  refine ⟨inlineBody_spec g fuel entered, inlineBody_keeps g fuel entered, ?_⟩
  induction fuel generalizing entered with
  | zero =>
    refine fun name => ⟨fun {s s' as M} hs hf hm h => ?_⟩
    obtain ⟨n, body, hn, -⟩ := inlineBody_eq_ok h
    contradiction
  | succ fuel ih =>
    refine fun name => ⟨fun {s s' as M} hs hf hm h => ?_⟩
    obtain ⟨n, body, hn, hbody, h⟩ := inlineBody_eq_ok h
    obtain rfl := Nat.succ.inj hn
    have he : Expanding g f (inlineBody g fuel (name :: entered)) :=
      ⟨inlineBody_spec g fuel _, inlineBody_keeps g fuel _, ih _⟩
    obtain ⟨M', hagree, hm', hread⟩ := (rule_reading he body).exists_meaning hs hf hm h
    exact ⟨M', hagree, hm', fun w hw => ⟨body, hbody, hread w hw⟩⟩

/-- The alternatives of a rule of a grammar stand for no more than the rule. -/
theorem ruleOf_reading (g : Grammar) (f : Numbering) (r : Rule) :
    Reading g f (ruleOf g r) (g.Reads f r) :=
  rule_reading (inlineBody_expanding g f _ []) r

end Glr
