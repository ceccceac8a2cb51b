import Glr.Proofs.FlatGrammar.Faithful
import Glr.Proofs.FlatGrammar.Names
import Glr.Proofs.FlatGrammar.Safe

/-!
# Glr.Proofs.FlatGrammar.Operators

Grammars of infix operators.  The start rule is a choice of operators, each between two nodes
of the start rule, and of tokens:

```
CHOICE [ PREC_LEFT n (SEQ [s, "+", s]),  …,  number ]
```

The flat form has a production for each of them and no others for the start symbol.  The level
and the associativity stand on every step, and so on the production.
-/

namespace Glr

open Glr.Numbering

/-- An infix operator. -/
structure Operator where
  literal : String
  level : Int32
  associativity : Associativity
  deriving DecidableEq, Repr

namespace Operator

/-- The rule of an operator between two nodes of the start rule. -/
def rule (o : Operator) (start : String) : Rule :=
  let operands := .seq [.sym start, .string o.literal, .sym start]
  match o.associativity with
  | .left => .precLeft o.level.toInt operands
  | .right => .precRight o.level.toInt operands

/-- The production of an operator with its token. -/
def production (o : Operator) (start token : Symbol) : Production :=
  let step (symbol : Symbol) : Step :=
    { symbol, precedence := some o.level.toInt, associativity := some o.associativity }
  { lhs := start
    steps := [step start, step token, step start]
    precedence := o.level.toInt
    associativity := some o.associativity
    dynamicPrecedence := 0 }

@[simp] theorem rhs_production (o : Operator) (start token : Symbol) :
    (o.production start token).rhs = [start, token, start] := rfl

/-- Operators with different literals are told by them. -/
theorem eq_of_literal_eq {ops : List Operator} {o o' : Operator}
    (h : (ops.map Operator.literal).Nodup) (ho : o ∈ ops) (ho' : o' ∈ ops)
    (he : o.literal = o'.literal) : o = o' := by
  induction ops with
  | nil => simp at ho
  | cons k ops ih =>
    obtain ⟨hk, hops⟩ := List.nodup_cons.mp h
    have hnot {o : Operator} (ho : o ∈ ops) : k.literal ≠ o.literal := fun he =>
      hk (he ▸ List.mem_map_of_mem ho)
    rcases List.mem_cons.mp ho with rfl | hm
    · rcases List.mem_cons.mp ho' with rfl | hm'
      · rfl
      · exact absurd he (hnot hm')
    · rcases List.mem_cons.mp ho' with rfl | hm'
      · exact absurd he.symm (hnot hm)
      · exact ih hops hm hm'

end Operator

/-- The production of one token. -/
def Production.ofToken (start token : Symbol) : Production :=
  Flatten.production start (Flatten.single token)

@[simp] theorem Production.rhs_ofToken (start token : Symbol) :
    (Production.ofToken start token).rhs = [token] := rfl

/-- A rule that is one token: it is written out, or it is named by a token rule or by an
external. -/
def Grammar.Atom (g : Grammar) (r : Rule) : Prop :=
  r.isTerminal = true ∨ ∃ name, r.Names name ∧ (isTokenRule g name = true ∨
    g.inlines name = false ∧ ∃ e ∈ g.externals.getD [], e.Names name)

/-- The start rule is a choice of operators with different literals, and of tokens. -/
structure Grammar.Infix (g : Grammar) (start : String) (ops : List Operator) : Prop where
  startRule : g.startRule? = some start
  distinct : (ops.map Operator.literal).Nodup
  members : ∃ members, g.rules.get? start = some (.choice members) ∧
    ∀ m ∈ members, (∃ o ∈ ops, m = o.rule start) ∨ g.Atom m

namespace FlatGrammar

/-- A token joins two nodes by an operator. -/
structure Operates (g : FlatGrammar) (ops : List Operator) (o : Operator) (t : Symbol) : Prop where
  mem : o ∈ ops
  token : IsToken g.symbols t
  named : g.name t = o.literal
  production : o.production g.start t ∈ g.productions

/-- The start symbol has productions for operators and tokens only. -/
structure Infix (g : FlatGrammar) (start : String) (ops : List Operator) : Prop where
  start : g.symbols[g.start]? = some ⟨start, true, true, .nonterminal⟩
  distinct : (ops.map Operator.literal).Nodup
  productions : ∀ p ∈ g.productions, p.lhs = g.start →
    (∃ o t, g.Operates ops o t ∧ p = o.production g.start t) ∨
      ∃ t, IsToken g.symbols t ∧ p = .ofToken g.start t

/-- A token joins by one operator only. -/
theorem Infix.operator_unique {g : FlatGrammar} {start : String} {ops : List Operator}
    {o o' : Operator} {t : Symbol} (h : g.Infix start ops) (ho : g.Operates ops o t)
    (ho' : g.Operates ops o' t) : o = o' :=
  Operator.eq_of_literal_eq h.distinct ho.mem ho'.mem (ho.named.symm.trans ho'.named)

end FlatGrammar

namespace Flatten

variable {g : Grammar} {expand : String → Numbered (List Alternative)} {s s' f : Numbering}
  {as : List Alternative} {x : Symbol} {start : String} {n : Nat} {Known : Production → Prop}

/-! ## The runs of the members -/

theorem sequence_cons {r : Rule} {rs : List Rule} {heads : List Alternative}
    (h : sequence g expand heads (r :: rs) s = .ok (as, s')) :
    ∃ tails s₁, rule g expand r s = .ok (tails, s₁) ∧
      sequence g expand (heads.flatMap fun a => tails.map (append a)) rs s₁ = .ok (as, s') := by
  obtain ⟨tails, s₁, htails, h⟩ := Stateful.bind_eq_ok.mp h
  obtain ⟨both, s₂, hboth, h⟩ := Stateful.bind_eq_ok.mp h
  obtain ⟨rfl, rfl⟩ := cross_eq_ok hboth
  exact ⟨tails, s₁, htails, h⟩

theorem rule_sym (hi : g.inlines start = false) (hx : s.lookup start = some x)
    (h : rule g expand (.sym start) s = .ok (as, s')) : as = [single x] ∧ s = s' := by
  rcases rule_symbol h with ⟨hi', -⟩ | ⟨-, y, hy, rfl, rfl⟩
  · exact absurd (hi'.symm.trans hi) (by simp)
  · obtain rfl := Option.some.inj (hx.symm.trans hy)
    exact ⟨rfl, rfl⟩

/-- The operands and the token between them are one alternative. -/
theorem rule_operands {literal : String} (hi : g.inlines start = false)
    (hx : s.lookup start = some x)
    (h : rule g expand (.seq [.sym start, .string literal, .sym start]) s = .ok (as, s')) :
    ∃ t, anonymousToken (.string literal) s = .ok (t, s') ∧
      as = [append (append (append {} (single x)) (single t)) (single x)] := by
  obtain ⟨left, s₁, hleft, h⟩ := sequence_cons (rule_seq h)
  obtain ⟨rfl, rfl⟩ := rule_sym hi hx hleft
  obtain ⟨token, s₁, htoken, h⟩ := sequence_cons h
  obtain ⟨t, ht, rfl⟩ := rule_token rfl htoken
  obtain ⟨right, s₂, hright, h⟩ := sequence_cons h
  have hx₁ : s₁.lookup start = some x := by
    obtain ⟨key, -, -, rfl | ⟨-, info, -, hadded⟩⟩ := anonymousToken_eq_ok ht
    · exact hx
    · exact (lookup_of_named hadded.named).trans hx
  obtain ⟨rfl, rfl⟩ := rule_sym hi hx₁ hright
  obtain ⟨rfl, rfl⟩ := Stateful.pure_eq_ok.mp h
  exact ⟨t, ht, rfl⟩

/-- An operator has one production. -/
theorem rule_operator {o : Operator} (hi : g.inlines start = false)
    (hx : s.lookup start = some x) (h : rule g expand (o.rule start) s = .ok (as, s')) :
    ∃ t, anonymousToken (.string o.literal) s = .ok (t, s') ∧
      as.map (production x) = [o.production x t] := by
  obtain ⟨literal, level, associativity⟩ := o
  cases associativity
  all_goals
    obtain ⟨l, s₁, hl, h⟩ := Stateful.bind_eq_ok.mp h
    obtain ⟨hlevel, rfl⟩ := Stateful.lift_eq_ok.mp hl
    obtain rfl : level.toInt = l := Except.ok.inj hlevel
    obtain ⟨bs, s₁, hbs, h⟩ := Stateful.bind_eq_ok.mp h
    obtain ⟨rfl, rfl⟩ := Stateful.pure_eq_ok.mp h
    obtain ⟨t, ht, rfl⟩ := rule_operands hi hx hbs
    exact ⟨t, ht, rfl⟩

/-- The token of a literal has the literal as its name. -/
theorem literal_named {literal : String} {t : Symbol} (hp : s.Proper n Known)
    (h : anonymousToken (.string literal) s = .ok (t, s')) :
    ∃ info, s'.symbols[t]? = some info ∧ info.name = literal := by
  obtain ⟨key, hkey, hlook, -⟩ := anonymousToken_eq_ok h
  obtain rfl : ⟨.literal literal, 0, false⟩ = key := Except.ok.inj hkey
  exact ((anonymousToken_safe _).keeps _ _ _ h hp).literals _ t literal (mem_of_lookup hlook) rfl

/-- A rule that is one token has one alternative. -/
theorem rule_atom {fuel : Nat} {entered : List String} {m : Rule} (hm : g.Atom m)
    (hs : s.Sound) (hf : s'.Keeps f)
    (hnames : ∀ name, isTokenRule g name = true ∨ (∃ e ∈ g.externals.getD [], e.Names name) →
      ∃ t, f.lookup name = some t ∧ IsToken f.symbols t)
    (h : rule g (inlineBody g fuel entered) m s = .ok (as, s')) :
    ∃ t, IsToken f.symbols t ∧ as = [single t] := by
  have hterminal {m : Rule} {expand : String → Numbered (List Alternative)}
      (hm : m.isTerminal = true) (h : rule g expand m s = .ok (as, s')) :
      ∃ t, IsToken f.symbols t ∧ as = [single t] := by
    obtain ⟨k, a, c, ms⟩ := m
    obtain ⟨t, ht, rfl⟩ := rule_token hm h
    exact ⟨t, hf.grows.isToken (anonymousToken_spec hs ht).2, rfl⟩
  rcases hm with hm | ⟨name, ⟨hk, hname⟩, hm⟩
  · exact hterminal hm h
  obtain ⟨k, a, c, ms⟩ := m
  obtain rfl : k = .symbol := hk
  obtain rfl : a.name.getD "" = name := hname
  rcases rule_symbol h with ⟨hi, h⟩ | ⟨-, y, hy, rfl, rfl⟩
  · rcases hm with ht | ⟨hi', -⟩
    · obtain ⟨n, body, rfl, hbody, h⟩ := inlineBody_eq_ok h
      rw [isTokenRule, hbody] at ht
      exact hterminal ht h
    · exact absurd (hi.symm.trans hi') (by simp)
  · obtain ⟨t, ht, htoken⟩ := hnames _ (hm.imp_right And.right)
    rw [lookup_of_named hf.named, hy] at ht
    exact ⟨y, Option.some.inj ht ▸ htoken, rfl⟩

/-- An alternative of a choice is one of a member. -/
theorem exists_member {ms : List Rule} {I : Numbering → Prop}
    (hI : ∀ m, Numbered.Leaves I (rule g expand m)) (hkept : ∀ name, Kept (expand name)) (hs : I s)
    (h : alternatives g expand ms s = .ok (as, s')) {a : Alternative} (ha : a ∈ as) :
    ∃ m ∈ ms, ∃ s₁ s₂ bs, I s₁ ∧ rule g expand m s₁ = .ok (bs, s₂) ∧ s₂.Keeps s' ∧ a ∈ bs := by
  induction ms generalizing s as with
  | nil =>
    obtain ⟨rfl, rfl⟩ := Stateful.pure_eq_ok.mp h
    simp at ha
  | cons m ms ih =>
    obtain ⟨first, s₁, hfirst, h⟩ := Stateful.bind_eq_ok.mp h
    obtain ⟨others, s₂, hothers, h⟩ := Stateful.bind_eq_ok.mp h
    obtain ⟨rfl, rfl⟩ := Stateful.pure_eq_ok.mp h
    rcases List.mem_append.mp ha with ha | ha
    · exact ⟨m, by simp, s, s₁, first, hs, hfirst, alternatives_keeps hkept ms hothers, ha⟩
    · obtain ⟨m', hm', t, t', bs, ht, hrun, hkeeps, hbs⟩ := ih (hI m _ _ _ hfirst hs) hothers ha
      exact ⟨m', by simp [hm'], t, t', bs, ht, hrun, hkeeps, hbs⟩

/-! ## All rules -/

/-- The four stages of numbering flatten nothing. -/
theorem Stages.proper {r : Rule} {s₁ s₂ s₃ s : Numbering} {xs ys : List Symbol}
    (hr : g.rules.get? start = some r) (h : Stages g start xs ys s₁ s₂ s₃ s) :
    s.Proper s.symbols.size Known := by
  have htitled := h.titled hr
  have h₀ : initial.Proper 0 fun _ => True := initial_proper
  have h₁ := (externals_safe _).keeps _ _ _ h.externals h₀
  have h₂ := (tokens_safe _).keeps _ _ _ h.tokens h₁
  have h₃ := (Numbered.Safe.mapM extra_safe _).keeps _ _ _ h.extras h₂
  have h₄ := (nonterminals_safe _ _).keeps _ _ _ h.nonterminals h₃
  exact { h₄ with
    size_le := Nat.le_refl _, productions := fun p hp => absurd hp (htitled.productions p) }

/-- What is known of the productions that each rule gets is known of all of them. -/
theorem rules_proper {entries : List (String × Rule)} {u : Unit} (hs : s.Sound)
    (hp : s.Proper n Known) (h : rules g entries s = .ok (u, f))
    (hown : ∀ name r y t t' as, (name, r) ∈ entries → t.lookup name = some y → t.Sound →
      t.Proper n Known → ruleOf g r t = .ok (as, t') → t'.Keeps f →
        ∀ a ∈ as, Known (production y a)) : f.Proper n Known := by
  induction entries generalizing s with
  | nil =>
    obtain rfl := Stateful.modify_eq_ok.mp h
    exact { hp with current := Nat.lt_of_le_of_lt (Nat.zero_le _) hp.current }
  | cons e rest ih =>
    obtain ⟨name, r⟩ := e
    have hrest := fun name r y t t' as hm => hown name r y t t' as (List.mem_cons_of_mem _ hm)
    rcases rules_cons h with ⟨-, h⟩ | ⟨y, as, s₁, hy, hl, hrun, h⟩
    · exact ih hs hp h hrest
    · have hext := flattened_extends hs hy hl hrun
      have hp₁ := (ruleOf_safe r).keeps _ _ _ hrun (hp.enter hs hy)
      have hf := keeps_of_productions (rules_keeps h)
      refine ih hext.sound { hp₁ with productions := fun p hm hlt => ?_ } h hrest
      rcases mem_addProductions.mp hm with hm | ⟨a, ha, rfl⟩
      · exact hp₁.productions p hm hlt
      · exact hown name r y { s with currentRule := some y } s₁ as (by simp) hy { hs with }
          (hp.enter hs hy) hrun hf a ha

variable {ops : List Operator}

/-- What a production of the start symbol is like. -/
def Fits (f : Numbering) (ops : List Operator) (x : Symbol) (p : Production) : Prop :=
  (∃ o ∈ ops, ∃ t info, f.symbols[t]? = some info ∧ IsToken f.symbols t ∧ info.name = o.literal ∧
    p = o.production x t) ∨ ∃ t, IsToken f.symbols t ∧ p = .ofToken x t

/-- The members of the start rule give productions like that. -/
theorem ruleOf_fits {ms : List Rule} (hms : ∀ m ∈ ms, (∃ o ∈ ops, m = o.rule start) ∨ g.Atom m)
    (hi : g.inlines start = false) (hs : s.Sound) (hp : s.Proper n Known) (hf : s'.Keeps f)
    (hx : f.lookup start = some x)
    (hnames : ∀ name, isTokenRule g name = true ∨ (∃ e ∈ g.externals.getD [], e.Names name) →
      ∃ t, f.lookup name = some t ∧ IsToken f.symbols t)
    (h : ruleOf g (.choice ms) s = .ok (as, s')) :
    ∀ a ∈ as, Fits f ops x (production x a) := by
  intro a ha
  have hI (m : Rule) : Numbered.Leaves (fun t => t.Sound ∧ t.Proper n Known)
      (rule g (inlineBody g (g.inlined.getD []).length []) m) :=
    fun t t' bs hrun ht => ⟨(rule_spec (inlineBody_spec g _ _) ht.1 m hrun).1.sound,
      (rule_safe (inlineBody_safe _ _) m).keeps _ _ _ hrun ht.2⟩
  obtain ⟨m, hm, t, t', bs, ⟨ht, hpt⟩, hrun, hkeeps, ha⟩ :=
    exists_member hI (inlineBody_keeps g _ _) ⟨hs, hp⟩ (rule_choice h) ha
  have hf := hkeeps.trans hf
  rcases hms m hm with ⟨o, ho, rfl⟩ | hm
  · have hnamed := (rule_keeps (inlineBody_keeps g _ _) _ hrun).trans hf
    rw [lookup_of_named hnamed.named] at hx
    obtain ⟨y, hy, has⟩ := rule_operator hi hx hrun
    obtain ⟨info, hinfo, hname⟩ := literal_named hpt hy
    have hmem : production x a ∈ bs.map (production x) := List.mem_map_of_mem ha
    rw [has, List.mem_singleton] at hmem
    exact .inl ⟨o, ho, y, info, hf.grows _ _ hinfo,
      hf.grows.isToken (anonymousToken_spec ht hy).2, hname, hmem⟩
  · obtain ⟨y, hy, rfl⟩ := rule_atom hm ht hf hnames hrun
    obtain rfl := List.mem_singleton.mp ha
    exact .inr ⟨y, hy, rfl⟩

end Flatten

/-- The flat form of a grammar of infix operators. -/
theorem Grammar.Infix.flat {g : Grammar} {start : String} {ops : List Operator}
    {flat : FlatGrammar} (h : g.Infix start ops) (hf : FlatGrammar.ofGrammar g = .ok flat)
    (hstart : flat.isTerminal flat.start = false) : flat.Infix start ops := by
  obtain ⟨start', r, f, hstart', hr, hrun⟩ := FlatGrammar.ofGrammar_eq_ok hf
  obtain rfl := Option.some.inj (h.startRule.symm.trans hstart')
  obtain ⟨members, hmembers, hkinds⟩ := h.members
  obtain rfl := Option.some.inj (hr.symm.trans hmembers)
  obtain ⟨s₁, s₂, s₃, s, hstages, hlook, hrules, hsymbols, hproductions, -⟩ :=
    Flatten.grammar_eq_ok hrun
  have hs := hstages.sound
  have hnames := hstages.names
  have hkeeps := Flatten.rules_keeps hrules
  have hlooks (name : String) : f.lookup name = s.lookup name := lookup_of_named hkeeps.named
  have htoken (name : String) (hname : isTokenRule g name = true ∨
      ∃ e ∈ g.externals.getD [], e.Names name) :
      ∃ t, f.lookup name = some t ∧ IsToken f.symbols t := by
    obtain ⟨t, ht, htoken⟩ := hnames.isToken name hname
    exact ⟨t, (hlooks name).trans ht, hkeeps.grows.isToken htoken⟩
  -- the start symbol is the nonterminal of the start rule, and of no other
  have hno : ¬IsToken s.symbols flat.start := by
    intro ht
    rw [FlatGrammar.isTerminal_of_isToken (hsymbols ▸ hkeeps.grows.isToken ht)] at hstart
    contradiction
  obtain ⟨hi, hinfo⟩ := hnames.of_not_isToken hlook hno
  have hp : s.Proper s.symbols.size fun p =>
      p.lhs = flat.start → Flatten.Fits f ops flat.start p := hstages.proper hr
  have hall := Flatten.rules_proper hs hp hrules
    fun name r y t t' as hm hy ht hpt hrun hf a ha hlhs => by
      obtain rfl : y = flat.start := hlhs
      have hname : name = start := by
        have hnamed := ((Flatten.ruleOf_keeps g r hrun).trans hf).named
        rw [← lookup_of_named hnamed, hlooks] at hy
        have hname := (hnames.of_not_isToken hy hno).2
        rw [hinfo] at hname
        exact (congrArg SymbolInfo.name (Option.some.inj hname)).symm
      subst hname
      obtain rfl := Option.some.inj (hr.symm.trans (Dictionary.get?_eq_some_iff.mpr hm))
      exact Flatten.ruleOf_fits hkinds hi ht hpt hf ((hlooks name).trans hlook) htoken hrun a ha
  have hlt := lt_size_of_isToken_or_isRule (lookup_spec hs hlook)
  refine ⟨?_, h.distinct, fun p hp hlhs => ?_⟩
  · rw [hsymbols, hkeeps.grows _ _ hinfo]
    simp
  · rw [hproductions] at hp
    rcases hall.productions p hp (hlhs ▸ hlt) hlhs with
      ⟨o, ho, t, info, hinfo, htoken, hname, rfl⟩ | ⟨t, htoken, rfl⟩
    · refine .inl ⟨o, t, ⟨ho, hsymbols ▸ htoken, ?_, hproductions ▸ hp⟩, rfl⟩
      rw [FlatGrammar.name, hsymbols, hinfo]
      exact hname
    · exact .inr ⟨t, hsymbols ▸ htoken, rfl⟩

end Glr
