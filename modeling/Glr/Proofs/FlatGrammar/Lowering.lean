import Glr.Proofs.FlatGrammar.Flattened

/-!
# Glr.Proofs.FlatGrammar.Lowering

What flattening adds to the symbols and productions, and what it never does: names and tokens
keep their symbols, and no nonterminal is added.

Of an alternative only its symbols count here:

```
SEQ      all ways to put an alternative of each member after one another
CHOICE   the alternatives of all members
REPEAT1  h           with new productions  h → h a,  h → a   for each alternative a
ALIAS    h           with new productions  h → a             unless each is one symbol
```
-/

namespace Glr

/-! ## Alternatives -/

/-- What some alternatives stand for. -/
def AnyOf (M : Meaning) (as : List Alternative) (w : List Symbol) : Prop :=
  ∃ a ∈ as, Denotes M a.rhs w

namespace Flatten

open Glr.Numbering

variable {M M' : Meaning} {s s' : Numbering} {as bs cs : List Alternative} {w : List Symbol}
  {x : Symbol}

@[simp] theorem rhs_append (a b : Alternative) : (append a b).rhs = a.rhs ++ b.rhs := by
  simp [append, Alternative.rhs]

@[simp] theorem rhs_single (x : Symbol) : (single x).rhs = [x] := rfl

@[simp] theorem rhs_production (x : Symbol) (a : Alternative) : (production x a).rhs = a.rhs := rfl

@[simp] theorem lhs_production (x : Symbol) (a : Alternative) : (production x a).lhs = x := rfl

theorem anyOf_iff : AnyOf M as w ↔ ∃ xs ∈ as.map Alternative.rhs, Denotes M xs w := by
  constructor
  · rintro ⟨a, ha, h⟩
    exact ⟨a.rhs, List.mem_map_of_mem ha, h⟩
  · rintro ⟨xs, hxs, h⟩
    obtain ⟨a, ha, rfl⟩ := List.mem_map.mp hxs
    exact ⟨a, ha, h⟩

/-- Only the symbols of alternatives count. -/
theorem anyOf_congr (h : as.map Alternative.rhs = bs.map Alternative.rhs) :
    AnyOf M as w ↔ AnyOf M bs w := by
  rw [anyOf_iff, anyOf_iff, h]

theorem anyOf_single : AnyOf M [single x] w ↔ M x w := by
  simp [AnyOf]

theorem anyOf_empty : AnyOf M [{}] w ↔ w = [] := by
  simp [AnyOf, Alternative.rhs]

theorem anyOf_append : AnyOf M (as ++ bs) w ↔ AnyOf M as w ∨ AnyOf M bs w := by
  simp [AnyOf, or_and_right, exists_or]

theorem anyOf_cross : AnyOf M (as.flatMap fun a => bs.map (append a)) w ↔
    ∃ u v, w = u ++ v ∧ AnyOf M as u ∧ AnyOf M bs v := by
  constructor
  · rintro ⟨c, hc, h⟩
    obtain ⟨a, ha, hc⟩ := List.mem_flatMap.mp hc
    obtain ⟨b, hb, rfl⟩ := List.mem_map.mp hc
    rw [rhs_append] at h
    obtain ⟨u, v, rfl, hu, hv⟩ := Denotes.append_iff.mp h
    exact ⟨u, v, rfl, ⟨a, ha, hu⟩, ⟨b, hb, hv⟩⟩
  · rintro ⟨u, v, rfl, ⟨a, ha, hu⟩, ⟨b, hb, hv⟩⟩
    refine ⟨append a b, List.mem_flatMap.mpr ⟨a, ha, List.mem_map_of_mem hb⟩, ?_⟩
    rw [rhs_append]
    exact Denotes.append_iff.mpr ⟨u, v, rfl, hu, hv⟩

/-! ## New symbols -/

/-- A new symbol, and productions for it with these right-hand sides. -/
structure Added (info : SymbolInfo) (sides : List (List Symbol)) (s s' : Numbering) : Prop where
  symbols : s'.symbols = s.symbols.push info
  named : s'.named = s.named
  anonymous : ∀ key x, s.anonymous.lookup key = some x → s'.anonymous.lookup key = some x
  kept : ∀ p ∈ s.productions, p ∈ s'.productions
  productions : ∀ p ∈ s'.productions,
    p ∈ s.productions ∨ p.lhs = s.symbols.size ∧ p.rhs ∈ sides
  sides : ∀ xs ∈ sides, ∃ p ∈ s'.productions, p.lhs = s.symbols.size ∧ p.rhs = xs

theorem push_eq_ok {info : SymbolInfo} (h : push info s = .ok (x, s')) :
    x = s.symbols.size ∧ Added info [] s s' ∧ s'.anonymous = s.anonymous := by
  unfold push at h
  simp only at h
  split at h
  · obtain ⟨rfl, rfl⟩ := Prod.mk.inj (Except.ok.inj h)
    exact ⟨rfl, ⟨rfl, rfl, fun _ _ h => h, fun _ h => h, fun _ h => .inl h, by simp⟩, rfl⟩
  · contradiction

theorem helper_eq_ok {suffix : String} (h : helper suffix s = .ok (x, s')) :
    x = s.symbols.size ∧ ∃ name, Added ⟨name, false, false, .auxiliary⟩ [] s s' := by
  obtain ⟨counts, name, h⟩ := helper_run h
  obtain ⟨hx, hadded, -⟩ := push_eq_ok h
  exact ⟨hx, name, { hadded with }⟩

theorem labelSymbol_eq_ok {name : String} {named : Bool}
    (h : labelSymbol name named s = .ok (x, s')) :
    s = s' ∨ Added ⟨name, named, true, .label⟩ [] s s' := by
  rcases labelSymbol_run h with ⟨rfl, -⟩ | h
  · exact .inl rfl
  · exact .inr (push_eq_ok h).2.1

theorem addToken_eq_ok {key : TokenKey} {name : String} {named visible : Bool}
    (h : addToken key name named visible s = .ok (x, s')) :
    x = s.symbols.size ∧ Added ⟨name, named, visible, .terminal⟩ [] s s' ∧
      s'.anonymous = s.anonymous := by
  unfold addToken at h
  simp only [Stateful.bind_eq_ok, Stateful.modify_eq_ok, Stateful.pure_eq_ok] at h
  obtain ⟨y, s₁, hpush, u, s₂, rfl, rfl, rfl⟩ := h
  obtain ⟨hy, hadded, hsame⟩ := push_eq_ok hpush
  exact ⟨hy, { hadded with }, hsame⟩

/-- A new token is remembered without forgetting others. -/
theorem Added.remember {info : SymbolInfo} {key : TokenKey} (h : Added info [] s s')
    (hnew : s.anonymous.lookup key = none) (hsame : s'.anonymous = s.anonymous) (x : Symbol) :
    Added info [] s { s' with anonymous := (key, x) :: s'.anonymous } := by
  refine { h with anonymous := fun key' y hy => ?_ }
  have hne : key' ≠ key := by
    rintro rfl
    rw [hnew] at hy
    contradiction
  have hne : (key' == key) = false := by simpa using hne
  rw [hsame, List.lookup_cons, hne]
  exact hy

/-- A written token has a symbol, or gets a new one. -/
theorem anonymousToken_eq_ok {r : Rule} (h : anonymousToken r s = .ok (x, s')) :
    ∃ key, r.tokenKey = .ok key ∧ s'.anonymous.lookup key = some x ∧
      (s = s' ∨ x = s.symbols.size ∧ ∃ info, info.kind = .terminal ∧ Added info [] s s') := by
  unfold anonymousToken at h
  simp only [Stateful.bind_eq_ok, Stateful.lift_eq_ok, Stateful.get_eq_ok] at h
  obtain ⟨key, s₁, ⟨hkey, rfl⟩, t, s₂, ⟨rfl, rfl⟩, h⟩ := h
  refine ⟨key, hkey, ?_⟩
  cases hlook : s.anonymous.lookup key with
  | some y =>
    rw [hlook] at h
    obtain ⟨rfl, rfl⟩ := Stateful.pure_eq_ok.mp h
    exact ⟨hlook, .inl rfl⟩
  | none =>
    rw [hlook] at h
    cases hm : key.matcher with
    | literal text =>
      rw [hm] at h
      simp only [Stateful.bind_eq_ok, Stateful.modify_eq_ok, Stateful.pure_eq_ok] at h
      obtain ⟨y, s₁, hy, u, s₂, rfl, rfl, rfl⟩ := h
      obtain ⟨hsize, hadded, hsame⟩ := addToken_eq_ok hy
      exact ⟨by simp, .inr ⟨hsize, _, rfl, hadded.remember hlook hsame y⟩⟩
    | pattern source =>
      rw [hm] at h
      simp only [Stateful.bind_eq_ok, Stateful.modify_eq_ok, Stateful.pure_eq_ok,
        Stateful.get_eq_ok] at h
      obtain ⟨t, s₁, ⟨rfl, rfl⟩, u, s₂, rfl, y, s₃, hy, u', s₄, rfl, rfl, rfl⟩ := h
      obtain ⟨hsize, hadded, hsame⟩ := addToken_eq_ok hy
      have hadded : Added _ [] s s₃ := { hadded with }
      exact ⟨by simp, .inr ⟨hsize, _, rfl, hadded.remember hlook hsame y⟩⟩

/-- A new symbol gets the alternatives as its right-hand sides. -/
theorem Added.addProductions {info : SymbolInfo} {s₁ : Numbering} {u : Unit}
    (h : Added info [] s s₁) (ha : addProductions s.symbols.size as s₁ = .ok (u, s')) :
    Added info (as.map Alternative.rhs) s s' := by
  obtain rfl := addProductions_eq_ok ha
  refine ⟨h.symbols, h.named, h.anonymous, fun p hp => ?_, fun p hp => ?_, fun xs hxs => ?_⟩
  · exact mem_addProductions.mpr (.inl (h.kept p hp))
  · rcases mem_addProductions.mp hp with hp | ⟨a, hm, rfl⟩
    · exact .inl ((h.productions p hp).resolve_right (by simp))
    · exact .inr ⟨rfl, List.mem_map_of_mem hm⟩
  · obtain ⟨a, hm, rfl⟩ := List.mem_map.mp hxs
    exact ⟨_, mem_addProductions.mpr (.inr ⟨a, hm, rfl⟩), rfl, rfl⟩

/-- The symbol of a repetition is once more the body, or the body. -/
theorem repetition_eq_ok {orNone : Bool} (h : repetition orNone bs s = .ok (as, s')) :
    as = single s.symbols.size :: (if orNone then [{}] else []) ∧
      ∃ name, Added ⟨name, false, false, .auxiliary⟩
        (bs.flatMap fun b => [s.symbols.size :: b.rhs, b.rhs]) s s' := by
  obtain ⟨y, s₁, u, again, hy, hagain, hadd, rfl⟩ := repetition_run h
  obtain ⟨rfl, name, hadded⟩ := helper_eq_ok hy
  have hsides (b : Alternative) : (again b).rhs = s.symbols.size :: b.rhs := by
    unfold Alternative.rhs
    rw [hagain, List.map_cons]
  have hadded := hadded.addProductions hadd
  simp only [List.map_flatMap, List.map_cons, List.map_nil, hsides] at hadded
  exact ⟨rfl, name, hadded⟩

/-- Renaming keeps alternatives of one symbol, and makes a symbol for others. -/
theorem rename_eq_ok {label : Symbol} (h : rename label bs s = .ok (as, s')) :
    s = s' ∧ as.map Alternative.rhs = bs.map Alternative.rhs ∨
      as.map Alternative.rhs = [[s.symbols.size]] ∧
        ∃ name, Added ⟨name, false, false, .auxiliary⟩ (bs.map Alternative.rhs) s s' := by
  rcases rename_run h with ⟨rfl, rfl⟩ | ⟨y, s₁, u, hy, hadd, rfl⟩
  · exact .inl ⟨rfl, map_rhs_mapSteps fun _ => rfl⟩
  · obtain ⟨rfl, name, hadded⟩ := helper_eq_ok hy
    exact .inr ⟨rfl, name, hadded.addProductions hadd⟩

/-! ## Names and tokens -/

end Flatten

/-- Names and tokens keep their symbols, and no nonterminal is added. -/
structure Numbering.Keeps (s s' : Numbering) : Prop where
  grows : s.Grows s'
  named : s'.named = s.named
  anonymous : ∀ key x, s.anonymous.lookup key = some x → s'.anonymous.lookup key = some x
  productions : ∀ p ∈ s.productions, p ∈ s'.productions
  nonterminals : ∀ (x : Symbol) info, s'.symbols[x]? = some info → info.kind = .nonterminal →
    s.symbols[x]? = some info

namespace Numbering.Keeps

variable {s s' s'' : Numbering}

theorem refl (s : Numbering) : s.Keeps s :=
  ⟨.refl s, rfl, fun _ _ h => h, fun _ h => h, fun _ _ h _ => h⟩

theorem trans (h : s.Keeps s') (h' : s'.Keeps s'') : s.Keeps s'' where
  grows := h.grows.trans h'.grows
  named := h'.named.trans h.named
  anonymous := fun key x hx => h'.anonymous key x (h.anonymous key x hx)
  productions := fun p hp => h'.productions p (h.productions p hp)
  nonterminals := fun x info hx hk => h.nonterminals x info (h'.nonterminals x info hx hk) hk

theorem of_added {info : SymbolInfo} {sides : List (List Symbol)}
    (h : Flatten.Added info sides s s') (hk : info.kind ≠ .nonterminal) : s.Keeps s' where
  grows := by
    intro x i hi
    rw [h.symbols, Array.getElem?_push, if_neg (Nat.ne_of_lt (Array.getElem?_eq_some_iff.mp hi).1)]
    exact hi
  named := h.named
  anonymous := h.anonymous
  productions := h.kept
  nonterminals := by
    intro x i hi hkind
    rw [h.symbols, Array.getElem?_push] at hi
    split at hi
    · rw [Option.some.inj hi] at hk
      contradiction
    · exact hi

/-- What has a name stays a token or stays none. -/
theorem isLexical_eq (h : s.Keeps s') (hs : s.Sound) {name : String} {x : Symbol}
    (hx : s.lookup name = some x) : s'.isLexical x = s.isLexical x := by
  have hinfo : ∃ info, s.symbols[x]? = some info := by
    rcases lookup_spec hs hx with ⟨info, hi, -⟩ | ⟨info, hi, -⟩
    · exact ⟨info, hi⟩
    · exact ⟨info, hi⟩
  obtain ⟨info, hi⟩ := hinfo
  simp only [isLexical, hi, h.grows x info hi]

end Numbering.Keeps

namespace Flatten

/-- A computation that keeps names and tokens. -/
def Kept (m : Numbered (List Alternative)) : Prop :=
  ∀ {s s' : Numbering} {as : List Alternative}, m s = .ok (as, s') → s.Keeps s'

theorem repetition_keeps {orNone : Bool} {bs : List Alternative} : Kept (repetition orNone bs) := by
  intro s s' as h
  obtain ⟨-, name, hadded⟩ := repetition_eq_ok h
  exact .of_added hadded (by simp)

theorem rename_keeps {label : Symbol} {bs : List Alternative} : Kept (rename label bs) := by
  intro s s' as h
  rcases rename_eq_ok h with ⟨rfl, -⟩ | ⟨-, name, hadded⟩
  · exact .refl s
  · exact .of_added hadded (by simp)

mutual

theorem rule_keeps {g : Grammar} {expand : String → Numbered (List Alternative)}
    (he : ∀ name, Kept (expand name)) {s s' : Numbering} {as : List Alternative} :
    ∀ r : Rule, rule g expand r s = .ok (as, s') → s.Keeps s'
  | .node k a c ms, h => by
    cases k
    case blank =>
      obtain ⟨-, rfl⟩ := rule_blank h
      exact .refl s
    case string | pattern | token | immediateToken =>
      obtain ⟨x, hx, -⟩ := rule_token rfl h
      obtain ⟨key, -, -, rfl | ⟨-, info, hk, hadded⟩⟩ := anonymousToken_eq_ok hx
      · exact .refl s
      · exact .of_added hadded (by simp [hk])
    case symbol =>
      rcases rule_symbol h with ⟨-, h⟩ | ⟨-, x, -, -, rfl⟩
      · exact he _ h
      · exact .refl s
    case seq => exact sequence_keeps he ms (rule_seq h)
    case choice => exact alternatives_keeps he ms (rule_choice h)
    case zeroOrMore | oneOrMore =>
      obtain ⟨bs, s₁, hbs, h⟩ := rule_repetition (by simp) h
      exact (content_keeps he c hbs).trans (repetition_keeps h)
    case renamed =>
      obtain ⟨name, label, bs, s₁, s₂, hlabel, hbs, h⟩ := rule_renamed h
      have hrest := (content_keeps he c hbs).trans (rename_keeps h)
      rcases labelSymbol_eq_ok hlabel with rfl | hadded
      · exact hrest
      · exact (Numbering.Keeps.of_added hadded (by simp)).trans hrest
    all_goals
      obtain ⟨bs, fields, hbs, -⟩ := rule_wrapper rfl (by simp) h
      have hcontent := content_keeps he c hbs
      exact { hcontent with }

theorem content_keeps {g : Grammar} {expand : String → Numbered (List Alternative)}
    (he : ∀ name, Kept (expand name)) {s s' : Numbering} {as : List Alternative} {k : RuleKind} :
    ∀ c : Option Rule, content g expand k c s = .ok (as, s') → s.Keeps s'
  | none, h => (Stateful.throw_eq_ok.mp h).elim
  | some r, h => rule_keeps he r h

theorem alternatives_keeps {g : Grammar} {expand : String → Numbered (List Alternative)}
    (he : ∀ name, Kept (expand name)) {s s' : Numbering} {as : List Alternative} :
    ∀ ms : List Rule, alternatives g expand ms s = .ok (as, s') → s.Keeps s'
  | [], h => by
    obtain ⟨-, rfl⟩ := Stateful.pure_eq_ok.mp h
    exact .refl s
  | r :: rs, h => by
    obtain ⟨first, s₁, hfirst, h⟩ := Stateful.bind_eq_ok.mp h
    obtain ⟨others, s₂, hothers, h⟩ := Stateful.bind_eq_ok.mp h
    obtain ⟨-, rfl⟩ := Stateful.pure_eq_ok.mp h
    exact (rule_keeps he r hfirst).trans (alternatives_keeps he rs hothers)

theorem sequence_keeps {g : Grammar} {expand : String → Numbered (List Alternative)}
    (he : ∀ name, Kept (expand name)) {s s' : Numbering} {heads as : List Alternative} :
    ∀ ms : List Rule, sequence g expand heads ms s = .ok (as, s') → s.Keeps s'
  | [], h => by
    obtain ⟨-, rfl⟩ := Stateful.pure_eq_ok.mp h
    exact .refl s
  | r :: rs, h => by
    obtain ⟨tails, s₁, htails, h⟩ := Stateful.bind_eq_ok.mp h
    obtain ⟨both, s₂, hboth, h⟩ := Stateful.bind_eq_ok.mp h
    obtain ⟨-, rfl⟩ := cross_eq_ok hboth
    exact (rule_keeps he r htails).trans (sequence_keeps he rs h)

end

/-- The alternatives of a choice are those of its members. -/
theorem alternatives_of_mem {g : Grammar} {expand : String → Numbered (List Alternative)}
    (he : ∀ name, Kept (expand name)) {s s' : Numbering} {as : List Alternative} {m : Rule}
    {ms : List Rule} (hm : m ∈ ms) (h : alternatives g expand ms s = .ok (as, s')) :
    ∃ s₁ s₂ bs, rule g expand m s₁ = .ok (bs, s₂) ∧ s₂.Keeps s' ∧ ∀ b ∈ bs, b ∈ as := by
  induction ms generalizing s as with
  | nil => simp at hm
  | cons r rs ih =>
    obtain ⟨first, s₁, hfirst, h⟩ := Stateful.bind_eq_ok.mp h
    obtain ⟨others, s₂, hothers, h⟩ := Stateful.bind_eq_ok.mp h
    obtain ⟨rfl, rfl⟩ := Stateful.pure_eq_ok.mp h
    rcases List.mem_cons.mp hm with rfl | hm
    · exact ⟨s, s₁, first, hfirst, alternatives_keeps he rs hothers,
        fun b hb => List.mem_append_left others hb⟩
    · obtain ⟨t, t', bs, hrun, hkeeps, hbs⟩ := ih hm hothers
      exact ⟨t, t', bs, hrun, hkeeps, fun b hb => List.mem_append_right first (hbs b hb)⟩

theorem inlineBody_keeps (g : Grammar) (fuel : Nat) (entered : List String) (name : String) :
    Kept (inlineBody g fuel entered name) := by
  induction fuel generalizing entered name with
  | zero =>
    intro s s' as h
    obtain ⟨n, body, hn, -⟩ := inlineBody_eq_ok h
    contradiction
  | succ fuel ih =>
    intro s s' as h
    obtain ⟨n, body, hn, hr, h⟩ := inlineBody_eq_ok h
    obtain rfl := Nat.succ.inj hn
    exact rule_keeps (fun name => ih _ name) body h

theorem ruleOf_keeps (g : Grammar) (r : Rule) : Kept (ruleOf g r) :=
  fun h => rule_keeps (fun name => inlineBody_keeps g _ [] name) r h

end Flatten

end Glr
