import Glr.Proofs.FlatGrammar.Derives

/-!
# Glr.Proofs.FlatGrammar.Runs

What the runs of flattening do, kind by kind.  Every other proof about flattening goes by
these and does not look into the functions:

```
rule (.node k …) s = .ok (as, s')   →   what was run for the kind, and what was made of it
```
-/

namespace Glr

/-- The symbols of an alternative. -/
def Alternative.rhs (a : Alternative) : List Symbol := a.steps.map Step.symbol

/-- The symbols of an alternative with the labels that they are shown under. -/
def Alternative.shown (a : Alternative) : List (Symbol × Option Symbol) :=
  a.steps.map fun st => (st.symbol, st.label)

namespace Flatten

open Glr.Numbering

variable {s s' : Numbering} {as bs cs : List Alternative} {x : Symbol} {name : String}

theorem map_rhs_of_shown (h : as.map Alternative.shown = bs.map Alternative.shown) :
    as.map Alternative.rhs = bs.map Alternative.rhs := by
  have hrhs (a : Alternative) : a.rhs = a.shown.map Prod.fst := by
    unfold Alternative.rhs Alternative.shown
    rw [List.map_map]
    rfl
  have hmap (as : List Alternative) :
      as.map Alternative.rhs = (as.map Alternative.shown).map (List.map Prod.fst) := by
    rw [List.map_map]
    exact List.map_congr_left fun a _ => hrhs a
  rw [hmap as, hmap bs, h]

theorem shown_setPrecedence (level : Int) (associativity : Option Associativity)
    (a : Alternative) : (setPrecedence level associativity a).shown = a.shown := by
  unfold setPrecedence Alternative.shown
  rw [List.map_map]
  have hsteps (a : Alternative) : (if a.precedence.isNone then
      { a with precedence := some level, associativity } else a).steps = a.steps := by
    split <;> rfl
  rw [hsteps]
  refine List.map_congr_left fun st _ => ?_
  show (Step.symbol (if _ then _ else st), Step.label (if _ then _ else st)) = _
  split <;> rfl

theorem map_rhs_mapSteps {f : Step → Step} (hf : ∀ st, (f st).symbol = st.symbol) :
    (mapSteps f as).map Alternative.rhs = as.map Alternative.rhs := by
  rw [mapSteps, List.map_map]
  refine List.map_congr_left fun a _ => ?_
  show List.map _ (List.map _ _) = List.map _ _
  rw [List.map_map]
  exact List.map_congr_left fun st _ => hf st

/-! ## Symbols -/

theorem currentName_eq_ok (h : currentName s = .ok (name, s')) : s = s' := by
  unfold currentName at h
  obtain ⟨t, s₁, hget, h⟩ := Stateful.bind_eq_ok.mp h
  obtain ⟨rfl, rfl⟩ := Stateful.get_eq_ok.mp hget
  cases hi : s.symbols[s.currentRule.getD endSymbol]? with
  | none =>
    simp only [hi] at h
    exact (Stateful.throw_eq_ok.mp h).elim
  | some info =>
    simp only [hi] at h
    exact (Stateful.pure_eq_ok.mp h).2

theorem addProductions_eq_ok {u : Unit} (h : addProductions x as s = .ok (u, s')) :
    s' = { s with productions := s.productions ++ (as.eraseDups.map (production x)).toArray } :=
  (Stateful.modify_eq_ok.mp h).symm

theorem mem_addProductions {p : Production} :
    p ∈ s.productions ++ (as.eraseDups.map (production x)).toArray ↔
      p ∈ s.productions ∨ ∃ a ∈ as, production x a = p := by
  simp [List.mem_eraseDups]

/-- The number of a field leaves everything but the fields as it is. -/
theorem fieldId_eq_ok {id : FieldId} (h : fieldId name s = .ok (id, s')) :
    ∃ fields, s' = { s with fields } := by
  unfold fieldId at h
  obtain ⟨t, s₁, hget, h⟩ := Stateful.bind_eq_ok.mp h
  obtain ⟨rfl, rfl⟩ := Stateful.get_eq_ok.mp hget
  cases hi : s.fields.idxOf? name with
  | some i =>
    simp only [hi] at h
    obtain ⟨-, rfl⟩ := Stateful.pure_eq_ok.mp h
    exact ⟨s.fields, rfl⟩
  | none =>
    simp only [hi] at h
    split at h
    · obtain ⟨u, s₁, hset, h⟩ := Stateful.bind_eq_ok.mp h
      obtain rfl := Stateful.set_eq_ok.mp hset
      obtain ⟨-, rfl⟩ := Stateful.pure_eq_ok.mp h
      exact ⟨_, rfl⟩
    · exact (Stateful.throw_eq_ok.mp h).elim

/-- A label is a symbol that is there, or a new one. -/
theorem labelSymbol_run {named : Bool} (h : labelSymbol name named s = .ok (x, s')) :
    s = s' ∧ IsShown s.symbols x ∨ push ⟨name, named, true, .label⟩ s = .ok (x, s') := by
  unfold labelSymbol at h
  obtain ⟨t, s₁, hget, h⟩ := Stateful.bind_eq_ok.mp h
  obtain ⟨rfl, rfl⟩ := Stateful.get_eq_ok.mp hget
  generalize hy : s.symbols.findIdx? _ = found at h
  cases found with
  | some y =>
    obtain ⟨rfl, rfl⟩ := Stateful.pure_eq_ok.mp h
    obtain ⟨hlt, hy, -⟩ := Array.findIdx?_eq_some_iff_getElem.mp hy
    simp only [Bool.and_eq_true, bne_iff_ne, ne_eq] at hy
    exact .inl ⟨rfl, _, Array.getElem?_eq_getElem hlt, hy.1.2, hy.2⟩
  | none => exact .inr h

theorem helper_run {suffix : String} (h : helper suffix s = .ok (x, s')) :
    ∃ helperCounts name, push ⟨name, false, false, .auxiliary⟩ { s with helperCounts } = .ok (x, s') := by
  unfold helper at h
  obtain ⟨t, s₁, hget, h⟩ := Stateful.bind_eq_ok.mp h
  obtain ⟨rfl, rfl⟩ := Stateful.get_eq_ok.mp hget
  obtain ⟨u, s₁, hset, h⟩ := Stateful.bind_eq_ok.mp h
  obtain rfl := Stateful.set_eq_ok.mp hset
  obtain ⟨name, s₂, hname, h⟩ := Stateful.bind_eq_ok.mp h
  obtain rfl := currentName_eq_ok hname
  exact ⟨_, _, h⟩

/-! ## Alternatives -/

theorem cross_eq_ok (h : cross as bs s = .ok (cs, s')) :
    cs = as.flatMap (fun a => bs.map (append a)) ∧ s = s' := by
  unfold cross at h
  split at h
  · obtain ⟨name, s₁, -, h⟩ := Stateful.bind_eq_ok.mp h
    obtain ⟨u, s₂, h, -⟩ := Stateful.bind_eq_ok.mp h
    exact (Stateful.throw_eq_ok.mp h).elim
  · obtain ⟨rfl, rfl⟩ := Stateful.pure_eq_ok.mp h
    exact ⟨rfl, rfl⟩

/-- A repetition is a new symbol, which is once more the body, or the body. -/
theorem repetition_run {orNone : Bool} (h : repetition orNone bs s = .ok (as, s')) :
    ∃ (y : Symbol) (s₁ : Numbering) (u : Unit) (again : Alternative → Alternative),
      helper "repeat" s = .ok (y, s₁) ∧
      (∀ b : Alternative, (again b).steps = { symbol := y } :: b.steps) ∧
      addProductions y (bs.flatMap fun b => [again b, b]) s₁ = .ok (u, s') ∧
      as = single y :: (if orNone then [{}] else []) := by
  unfold repetition at h
  obtain ⟨y, s₁, hy, h⟩ := Stateful.bind_eq_ok.mp h
  obtain ⟨u, s₂, hadd, h⟩ := Stateful.bind_eq_ok.mp h
  obtain ⟨rfl, rfl⟩ := Stateful.pure_eq_ok.mp h
  exact ⟨y, s₁, u, _, hy, fun _ => rfl, hadd, rfl⟩

/-- Renaming gives labels to alternatives of one symbol, and makes a symbol for others. -/
theorem rename_run {label : Symbol} (h : rename label bs s = .ok (as, s')) :
    s = s' ∧ as = mapSteps (fun st => { st with label := some (st.label.getD label) }) bs ∨
      ∃ y s₁ u, helper "alias" s = .ok (y, s₁) ∧ addProductions y bs s₁ = .ok (u, s') ∧
        as = [{ steps := [{ symbol := y, label := some label }] }] := by
  unfold rename at h
  split at h
  · obtain ⟨rfl, rfl⟩ := Stateful.pure_eq_ok.mp h
    exact .inl ⟨rfl, rfl⟩
  · obtain ⟨y, s₁, hy, h⟩ := Stateful.bind_eq_ok.mp h
    obtain ⟨u, s₂, hadd, h⟩ := Stateful.bind_eq_ok.mp h
    obtain ⟨rfl, rfl⟩ := Stateful.pure_eq_ok.mp h
    exact .inr ⟨y, s₁, u, hy, hadd, rfl⟩

/-! ## One kind -/

variable {g : Grammar} {expand : String → Numbered (List Alternative)} {k : RuleKind}
  {a : RuleAttributes} {c : Option Rule} {ms : List Rule}

theorem exists_content (h : content g expand k c s = .ok (as, s')) : ∃ r, c = some r := by
  cases c with
  | none => exact (Stateful.throw_eq_ok.mp h).elim
  | some r => exact ⟨r, rfl⟩

theorem rule_blank (h : rule g expand (.node .blank a c ms) s = .ok (as, s')) :
    as = [{}] ∧ s = s' := by
  unfold rule at h
  obtain ⟨rfl, rfl⟩ := Stateful.pure_eq_ok.mp h
  exact ⟨rfl, rfl⟩

theorem rule_token (hk : k.isTerminal = true)
    (h : rule g expand (.node k a c ms) s = .ok (as, s')) :
    ∃ x, anonymousToken (.node k a c ms) s = .ok (x, s') ∧ as = [single x] := by
  unfold rule at h
  cases k
  case string | pattern | token | immediateToken =>
    obtain ⟨x, s₁, hx, h⟩ := Stateful.bind_eq_ok.mp h
    obtain ⟨rfl, rfl⟩ := Stateful.pure_eq_ok.mp h
    exact ⟨x, hx, rfl⟩
  all_goals contradiction

theorem rule_symbol (h : rule g expand (.node .symbol a c ms) s = .ok (as, s')) :
    g.inlines (a.name.getD "") = true ∧ expand (a.name.getD "") s = .ok (as, s') ∨
      g.inlines (a.name.getD "") = false ∧
        ∃ x, s.lookup (a.name.getD "") = some x ∧ as = [single x] ∧ s = s' := by
  unfold rule at h
  simp only at h
  split at h
  · rename_i hi
    exact .inl ⟨hi, h⟩
  · rename_i hi
    refine .inr ⟨by simpa [Grammar.inlines] using hi, ?_⟩
    obtain ⟨t, s₁, hget, h⟩ := Stateful.bind_eq_ok.mp h
    obtain ⟨rfl, rfl⟩ := Stateful.get_eq_ok.mp hget
    cases hlook : s.lookup (a.name.getD "") with
    | none =>
      simp only [hlook] at h
      exact (Stateful.throw_eq_ok.mp h).elim
    | some x =>
      simp only [hlook] at h
      obtain ⟨rfl, rfl⟩ := Stateful.pure_eq_ok.mp h
      exact ⟨x, rfl, rfl, rfl⟩

theorem rule_seq (h : rule g expand (.node .seq a c ms) s = .ok (as, s')) :
    sequence g expand [{}] ms s = .ok (as, s') := by
  unfold rule at h
  exact h

theorem rule_choice (h : rule g expand (.node .choice a c ms) s = .ok (as, s')) :
    alternatives g expand ms s = .ok (as, s') := by
  unfold rule at h
  obtain ⟨bs, s₁, hbs, h⟩ := Stateful.bind_eq_ok.mp h
  split at h
  · obtain ⟨name, s₂, -, h⟩ := Stateful.bind_eq_ok.mp h
    obtain ⟨u, s₃, h, -⟩ := Stateful.bind_eq_ok.mp h
    exact (Stateful.throw_eq_ok.mp h).elim
  · obtain ⟨rfl, rfl⟩ := Stateful.pure_eq_ok.mp h
    exact hbs

/-- Both kinds of repetitions differ in whether there can be none. -/
theorem rule_repetition (hk : k = .zeroOrMore ∨ k = .oneOrMore)
    (h : rule g expand (.node k a c ms) s = .ok (as, s')) :
    ∃ bs s₁, content g expand k c s = .ok (bs, s₁) ∧
      repetition (k == .zeroOrMore) bs s₁ = .ok (as, s') := by
  unfold rule at h
  rcases hk with rfl | rfl
  · obtain ⟨bs, s₁, hbs, h⟩ := Stateful.bind_eq_ok.mp h
    exact ⟨bs, s₁, hbs, h⟩
  · obtain ⟨bs, s₁, hbs, h⟩ := Stateful.bind_eq_ok.mp h
    exact ⟨bs, s₁, hbs, h⟩

/-- Renaming flattens the content after finding a label. -/
theorem rule_renamed (h : rule g expand (.node .renamed a c ms) s = .ok (as, s')) :
    ∃ name label bs s₁ s₂, labelSymbol name (a.named.getD false) s = .ok (label, s₁) ∧
      content g expand .renamed c s₁ = .ok (bs, s₂) ∧ rename label bs s₂ = .ok (as, s') := by
  unfold rule at h
  obtain ⟨name, s₁, hname, h⟩ := Stateful.bind_eq_ok.mp h
  obtain ⟨-, rfl⟩ := Stateful.lift_eq_ok.mp hname
  obtain ⟨label, s₁, hlabel, h⟩ := Stateful.bind_eq_ok.mp h
  obtain ⟨bs, s₂, hbs, h⟩ := Stateful.bind_eq_ok.mp h
  exact ⟨name, label, bs, s₁, s₂, hlabel, hbs, h⟩

/-- The other kinds around a rule keep the symbols and labels of its alternatives. -/
theorem rule_wrapper (hk : k.isWrapper = true) (hne : k ≠ .renamed)
    (h : rule g expand (.node k a c ms) s = .ok (as, s')) :
    ∃ bs fields, content g expand k c { s with fields } = .ok (bs, s') ∧
      as.map Alternative.shown = bs.map Alternative.shown := by
  unfold rule at h
  cases k
  case prec | precLeft | precRight =>
    obtain ⟨level, s₁, hlevel, h⟩ := Stateful.bind_eq_ok.mp h
    obtain ⟨-, rfl⟩ := Stateful.lift_eq_ok.mp hlevel
    obtain ⟨bs, s₁, hbs, h⟩ := Stateful.bind_eq_ok.mp h
    obtain ⟨rfl, rfl⟩ := Stateful.pure_eq_ok.mp h
    refine ⟨bs, s.fields, hbs, ?_⟩
    rw [List.map_map]
    exact List.map_congr_left fun b _ => shown_setPrecedence _ _ b
  case precDynamic =>
    obtain ⟨level, s₁, hlevel, h⟩ := Stateful.bind_eq_ok.mp h
    obtain ⟨-, rfl⟩ := Stateful.lift_eq_ok.mp hlevel
    obtain ⟨bs, s₁, hbs, h⟩ := Stateful.bind_eq_ok.mp h
    obtain ⟨rfl, rfl⟩ := Stateful.pure_eq_ok.mp h
    refine ⟨bs, s.fields, hbs, ?_⟩
    rw [List.map_map]
    refine List.map_congr_left fun b _ => ?_
    show Alternative.shown (if _ then _ else b) = _
    split <;> rfl
  case field =>
    cases hn : a.name with
    | none =>
      simp only [hn] at h
      exact (Stateful.throw_eq_ok.mp h).elim
    | some name =>
      simp only [hn] at h
      obtain ⟨id, s₁, hid, h⟩ := Stateful.bind_eq_ok.mp h
      obtain ⟨bs, s₂, hbs, h⟩ := Stateful.bind_eq_ok.mp h
      obtain ⟨rfl, rfl⟩ := Stateful.pure_eq_ok.mp h
      obtain ⟨fields, rfl⟩ := fieldId_eq_ok hid
      refine ⟨bs, fields, hbs, ?_⟩
      rw [mapSteps, List.map_map]
      refine List.map_congr_left fun b _ => ?_
      show List.map _ (List.map _ _) = List.map _ _
      rw [List.map_map]
      rfl
  case reserved => exact ⟨as, s.fields, h, rfl⟩
  all_goals contradiction

/-! ## Rules of a grammar -/

/-- Expanding a rule that is declared inline flattens its body. -/
theorem inlineBody_eq_ok {fuel : Nat} {entered : List String}
    (h : inlineBody g fuel entered name s = .ok (as, s')) :
    ∃ n body, fuel = n + 1 ∧ g.rules.get? name = some body ∧
      rule g (inlineBody g n (name :: entered)) body s = .ok (as, s') := by
  unfold inlineBody at h
  split at h
  · exact (Stateful.throw_eq_ok.mp h).elim
  · cases hr : g.rules.get? name with
    | none =>
      simp only [hr] at h
      exact (Stateful.throw_eq_ok.mp h).elim
    | some body =>
      simp only [hr] at h
      cases fuel with
      | zero => exact (Stateful.throw_eq_ok.mp h).elim
      | succ n => exact ⟨n, body, rfl, rfl, h⟩

/-- A rule with a symbol of its own is flattened, and gives the symbol its productions. -/
theorem rules_cons {r : Rule} {rest : List (String × Rule)} {u : Unit}
    (h : rules g ((name, r) :: rest) s = .ok (u, s')) :
    (∀ x, s.lookup name = some x → s.isLexical x = true) ∧ rules g rest s = .ok (u, s') ∨
      ∃ x as s₁, s.lookup name = some x ∧ s.isLexical x = false ∧
        ruleOf g r { s with currentRule := some x } = .ok (as, s₁) ∧
        rules g rest { s₁ with
          productions := s₁.productions ++ (as.eraseDups.map (production x)).toArray } =
            .ok (u, s') := by
  unfold rules at h
  obtain ⟨t, s₁, hget, h⟩ := Stateful.bind_eq_ok.mp h
  obtain ⟨rfl, rfl⟩ := Stateful.get_eq_ok.mp hget
  cases hlook : s.lookup name with
  | none =>
    simp only [hlook] at h
    exact .inl ⟨by simp, h⟩
  | some x =>
    simp only [hlook] at h
    cases hx : s.isLexical x with
    | true =>
      simp only [hx] at h
      exact .inl ⟨by simpa using hx, h⟩
    | false =>
      simp only [hx, Bool.false_eq_true, if_false] at h
      obtain ⟨u₁, s₁, hset, h⟩ := Stateful.bind_eq_ok.mp h
      obtain rfl := Stateful.set_eq_ok.mp hset
      obtain ⟨as, s₂, has, h⟩ := Stateful.bind_eq_ok.mp h
      obtain ⟨u₂, s₃, hadd, h⟩ := Stateful.bind_eq_ok.mp h
      obtain rfl := addProductions_eq_ok hadd
      exact .inr ⟨x, as, s₂, rfl, hx, has, h⟩

end Flatten

end Glr
