import Glr.Proofs.FlatGrammar.Lowering

/-!
# Glr.Proofs.FlatGrammar.Titled

Names and nonterminals before the rules are flattened.  Externals, tokens and extras come
first and add neither a nonterminal nor a production.  Then every nonterminal is numbered
together with its name, and the name is that of a rule:

```
externals, tokens, extras    no nonterminal          Bare
nonterminals                 name ↔ nonterminal      Titled
```
-/

namespace Glr

/-! ## What a computation leaves true -/

/-- A computation that leaves `I` true. -/
def Numbered.Leaves {α : Type} (I : Numbering → Prop) (m : Numbered α) : Prop :=
  ∀ s s' a, m s = .ok (a, s') → I s → I s'

namespace Numbered.Leaves

open Stateful

variable {α β : Type} {I : Numbering → Prop}

theorem pure (a : α) : Leaves I (Pure.pure a : Numbered α) := by
  intro s s' b h hs
  obtain ⟨-, rfl⟩ := pure_eq_ok.mp h
  exact hs

theorem throw (e : GenerateError) : Leaves I (MonadExcept.throw e : Numbered α) := by
  intro s s' b h
  exact (throw_eq_ok.mp h).elim

theorem get : Leaves I (MonadState.get : Numbered Numbering) := by
  intro s s' t h hs
  obtain ⟨-, rfl⟩ := get_eq_ok.mp h
  exact hs

theorem lift (x : Except GenerateError α) : Leaves I (liftM x : Numbered α) := by
  intro s s' a h hs
  obtain ⟨-, rfl⟩ := lift_eq_ok.mp h
  exact hs

theorem bind {m : Numbered α} {k : α → Numbered β} (hm : Leaves I m)
    (hk : ∀ a, Leaves I (k a)) : Leaves I (m >>= k) := by
  intro s s' b h hs
  obtain ⟨a, s₁, ha, h⟩ := bind_eq_ok.mp h
  exact hk a s₁ s' b h (hm s s₁ a ha hs)

theorem mapM {f : α → Numbered β} (hf : ∀ a, Leaves I (f a)) (as : List α) :
    Leaves I (as.mapM f) := by
  induction as with
  | nil => exact pure []
  | cons a as ih =>
    rw [List.mapM_cons]
    exact (hf a).bind fun _ => ih.bind fun _ => pure _

end Numbered.Leaves

/-! ## Tokens -/

namespace Numbering

open Numbered Stateful

/-- There are neither nonterminals nor productions. -/
structure Bare (s : Numbering) : Prop where
  symbols : ∀ (x : Symbol) info, s.symbols[x]? = some info → info.kind ≠ .nonterminal
  productions : ∀ p, p ∉ s.productions

variable {g : Grammar} {s s' : Numbering} {x : Symbol}

theorem initial_bare : initial.Bare where
  symbols := by
    intro x info h
    obtain ⟨-, rfl⟩ := Array.getElem?_eq_some_iff.mp h
    simp [initial]
  productions := by simp [initial]

theorem Bare.of_added {info : SymbolInfo} (hs : s.Bare) (h : Flatten.Added info [] s s')
    (hk : info.kind ≠ .nonterminal) : s'.Bare where
  symbols := by
    intro x i hi
    rw [h.symbols, Array.getElem?_push] at hi
    split at hi
    · rwa [← Option.some.inj hi]
    · exact hs.symbols x i hi
  productions := by
    intro p hp
    rcases h.productions p hp with hp | ⟨-, hp⟩
    · exact hs.productions p hp
    · simp at hp

theorem bindName_leaves {name : String} : Leaves Bare (bindName name x) := by
  intro s s' u h hs
  obtain rfl := modify_eq_ok.mp h
  exact { hs with }

theorem push_leaves {info : SymbolInfo} (hk : info.kind ≠ .nonterminal) :
    Leaves Bare (push info) := fun _ _ _ h hs => hs.of_added (Flatten.push_eq_ok h).2.1 hk

theorem addToken_leaves {key : TokenKey} {name : String} {named visible : Bool} :
    Leaves Bare (addToken key name named visible) :=
  fun _ _ _ h hs => hs.of_added (Flatten.addToken_eq_ok h).2.1 (by simp)

theorem anonymousToken_leaves {r : Rule} : Leaves Bare (anonymousToken r) := by
  intro s s' x h hs
  obtain ⟨key, -, -, rfl | ⟨-, info, hk, hadded⟩⟩ := Flatten.anonymousToken_eq_ok h
  · exact hs
  · exact hs.of_added hadded (by simp [hk])

theorem namedToken_leaves {name : String} : Leaves Bare (namedToken g name) := by
  refine .bind .get fun s => ?_
  split
  · exact .pure _
  · split
    · exact .throw _
    · exact .bind (.lift _) fun _ => addToken_leaves.bind fun _ => bindName_leaves.bind fun _ => .pure _

theorem externals_leaves (rs : List Rule) : Leaves Bare (externals rs) := by
  induction rs with
  | nil => exact .pure []
  | cons r rs ih =>
    have hrest (name : String) (named : Bool) : Leaves Bare (do
        let symbol ← push ⟨name, named, !(named && isHiddenName name), .external⟩
        if named then bindName name symbol
        return symbol :: (← externals rs)) := by
      refine (push_leaves (by simp)).bind fun x => ?_
      cases named with
      | true => exact bindName_leaves.bind fun _ => ih.bind fun _ => .pure _
      | false => exact ih.bind fun _ => .pure _
    unfold externals
    cases r.kind
    case symbol => exact .bind (.pure _) fun p => hrest p.1 p.2
    case string => exact .bind (.lift _) fun p => hrest p.1 p.2
    all_goals exact .bind (.throw _) fun p => hrest p.1 p.2

mutual

theorem ruleTokens_leaves : ∀ r : Rule, Leaves Bare (ruleTokens g r)
  | .node k a c ms => by
    unfold ruleTokens
    cases k
    case string | pattern | token | immediateToken =>
      exact anonymousToken_leaves.bind fun _ => .pure _
    case symbol =>
      cases a.name with
      | none => exact .pure _
      | some name =>
        simp only
        split
        · exact namedToken_leaves.bind fun _ => .pure _
        · exact .pure _
    all_goals exact (contentTokens_leaves c).bind fun _ => memberTokens_leaves ms

theorem contentTokens_leaves : ∀ c : Option Rule, Leaves Bare (contentTokens g c)
  | none => .pure _
  | some r => ruleTokens_leaves r

theorem memberTokens_leaves : ∀ ms : List Rule, Leaves Bare (memberTokens g ms)
  | [] => .pure _
  | r :: rs => (ruleTokens_leaves r).bind fun _ => memberTokens_leaves rs

end

theorem tokens_leaves (entries : List (String × Rule)) : Leaves Bare (tokens g entries) := by
  induction entries with
  | nil => exact .pure _
  | cons e rest ih =>
    refine .bind .get fun s => ?_
    split
    · split
      · exact namedToken_leaves.bind fun _ => ih
      · exact (ruleTokens_leaves e.2).bind fun _ => ih
    · exact ih

theorem extra_leaves (r : Rule) : Leaves Bare (extra g r) := by
  have hnamed (name : String) : Leaves Bare (if isTokenRule g name then namedToken g name
      else throw (.nonTokenExtra name)) := by
    split
    · exact namedToken_leaves
    · exact .throw _
  unfold extra
  split
  · refine .bind .get fun s => ?_
    split
    · split
      · exact .pure _
      · exact hnamed _
    · exact hnamed _
  · split
    · exact anonymousToken_leaves
    · exact .throw _

/-! ## Nonterminals -/

/-- Nonterminals and names of rules without a token belong to each other. -/
structure Titled (g : Grammar) (s : Numbering) : Prop where
  nonterminal : ∀ (x : Symbol) info, s.symbols[x]? = some info → info.kind = .nonterminal →
    s.lookup info.name = some x ∧ ∃ r, g.rules.get? info.name = some r
  named : ∀ name x, s.lookup name = some x →
    IsToken s.symbols x ∨ ∃ info, s.symbols[x]? = some info ∧ info.kind = .nonterminal ∧
      info.name = name
  productions : ∀ p, p ∉ s.productions

theorem Bare.titled (hs : s.Bare) (hl : s.Lexical) : s.Titled g where
  nonterminal := fun x info hx hk => absurd hk (hs.symbols x info hx)
  named := fun name x hx => .inl (hl (name, x) (mem_of_lookup hx))
  productions := hs.productions

/-- A new nonterminal gets a name that no other symbol has. -/
theorem Titled.push (hs : s.Titled g) {info : SymbolInfo} {r : Rule}
    (h : Flatten.Added info [] s s') (hk : info.kind = .nonterminal)
    (hnew : s.lookup info.name = none) (hr : g.rules.get? info.name = some r) :
    Titled g { s' with named := (info.name, s.symbols.size) :: s'.named } := by
  have hlook (name : String) : Numbering.lookup
      { s' with named := (info.name, s.symbols.size) :: s'.named } name =
        if name = info.name then some s.symbols.size else s.lookup name := by
    unfold Numbering.lookup
    simp only [List.lookup_cons, h.named]
    split <;> simp_all
  have hold (x : Symbol) (i : SymbolInfo) (hi : s.symbols[x]? = some i) : s'.symbols[x]? = some i := by
    rw [h.symbols, Array.getElem?_push, if_neg (Nat.ne_of_lt (Array.getElem?_eq_some_iff.mp hi).1)]
    exact hi
  refine ⟨fun x i hi hik => ?_, fun name x hx => ?_, fun p hp => ?_⟩
  · rw [hlook]
    rw [h.symbols, Array.getElem?_push] at hi
    split at hi
    · rename_i hx
      obtain rfl := Option.some.inj hi
      exact ⟨by rw [if_pos rfl, hx], r, hr⟩
    · obtain ⟨hx, hrule⟩ := hs.nonterminal x i hi hik
      have hne : i.name ≠ info.name := by
        intro he
        rw [he, hnew] at hx
        contradiction
      exact ⟨by rwa [if_neg hne], hrule⟩
  · rw [hlook] at hx
    split at hx
    · rename_i he
      obtain rfl := Option.some.inj hx
      refine .inr ⟨info, ?_, hk, he.symm⟩
      simp [h.symbols]
    · rcases hs.named name x hx with ⟨i, hi, hik⟩ | ⟨i, hi, hik⟩
      · exact .inl ⟨i, hold x i hi, hik⟩
      · exact .inr ⟨i, hold x i hi, hik⟩
  · rcases h.productions p hp with hp | ⟨-, hp⟩
    · exact hs.productions p hp
    · simp at hp

theorem nonterminals_titled {start : String} {names : List String} {u : Unit}
    (hnames : ∀ name ∈ names, ∃ r, g.rules.get? name = some r) (hs : s.Titled g)
    (h : nonterminals g start names s = .ok (u, s')) : s'.Titled g := by
  induction names generalizing s with
  | nil =>
    obtain ⟨-, rfl⟩ := Stateful.pure_eq_ok.mp h
    exact hs
  | cons name rest ih =>
    obtain ⟨⟨r, hr⟩, hrest⟩ := List.forall_mem_cons.mp hnames
    unfold nonterminals at h
    obtain ⟨t, s₁, hget, h⟩ := Stateful.bind_eq_ok.mp h
    obtain ⟨rfl, rfl⟩ := Stateful.get_eq_ok.mp hget
    split at h
    · exact ih hrest hs h
    · rename_i hnew
      obtain ⟨x, s₁, hpush, h⟩ := Stateful.bind_eq_ok.mp h
      obtain ⟨v, s₂, hbind, h⟩ := Stateful.bind_eq_ok.mp h
      obtain ⟨rfl, hadded, -⟩ := Flatten.push_eq_ok hpush
      obtain rfl := Stateful.modify_eq_ok.mp hbind
      have hlook : s.lookup name = none := by
        cases hl : s.lookup name <;> simp_all
      exact ih hrest (hs.push hadded rfl hlook hr) h

end Numbering

end Glr
