import Glr.Proofs.FlatGrammar.Meaning

/-!
# Glr.Proofs.FlatGrammar.Safe

What numbering and flattening keep, step by step, and that they are never given up.  The one
index that is looked up is that of the rule being flattened, which is there: symbols are only
added, and the rules set it to the symbol of a name.  New productions are for new symbols,
until a rule gets its own.
-/

namespace Glr

/-- What holds of a numbering at any time: the rule being flattened has a symbol, and the tokens
that are known by their text have it as their name.  Of the first `n` symbols there are no
productions but some that are known. -/
structure Numbering.Proper (n : Nat) (Known : Production → Prop) (s : Numbering) : Prop where
  current : s.currentRule.getD endSymbol < s.symbols.size
  literals : ∀ key x text, (key, x) ∈ s.anonymous → key.matcher = .literal text →
    ∃ info, s.symbols[x]? = some info ∧ info.name = text
  size_le : n ≤ s.symbols.size
  productions : ∀ p ∈ s.productions, p.lhs < n → Known p

namespace GenerateError

variable {α β : Type}

theorem map_ne_panic {x : Except GenerateError α} {f : α → β} (hx : x ≠ .error .panic) :
    x.map f ≠ .error .panic := by
  cases x with
  | error e => exact fun h => hx (congrArg Except.error (Except.error.inj h))
  | ok a => exact fun h => by cases h

theorem mapM_ne_panic {f : α → Except GenerateError β} (hf : ∀ a, f a ≠ .error .panic)
    (as : List α) : as.mapM f ≠ .error .panic := by
  induction as with
  | nil => exact fun h => by cases h
  | cons a as ih =>
    rw [List.mapM_cons]
    intro h
    cases ha : f a with
    | error e =>
      rw [ha] at h
      exact hf a (ha.trans (congrArg Except.error (Except.error.inj h)))
    | ok b =>
      rw [ha] at h
      cases has : as.mapM f with
      | error e =>
        rw [has] at h
        exact ih (has.trans (congrArg Except.error (Except.error.inj h)))
      | ok bs =>
        rw [has] at h
        cases h

end GenerateError

/-- A computation that finds what it looks up, and keeps what holds at any time. -/
structure Numbered.Safe (n : Nat) (Known : Production → Prop) {α : Type} (m : Numbered α) :
    Prop where
  finds : ∀ s, s.Proper n Known → m s ≠ .error .panic
  keeps : ∀ s s' a, m s = .ok (a, s') → s.Proper n Known → s'.Proper n Known

namespace Numbered

open Stateful

variable {α β : Type} {s : Numbering} {n : Nat} {Known : Production → Prop}

theorem bind_eq_error {m : Numbered α} {f : α → Numbered β} {e : GenerateError}
    (h : (m >>= f) s = .error e) :
    m s = .error e ∨ ∃ a s', m s = .ok (a, s') ∧ f a s' = .error e := by
  change (m s >>= fun p => f p.1 p.2) = .error e at h
  cases hm : m s with
  | error e' =>
    rw [hm] at h
    exact .inl (congrArg Except.error (Except.error.inj h))
  | ok p =>
    rw [hm] at h
    exact .inr ⟨p.1, p.2, rfl, h⟩

theorem lift_ne_panic {x : Except GenerateError α} (hx : x ≠ .error .panic) :
    (liftM x : Numbered α) s ≠ .error .panic := by
  cases x with
  | error e =>
    intro h
    have he : e = .panic := Except.error.inj h
    exact hx (congrArg Except.error he)
  | ok a => exact fun h => by cases h

namespace Safe

theorem pure (a : α) : Safe n Known (Pure.pure a : Numbered α) where
  finds := fun _ _ h => by cases h
  keeps := fun s s' b h hs => (pure_eq_ok.mp h).2 ▸ hs

theorem throw {e : GenerateError} (he : e ≠ .panic) :
    Safe n Known (MonadExcept.throw e : Numbered α) where
  finds := fun _ _ h => he (Except.error.inj h)
  keeps := fun _ _ _ h => (throw_eq_ok.mp h).elim

theorem get : Safe n Known (MonadState.get : Numbered Numbering) where
  finds := fun _ _ h => by cases h
  keeps := fun s s' t h hs => (get_eq_ok.mp h).2 ▸ hs

theorem update {f : Numbering → Numbering} (hf : ∀ s, s.Proper n Known → (f s).Proper n Known) :
    Safe n Known (modify f : Numbered PUnit) where
  finds := fun _ _ h => by cases h
  keeps := fun s s' u h hs => modify_eq_ok.mp h ▸ hf s hs

theorem lift {x : Except GenerateError α} (hx : x ≠ .error .panic) :
    Safe n Known (liftM x : Numbered α) where
  finds := fun _ _ => lift_ne_panic hx
  keeps := fun _ _ _ h hs => (lift_eq_ok.mp h).2 ▸ hs

/-- What comes next may rely on what the first computation answers. -/
theorem bind_of {Q : α → Prop} {m : Numbered α} {k : α → Numbered β} (hm : Safe n Known m)
    (hQ : ∀ s s' a, s.Proper n Known → m s = .ok (a, s') → Q a)
    (hk : ∀ a, Q a → Safe n Known (k a)) : Safe n Known (m >>= k) where
  finds := fun s hs h => by
    rcases bind_eq_error h with h | ⟨a, s₁, ha, h⟩
    · exact hm.finds s hs h
    · exact (hk a (hQ s s₁ a hs ha)).finds s₁ (hm.keeps s s₁ a ha hs) h
  keeps := fun s s' b h hs => by
    obtain ⟨a, s₁, ha, h⟩ := bind_eq_ok.mp h
    exact (hk a (hQ s s₁ a hs ha)).keeps s₁ s' b h (hm.keeps s s₁ a ha hs)

theorem bind {m : Numbered α} {k : α → Numbered β} (hm : Safe n Known m)
    (hk : ∀ a, Safe n Known (k a)) : Safe n Known (m >>= k) :=
  hm.bind_of (Q := fun _ => True) (fun _ _ _ _ _ => trivial) fun a _ => hk a

/-- What runs with the state that it starts in. -/
theorem of_get {f : Numbering → Numbered α} (hf : ∀ t, t.Proper n Known → Safe n Known (f t)) :
    Safe n Known (MonadState.get >>= f) where
  finds := fun s hs h => (hf s hs).finds s hs h
  keeps := fun s s' a h hs => (hf s hs).keeps s s' a h hs

theorem mapM {f : α → Numbered β} (hf : ∀ a, Safe n Known (f a)) (as : List α) :
    Safe n Known (as.mapM f) := by
  induction as with
  | nil => exact pure []
  | cons a as ih =>
    rw [List.mapM_cons]
    exact (hf a).bind fun _ => ih.bind fun _ => pure _

end Safe

end Numbered

/-! ## Token rules -/

namespace Rule

open GenerateError

theorem requireText_ne_panic (r : Rule) : r.requireText ≠ .error .panic := by
  unfold requireText
  split <;> simp

mutual

theorem toRegex_ne_panic (precedence : Int) : ∀ r : Rule, toRegex precedence r ≠ .error .panic
  | .node k a c ms => by
    unfold toRegex
    cases k
    case string => exact map_ne_panic (requireText_ne_panic _)
    case pattern => exact map_ne_panic (map_ne_panic (requireText_ne_panic _))
    case seq | choice => exact map_ne_panic (regexList_ne_panic precedence ms)
    case zeroOrMore | oneOrMore => exact map_ne_panic (regexContent_ne_panic precedence _ c)
    case prec | precLeft | precRight | token | immediateToken | reserved =>
      exact regexContent_ne_panic _ _ c
    all_goals simp

theorem regexContent_ne_panic (precedence : Int) (k : RuleKind) :
    ∀ c : Option Rule, regexContent precedence k c ≠ .error .panic
  | none => by simp [regexContent]
  | some r => toRegex_ne_panic precedence r

theorem regexList_ne_panic (precedence : Int) :
    ∀ ms : List Rule, regexList precedence ms ≠ .error .panic
  | [] => by simp [regexList]
  | r :: rs => by
    have hr := toRegex_ne_panic precedence r
    unfold regexList
    split
    · rename_i e he
      rw [he] at hr
      exact fun h => hr (congrArg Except.error (Except.error.inj h))
    · exact map_ne_panic (regexList_ne_panic _ rs)

end

mutual

theorem toMatcher_ne_panic (precedence : Int) :
    ∀ r : Rule, toMatcher precedence r ≠ .error .panic
  | .node k a c ms => by
    unfold toMatcher
    cases k
    case string => exact map_ne_panic (requireText_ne_panic _)
    case token | immediateToken | prec | precLeft | precRight =>
      exact matcherContent_ne_panic _ _ c
    all_goals exact map_ne_panic (toRegex_ne_panic precedence _)

theorem matcherContent_ne_panic (precedence : Int) (k : RuleKind) :
    ∀ c : Option Rule, matcherContent precedence k c ≠ .error .panic
  | none => by simp [matcherContent]
  | some r => toMatcher_ne_panic precedence r

end

theorem tokenKey_ne_panic (r : Rule) : r.tokenKey ≠ .error .panic := by
  unfold tokenKey
  split
  · exact map_ne_panic (map_ne_panic (requireText_ne_panic _))
  · exact map_ne_panic (toMatcher_ne_panic 0 r)

end Rule

/-! ## Numbering symbols -/

namespace Numbering

open Numbered Stateful

variable {g : Grammar} {n : Nat} {Known : Production → Prop}

theorem push_safe (info : SymbolInfo) : Safe n Known (push info) where
  finds := by
    intro s _ h
    unfold push at h
    simp only at h
    split at h <;> simp at h
  keeps := by
    intro s s' x h hs
    unfold push at h
    simp only at h
    split at h
    · obtain ⟨-, rfl⟩ := Prod.mk.inj (Except.ok.inj h)
      refine ⟨?_, fun key y text hm ht => ?_, ?_, hs.productions⟩
      · exact Nat.lt_of_lt_of_eq (Nat.lt_succ_of_lt hs.current) (Array.size_push ..).symm
      · obtain ⟨i, hi, hname⟩ := hs.literals key y text hm ht
        refine ⟨i, ?_, hname⟩
        show (s.symbols.push info)[y]? = some i
        rw [Array.getElem?_push, if_neg (Nat.ne_of_lt (Array.getElem?_eq_some_iff.mp hi).1)]
        exact hi
      · exact Nat.le_trans hs.size_le (Nat.le_of_lt (Nat.lt_of_lt_of_eq (Nat.lt_succ_self _)
          (Array.size_push ..).symm))
    · contradiction

theorem bindName_safe (name : String) (x : Symbol) : Safe n Known (bindName name x) :=
  .update fun _ hs => { hs with }

theorem externals_safe (rs : List Rule) : Safe n Known (externals rs) := by
  induction rs with
  | nil => exact .pure []
  | cons r rs ih =>
    have hrest (name : String) (named : Bool) : Safe n Known (do
        let symbol ← push ⟨name, named, !(named && isHiddenName name), .external⟩
        if named then bindName name symbol
        return symbol :: (← externals rs)) := by
      refine (push_safe _).bind fun x => ?_
      cases named with
      | true => exact (bindName_safe name x).bind fun _ => ih.bind fun _ => .pure _
      | false => exact ih.bind fun _ => .pure _
    unfold externals
    cases r.kind
    case symbol => exact .bind (.pure _) fun p => hrest p.1 p.2
    case string =>
      exact .bind (.lift (GenerateError.map_ne_panic (Rule.requireText_ne_panic r))) fun p =>
        hrest p.1 p.2
    all_goals exact .bind (.throw (by simp)) fun p => hrest p.1 p.2

theorem addToken_safe (key : TokenKey) (name : String) (named visible : Bool) :
    Safe n Known (addToken key name named visible) :=
  (push_safe _).bind fun _ => .bind (.update fun _ hs => { hs with }) fun _ => .pure _

/-- A token is remembered with the name that it has just got. -/
theorem remember_safe {key : TokenKey} {name : String} {named visible : Bool}
    (hname : ∀ text, key.matcher = .literal text → name = text) : Safe n Known (do
      let x ← addToken key name named visible
      modify fun s => { s with anonymous := (key, x) :: s.anonymous }
      return x) where
  finds := fun s hs h => by
    rcases bind_eq_error h with h | ⟨x, s₁, -, h⟩
    · exact (addToken_safe ..).finds s hs h
    · cases h
  keeps := fun s s' x h hs => by
    obtain ⟨y, s₁, hadd, h⟩ := bind_eq_ok.mp h
    obtain ⟨u, s₂, hmodify, h⟩ := bind_eq_ok.mp h
    obtain rfl := modify_eq_ok.mp hmodify
    obtain ⟨rfl, rfl⟩ := pure_eq_ok.mp h
    have hs₁ := (addToken_safe ..).keeps s s₁ y hadd hs
    obtain ⟨rfl, hadded, -⟩ := Flatten.addToken_eq_ok hadd
    refine { hs₁ with literals := fun key' z text hm ht => ?_ }
    rcases List.mem_cons.mp hm with he | hm
    · obtain ⟨rfl, rfl⟩ := Prod.mk.inj he
      exact ⟨⟨name, named, visible, .terminal⟩, by simp [hadded.symbols], hname text ht⟩
    · exact hs₁.literals key' z text hm ht

theorem anonymousToken_safe (r : Rule) : Safe n Known (anonymousToken r) := by
  refine .bind (.lift (Rule.tokenKey_ne_panic r)) fun key => .bind .get fun s => ?_
  split
  · exact .pure _
  · split
    · rename_i text ht
      exact remember_safe fun text' ht' => TokenMatcher.literal.inj (ht.symm.trans ht')
    · rename_i source hp
      refine .bind .get fun t => .bind (.update fun _ hs => { hs with }) fun _ =>
        remember_safe fun text ht => ?_
      rw [hp] at ht
      contradiction

theorem namedToken_safe (name : String) : Safe n Known (namedToken g name) := by
  refine .bind .get fun s => ?_
  split
  · exact .pure _
  · split
    · exact .throw (by simp)
    · exact .bind (.lift (Rule.tokenKey_ne_panic _)) fun _ =>
        (addToken_safe ..).bind fun _ => (bindName_safe ..).bind fun _ => .pure _

mutual

theorem ruleTokens_safe : ∀ r : Rule, Safe n Known (ruleTokens g r)
  | .node k a c ms => by
    unfold ruleTokens
    cases k
    case string | pattern | token | immediateToken =>
      exact (anonymousToken_safe _).bind fun _ => .pure _
    case symbol =>
      cases a.name with
      | none => exact .pure _
      | some name =>
        simp only
        split
        · exact (namedToken_safe name).bind fun _ => .pure _
        · exact .pure _
    all_goals exact (contentTokens_safe c).bind fun _ => memberTokens_safe ms

theorem contentTokens_safe : ∀ c : Option Rule, Safe n Known (contentTokens g c)
  | none => .pure _
  | some r => ruleTokens_safe r

theorem memberTokens_safe : ∀ ms : List Rule, Safe n Known (memberTokens g ms)
  | [] => .pure _
  | r :: rs => (ruleTokens_safe r).bind fun _ => memberTokens_safe rs

end

theorem tokens_safe (entries : List (String × Rule)) : Safe n Known (tokens g entries) := by
  induction entries with
  | nil => exact .pure _
  | cons e rest ih =>
    refine .bind .get fun s => ?_
    split
    · split
      · exact (namedToken_safe e.1).bind fun _ => ih
      · exact (ruleTokens_safe e.2).bind fun _ => ih
    · exact ih

theorem extra_safe (r : Rule) : Safe n Known (extra g r) := by
  have hnamed (name : String) : Safe n Known (if isTokenRule g name then namedToken g name
      else throw (.nonTokenExtra name)) := by
    split
    · exact namedToken_safe name
    · exact .throw (by simp)
  unfold extra
  split
  · refine .bind .get fun s => ?_
    split
    · split
      · exact .pure _
      · exact hnamed _
    · exact hnamed _
  · split
    · exact anonymousToken_safe r
    · exact .throw (by simp)

theorem nonterminals_safe (start : String) (names : List String) :
    Safe n Known (nonterminals g start names) := by
  induction names with
  | nil => exact .pure _
  | cons name rest ih =>
    refine .bind .get fun s => ?_
    split
    · exact ih
    · exact (push_safe _).bind fun x => (bindName_safe name x).bind fun _ => ih

/-- The rule being flattened is set to the symbol of a name. -/
theorem Proper.enter {s : Numbering} {name : String} {x : Symbol} (h : s.Proper n Known)
    (hs : s.Sound) (hx : s.lookup name = some x) :
    Numbering.Proper n Known { s with currentRule := some x } := by
  have hlt := lt_size_of_isToken_or_isRule (lookup_spec hs hx)
  exact { h with current := hlt }

theorem initial_proper : initial.Proper 0 Known where
  current := Nat.zero_lt_one
  literals := by simp [initial]
  size_le := Nat.zero_le _
  productions := by simp [initial]

end Numbering

/-! ## Flattening -/

namespace Flatten

open Numbered Stateful Glr.Numbering

variable {g : Grammar} {expand : String → Numbered (List Alternative)} {n : Nat}
  {Known : Production → Prop}

/-- The rule being flattened has a name. -/
theorem currentName_safe : Safe n Known currentName := by
  refine .of_get fun s hs => ?_
  rw [Array.getElem?_eq_getElem hs.current]
  exact .pure _

/-- Productions for a symbol that is not among the first ones. -/
theorem addProductions_safe {x : Symbol} (hx : n ≤ x) (as : List Alternative) :
    Safe n Known (addProductions x as) := by
  refine .update fun s hs => { hs with productions := fun p hp hlt => ?_ }
  rcases mem_addProductions.mp hp with hp | ⟨a, -, rfl⟩
  · exact hs.productions p hp hlt
  · exact absurd hlt (Nat.not_lt.mpr hx)

theorem fieldId_safe (name : String) : Safe n Known (fieldId name) := by
  refine .of_get fun s hs => ?_
  split
  · exact .pure _
  · split
    · exact .bind (.update fun _ _ => { hs with }) fun _ => .pure _
    · exact .throw (by simp)

theorem labelSymbol_safe (name : String) (named : Bool) : Safe n Known (labelSymbol name named) := by
  refine .bind .get fun s => ?_
  split
  · exact .pure _
  · exact push_safe _

theorem helper_safe (suffix : String) : Safe n Known (helper suffix) :=
  .of_get fun _ hs => .bind (.update fun _ _ => { hs with }) fun _ =>
    currentName_safe.bind fun _ => push_safe _

/-- The symbol is a new one. -/
theorem helper_le {suffix : String} {s s' : Numbering} {x : Symbol} (hs : s.Proper n Known)
    (h : helper suffix s = .ok (x, s')) : n ≤ x :=
  (helper_eq_ok h).1 ▸ hs.size_le

theorem precedenceLevel_ne_panic (r : Rule) : precedenceLevel g r ≠ .error .panic := by
  unfold precedenceLevel
  split
  · simp
  · split
    · simp
    · split <;> simp

theorem cross_safe (heads tails : List Alternative) : Safe n Known (cross heads tails) := by
  unfold cross
  split
  · exact currentName_safe.bind fun _ => .bind (.throw (by simp)) fun _ => .pure _
  · exact .pure _

theorem repetition_safe (orNone : Bool) (body : List Alternative) :
    Safe n Known (repetition orNone body) :=
  (helper_safe _).bind_of (fun _ _ _ => helper_le) fun _ hx =>
    (addProductions_safe hx _).bind fun _ => .pure _

theorem rename_safe (x : Symbol) (as : List Alternative) : Safe n Known (rename x as) := by
  unfold rename
  split
  · exact .pure _
  · exact (helper_safe _).bind_of (fun _ _ _ => helper_le) fun _ hx =>
      (addProductions_safe hx _).bind fun _ => .pure _

mutual

theorem rule_safe (hexpand : ∀ name, Safe n Known (expand name)) :
    ∀ r : Rule, Safe n Known (rule g expand r)
  | .node k a c ms => by
    unfold rule
    cases k
    case blank => exact .pure _
    case string | pattern | token | immediateToken =>
      exact (anonymousToken_safe _).bind fun _ => .pure _
    case symbol =>
      simp only
      split
      · exact hexpand _
      · refine .bind .get fun s => ?_
        split
        · exact .pure _
        · exact .throw (by simp)
    case seq => exact sequence_safe hexpand _ ms
    case choice =>
      refine (alternatives_safe hexpand ms).bind fun as => ?_
      split
      · exact currentName_safe.bind fun _ => .bind (.throw (by simp)) fun _ => .pure _
      · exact .pure _
    case zeroOrMore | oneOrMore =>
      exact (content_safe hexpand _ c).bind fun _ => repetition_safe ..
    case prec | precLeft | precRight | precDynamic =>
      exact .bind (.lift (precedenceLevel_ne_panic _)) fun _ =>
        (content_safe hexpand _ c).bind fun _ => .pure _
    case field =>
      cases a.name with
      | none => exact .throw (by simp)
      | some name =>
        exact (fieldId_safe name).bind fun _ => (content_safe hexpand _ c).bind fun _ => .pure _
    case renamed =>
      exact .bind (.lift (Rule.requireText_ne_panic _)) fun _ => (labelSymbol_safe ..).bind fun _ =>
        (content_safe hexpand _ c).bind fun _ => rename_safe ..
    case reserved => exact content_safe hexpand _ c

theorem content_safe (hexpand : ∀ name, Safe n Known (expand name)) (k : RuleKind) :
    ∀ c : Option Rule, Safe n Known (content g expand k c)
  | none => .throw (by simp)
  | some r => rule_safe hexpand r

theorem alternatives_safe (hexpand : ∀ name, Safe n Known (expand name)) :
    ∀ ms : List Rule, Safe n Known (alternatives g expand ms)
  | [] => .pure _
  | r :: rs => (rule_safe hexpand r).bind fun _ =>
      (alternatives_safe hexpand rs).bind fun _ => .pure _

theorem sequence_safe (hexpand : ∀ name, Safe n Known (expand name)) (heads : List Alternative) :
    ∀ ms : List Rule, Safe n Known (sequence g expand heads ms)
  | [] => .pure _
  | r :: rs => (rule_safe hexpand r).bind fun _ =>
      (cross_safe heads _).bind fun _ => sequence_safe hexpand _ rs

end

theorem inlineBody_safe (fuel : Nat) (entered : List String) (name : String) :
    Safe n Known (inlineBody g fuel entered name) := by
  induction fuel generalizing entered name with
  | zero =>
    unfold inlineBody
    split
    · exact .throw (by simp)
    · split <;> exact .throw (by simp)
  | succ fuel ih =>
    unfold inlineBody
    split
    · exact .throw (by simp)
    · split
      · exact .throw (by simp)
      · exact rule_safe (ih (name :: entered)) _

theorem ruleOf_safe (r : Rule) : Safe n Known (ruleOf g r) := rule_safe (inlineBody_safe _ _) r

/-- Flattening the rules looks up the symbols that they are for. -/
theorem rules_safe {entries : List (String × Rule)} {s : Numbering} (hs : s.Sound)
    (hp : s.Proper 0 Known) : rules g entries s ≠ .error .panic := by
  induction entries generalizing s with
  | nil => exact fun h => by cases h
  | cons e rest ih =>
    obtain ⟨name, r⟩ := e
    intro h
    unfold rules at h
    rcases bind_eq_error h with h | ⟨t, s₁, hget, h⟩
    · cases h
    obtain ⟨rfl, rfl⟩ := get_eq_ok.mp hget
    cases hlook : s.lookup name with
    | none =>
      simp only [hlook] at h
      exact ih hs hp h
    | some x =>
      simp only [hlook] at h
      cases hx : s.isLexical x with
      | true =>
        simp only [hx, if_true] at h
        exact ih hs hp h
      | false =>
        simp only [hx, Bool.false_eq_true, if_false] at h
        have hp := hp.enter hs hlook
        rcases bind_eq_error h with h | ⟨u, s₁, hset, h⟩
        · cases h
        obtain rfl := set_eq_ok.mp hset
        rcases bind_eq_error h with h | ⟨as, s₂, has, h⟩
        · exact (ruleOf_safe r).finds _ hp h
        have hp := (ruleOf_safe r).keeps _ _ _ has hp
        rcases bind_eq_error h with h | ⟨v, s₃, hadd, h⟩
        · cases h
        have hp := (addProductions_safe (Nat.zero_le x) as).keeps _ _ _ hadd hp
        obtain rfl := addProductions_eq_ok hadd
        exact ih (flattened_extends hs hlook hx has).sound hp h

theorem symbolsOf_ne_panic (s : Numbering) (names : List String) :
    symbolsOf s names ≠ .error .panic :=
  GenerateError.mapM_ne_panic (fun name => by split <;> simp) names

theorem wordOf_ne_panic (s : Numbering) (word : Option String) :
    wordOf s word ≠ .error .panic := by
  unfold wordOf
  split
  · simp
  · split <;> simp

theorem grammar_safe (start : String) : grammar g start initial ≠ .error .panic := by
  have hinitial : initial.Proper 0 fun _ => True := initial_proper
  unfold grammar
  intro h
  rcases bind_eq_error h with h | ⟨externals, s₁, hexternals, h⟩
  · exact (externals_safe _).finds _ hinitial h
  have hc₁ := (externals_safe _).keeps _ _ _ hexternals hinitial
  have h₁ := (externals_spec initial_sound hexternals).1
  rcases bind_eq_error h with h | ⟨u₂, s₂, htokens, h⟩
  · exact (tokens_safe _).finds _ hc₁ h
  have hc₂ := (tokens_safe _).keeps _ _ _ htokens hc₁
  have h₂ := tokens_spec h₁.sound htokens
  rcases bind_eq_error h with h | ⟨extras, s₃, hextras, h⟩
  · exact (Safe.mapM extra_safe _).finds _ hc₂ h
  have hc₃ := (Safe.mapM extra_safe _).keeps _ _ _ hextras hc₂
  have hlexical : s₂.Lexical := h₂.lexical (h₁.lexical (by simp [Lexical, initial]))
  have h₃ := (extras_spec h₂.sound hlexical hextras).1
  rcases bind_eq_error h with h | ⟨u₄, s₄, hnonterminals, h⟩
  · exact (nonterminals_safe _ _).finds _ hc₃ h
  have hc₄ := (nonterminals_safe _ _).keeps _ _ _ hnonterminals hc₃
  have hs₄ := (nonterminals_spec h₃.sound hnonterminals).1
  rcases bind_eq_error h with h | ⟨t, s₅, hget, h⟩
  · cases h
  obtain ⟨rfl, rfl⟩ := get_eq_ok.mp hget
  -- nothing is looked up after the rules
  have hrest (x : Symbol) : (do
      rules g g.rules.entries
      let s ← get
      let word ← (wordOf s g.word : Except _ _)
      let expectedConflicts ← ((g.conflicts.getD []).mapM (symbolsOf s) : Except _ _)
      return {
        symbols := s.symbols, owners := s.owners, productions := s.productions, start := x,
        lexRules := s.lexRules.toList, extras, externals, fields := s.fields, word,
        expectedConflicts } : Numbered FlatGrammar) s₄ ≠ .error .panic := by
    intro h
    rcases bind_eq_error h with h | ⟨u₅, s₅, -, h⟩
    · exact rules_safe hs₄ hc₄ h
    rcases bind_eq_error h with h | ⟨t, s₆, -, h⟩
    · cases h
    rcases bind_eq_error h with h | ⟨word, s₇, -, h⟩
    · exact lift_ne_panic (wordOf_ne_panic t g.word) h
    rcases bind_eq_error h with h | ⟨conflicts, s₈, -, h⟩
    · exact lift_ne_panic (GenerateError.mapM_ne_panic (symbolsOf_ne_panic t) _) h
    cases h
  cases hlook : s₄.lookup start with
  | none =>
    simp only [hlook] at h
    rcases bind_eq_error h with h | ⟨x, s₅, h, -⟩
    · cases h
    · exact (throw_eq_ok.mp h).elim
  | some x =>
    simp only [hlook] at h
    rcases bind_eq_error h with h | ⟨y, s₅, hy, h⟩
    · cases h
    obtain ⟨rfl, rfl⟩ := pure_eq_ok.mp hy
    exact hrest x h

end Flatten

/-- Flattening answers a flat grammar or an error of the grammar. -/
theorem FlatGrammar.ofGrammar_ne_panic (g : Grammar) :
    FlatGrammar.ofGrammar g ≠ .error .panic := by
  unfold FlatGrammar.ofGrammar
  split
  · simp
  · split
    · simp
    · split
      · simp
      · exact GenerateError.map_ne_panic (Flatten.grammar_safe _)

end Glr
