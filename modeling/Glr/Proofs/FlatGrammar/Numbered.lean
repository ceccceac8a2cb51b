import Glr.FlatGrammar.Flatten
import Glr.Proofs.Stateful

/-!
# Glr.Proofs.FlatGrammar.Numbered

Numbering symbols only ever adds: what a symbol is never changes, and whatever
refers to a symbol refers to one that is there.
-/

namespace Glr

/-- What is looked up in a list is in it. -/
theorem mem_of_lookup {α β : Type} [BEq α] [LawfulBEq α] {k : α} {b : β} {l : List (α × β)}
    (h : l.lookup k = some b) : (k, b) ∈ l := by
  obtain ⟨l₁, l₂, rfl, _⟩ := List.lookup_eq_some_iff.mp h
  simp

/-! ## What symbols are -/

/-- A symbol that is a token other than the end of the input. -/
def IsToken (symbols : Array SymbolInfo) (s : Symbol) : Prop :=
  ∃ info, symbols[s]? = some info ∧ (info.kind = .terminal ∨ info.kind = .external)

/-- A symbol that productions are for. -/
def IsRule (symbols : Array SymbolInfo) (s : Symbol) : Prop :=
  ∃ info, symbols[s]? = some info ∧ (info.kind = .nonterminal ∨ info.kind = .auxiliary)

/-- A symbol that a node can be shown under. -/
def IsShown (symbols : Array SymbolInfo) (s : Symbol) : Prop :=
  ∃ info, symbols[s]? = some info ∧ info.visible = true ∧ info.kind ≠ .endOfInput

/-- A step takes a token or a node of a rule. -/
structure Step.Fits (symbols : Array SymbolInfo) (st : Step) : Prop where
  symbol : IsToken symbols st.symbol ∨ IsRule symbols st.symbol
  label : ∀ x, st.label = some x → IsShown symbols x

/-- All steps of an alternative are of that kind. -/
def Alternative.Fits (symbols : Array SymbolInfo) (a : Alternative) : Prop :=
  ∀ st ∈ a.steps, st.Fits symbols

/-- A production is for a rule and takes what is there. -/
structure Production.Fits (symbols : Array SymbolInfo) (p : Production) : Prop where
  lhs : IsRule symbols p.lhs
  steps : ∀ st ∈ p.steps, st.Fits symbols

/-- What holds of a numbering at any time. -/
structure Numbering.Sound (s : Numbering) : Prop where
  size_le : s.symbols.size ≤ errorSymbol
  first : ∃ info, s.symbols[endSymbol]? = some info ∧ info.kind = .endOfInput
  lexRules : ∀ r ∈ s.lexRules, IsToken s.symbols r.symbol
  anonymous : ∀ e ∈ s.anonymous, IsToken s.symbols e.2
  named : ∀ e ∈ s.named, IsToken s.symbols e.2 ∨ IsRule s.symbols e.2
  productions : ∀ p ∈ s.productions, p.Fits s.symbols

/-- A later numbering knows every symbol that an earlier one knew. -/
def Numbering.Grows (s s' : Numbering) : Prop :=
  ∀ (x : Symbol) info, s.symbols[x]? = some info → s'.symbols[x]? = some info

namespace Numbering

variable {s s' s'' : Numbering} {x : Symbol}

theorem Grows.refl (s : Numbering) : s.Grows s := fun _ _ h => h

theorem Grows.trans (h : s.Grows s') (h' : s'.Grows s'') : s.Grows s'' :=
  fun x info hx => h' x info (h x info hx)

theorem Grows.isToken (h : s.Grows s') (hx : IsToken s.symbols x) : IsToken s'.symbols x := by
  obtain ⟨info, hi, hk⟩ := hx
  exact ⟨info, h x info hi, hk⟩

theorem Grows.isRule (h : s.Grows s') (hx : IsRule s.symbols x) : IsRule s'.symbols x := by
  obtain ⟨info, hi, hk⟩ := hx
  exact ⟨info, h x info hi, hk⟩

theorem Grows.step (h : s.Grows s') {st : Step} (hs : st.Fits s.symbols) : st.Fits s'.symbols where
  symbol := hs.symbol.imp h.isToken h.isRule
  label := by
    intro x hx
    obtain ⟨info, hi, hv⟩ := hs.label x hx
    exact ⟨info, h x info hi, hv⟩

theorem Grows.production (h : s.Grows s') {p : Production} (hp : p.Fits s.symbols) :
    p.Fits s'.symbols where
  lhs := h.isRule hp.lhs
  steps := fun st hst => h.step (hp.steps st hst)

theorem Grows.alternatives (h : s.Grows s') {as : List Alternative}
    (ha : ∀ a ∈ as, a.Fits s.symbols) : ∀ a ∈ as, a.Fits s'.symbols :=
  fun a hm st hst => h.step (ha a hm st hst)

/-- All names so far are those of tokens. -/
def Lexical (s : Numbering) : Prop := ∀ e ∈ s.named, IsToken s.symbols e.2

/-- The numbering goes from one sound state to another one that knows more, and
names no rules on the way. -/
structure Extends (s s' : Numbering) : Prop where
  sound : s'.Sound
  grows : s.Grows s'
  lexical : s.Lexical → s'.Lexical

theorem Sound.refl (h : s.Sound) : s.Extends s := ⟨h, .refl s, id⟩

theorem Extends.trans (h : s.Extends s') (h' : s'.Extends s'') : s.Extends s'' :=
  ⟨h'.sound, h.grows.trans h'.grows, fun hl => h'.lexical (h.lexical hl)⟩

/-- A state that differs only in what no symbol depends on. -/
theorem Sound.same (h : s.Sound) (hs : s'.symbols = s.symbols) (hl : s'.lexRules = s.lexRules)
    (ha : s'.anonymous = s.anonymous) (hn : s'.named = s.named)
    (hp : s'.productions = s.productions) : s.Extends s' := by
  refine ⟨⟨?_, ?_, ?_, ?_, ?_, ?_⟩, ?_, ?_⟩
  · rw [hs]; exact h.size_le
  · rw [hs]; exact h.first
  · rw [hs, hl]; exact h.lexRules
  · rw [hs, ha]; exact h.anonymous
  · rw [hs, hn]; exact h.named
  · rw [hs, hp]; exact h.productions
  · intro x info hx
    rw [hs]
    exact hx
  · unfold Lexical
    rw [hs, hn]
    exact id

/-! ## Numbering one symbol -/

theorem push_spec {info : SymbolInfo} (hs : s.Sound) (h : push info s = .ok (x, s')) :
    s.Extends s' ∧ s'.symbols[x]? = some info := by
  unfold push at h
  simp only at h
  split at h
  · rename_i hlt
    simp only [Except.ok.injEq, Prod.mk.injEq] at h
    obtain ⟨rfl, rfl⟩ := h
    have hg : s.Grows { s with
        symbols := s.symbols.push info
        owners := s.owners.push (s.currentRule.getD s.symbols.size) } := by
      intro y i hy
      have hlt := (Array.getElem?_eq_some_iff.mp hy).1
      show (s.symbols.push info)[y]? = some i
      rw [Array.getElem?_push, if_neg (by omega)]
      exact hy
    refine ⟨⟨⟨?_, ?_, ?_, ?_, ?_, ?_⟩, hg, fun hl e he => hg.isToken (hl e he)⟩, by simp⟩
    · show (s.symbols.push info).size ≤ errorSymbol
      rw [Array.size_push]
      exact hlt
    · obtain ⟨i, hi, hk⟩ := hs.first
      exact ⟨i, hg _ _ hi, hk⟩
    · exact fun r hr => hg.isToken (hs.lexRules r hr)
    · exact fun e he => hg.isToken (hs.anonymous e he)
    · exact fun e he => (hs.named e he).imp hg.isToken hg.isRule
    · exact fun p hp => hg.production (hs.productions p hp)
  · contradiction

theorem bindName_sound {name : String} {u : Unit} (hs : s.Sound)
    (hx : IsToken s.symbols x ∨ IsRule s.symbols x) (h : bindName name x s = .ok (u, s')) :
    s'.Sound ∧ s.Grows s' := by
  obtain rfl := Stateful.modify_eq_ok.mp h
  refine ⟨{ hs with named := ?_ }, .refl s⟩
  intro e he
  rcases List.mem_cons.mp he with rfl | he
  · exact hx
  · exact hs.named e he

theorem bindName_spec {name : String} {u : Unit} (hs : s.Sound) (hx : IsToken s.symbols x)
    (h : bindName name x s = .ok (u, s')) : s.Extends s' := by
  obtain ⟨h₁, h₂⟩ := bindName_sound hs (.inl hx) h
  obtain rfl := Stateful.modify_eq_ok.mp h
  refine ⟨h₁, h₂, ?_⟩
  intro hl e he
  rcases List.mem_cons.mp he with rfl | he
  · exact hx
  · exact hl e he

theorem lookup_spec {name : String} (hs : s.Sound) (h : s.lookup name = some x) :
    IsToken s.symbols x ∨ IsRule s.symbols x :=
  hs.named (name, x) (mem_of_lookup h)

theorem initial_sound : initial.Sound where
  size_le := by decide
  first := ⟨_, rfl, rfl⟩
  lexRules := by simp [initial]
  anonymous := by simp [initial]
  named := by simp [initial]
  productions := by simp [initial]

/-! ## Tokens -/

theorem isToken_of_push {info : SymbolInfo} (h : s.symbols[x]? = some info)
    (hk : info.kind = .terminal ∨ info.kind = .external) : IsToken s.symbols x := ⟨info, h, hk⟩

/-- The token of an external, its name if it has one, and those after it. -/
theorem externals_cons_spec {named : Bool} {name : String} {rs : List Rule} {xs : List Symbol}
    (hs : s.Sound)
    (ih : ∀ {s s' : Numbering} {xs : List Symbol}, s.Sound → externals rs s = .ok (xs, s') →
      s.Extends s' ∧ ∀ x ∈ xs, IsToken s'.symbols x)
    (h : (do
      let symbol ← push ⟨name, named, !(named && isHiddenName name), .external⟩
      if named then bindName name symbol
      return symbol :: (← externals rs) : Numbered (List Symbol)) s = .ok (xs, s')) :
    s.Extends s' ∧ ∀ x ∈ xs, IsToken s'.symbols x := by
  obtain ⟨x, s₁, hpush, h⟩ := Stateful.bind_eq_ok.mp h
  obtain ⟨h₁, hi⟩ := push_spec hs hpush
  have hx := isToken_of_push hi (.inr rfl)
  have hrest {s₂ : Numbering} (h₂ : s₁.Extends s₂)
      (h : (do return x :: (← externals rs) : Numbered (List Symbol)) s₂ = .ok (xs, s')) :
      s.Extends s' ∧ ∀ x ∈ xs, IsToken s'.symbols x := by
    obtain ⟨ys, s₃, hys, h⟩ := Stateful.bind_eq_ok.mp h
    obtain ⟨rfl, rfl⟩ := Stateful.pure_eq_ok.mp h
    obtain ⟨h₃, hys⟩ := ih h₂.sound hys
    refine ⟨(h₁.trans h₂).trans h₃, ?_⟩
    intro y hy
    rcases List.mem_cons.mp hy with rfl | hy
    · exact (h₂.trans h₃).grows.isToken hx
    · exact hys y hy
  cases named with
  | false => exact hrest h₁.sound.refl h
  | true =>
    obtain ⟨u, s₂, hbind, h⟩ := Stateful.bind_eq_ok.mp h
    exact hrest (bindName_spec h₁.sound hx hbind) h

theorem externals_spec {rs : List Rule} {xs : List Symbol} (hs : s.Sound)
    (h : externals rs s = .ok (xs, s')) :
    s.Extends s' ∧ ∀ x ∈ xs, IsToken s'.symbols x := by
  induction rs generalizing s s' xs with
  | nil =>
    obtain ⟨rfl, rfl⟩ := Stateful.pure_eq_ok.mp h
    exact ⟨hs.refl, by simp⟩
  | cons r rs ih =>
    unfold externals at h
    cases hk : r.kind
    case symbol =>
      rw [hk] at h
      obtain ⟨p, s₁, hp, h⟩ := Stateful.bind_eq_ok.mp h
      obtain ⟨rfl, rfl⟩ := Stateful.pure_eq_ok.mp hp
      exact externals_cons_spec hs ih h
    case string =>
      rw [hk] at h
      obtain ⟨p, s₁, hp, h⟩ := Stateful.bind_eq_ok.mp h
      obtain ⟨-, rfl⟩ := Stateful.lift_eq_ok.mp hp
      exact externals_cons_spec hs ih h
    all_goals
      rw [hk] at h
      obtain ⟨p, s₁, hp, h⟩ := Stateful.bind_eq_ok.mp h
      exact (Stateful.throw_eq_ok.mp hp).elim

theorem addToken_spec {key : TokenKey} {name : String} {named visible : Bool} (hs : s.Sound)
    (h : addToken key name named visible s = .ok (x, s')) :
    s.Extends s' ∧ IsToken s'.symbols x := by
  unfold addToken at h
  simp only [Stateful.bind_eq_ok, Stateful.modify_eq_ok, Stateful.pure_eq_ok] at h
  obtain ⟨y, s₁, hpush, u, s₂, hs₂, rfl, rfl⟩ := h
  obtain ⟨h₁, hy⟩ := push_spec hs hpush
  have hy := isToken_of_push hy (.inl rfl)
  subst hs₂
  refine ⟨⟨{ h₁.sound with lexRules := ?_ }, h₁.grows, h₁.lexical⟩, hy⟩
  intro r hr
  rcases Array.mem_push.mp hr with hr | rfl
  · exact h₁.sound.lexRules r hr
  · exact hy

theorem anonymousToken_spec {r : Rule} (hs : s.Sound) (h : anonymousToken r s = .ok (x, s')) :
    s.Extends s' ∧ IsToken s'.symbols x := by
  unfold anonymousToken at h
  simp only [Stateful.bind_eq_ok, Stateful.lift_eq_ok, Stateful.get_eq_ok] at h
  obtain ⟨key, s₁, ⟨-, rfl⟩, t, s₂, ⟨rfl, rfl⟩, h⟩ := h
  -- both kinds of new tokens end in the same way
  have remember {s₁ s₂ : Numbering} {y : Symbol} (h₁ : s.Extends s₁) (hy : IsToken s₁.symbols y)
      (h₂ : { s₁ with anonymous := (key, y) :: s₁.anonymous } = s₂) :
      s.Extends s₂ ∧ IsToken s₂.symbols y := by
    subst h₂
    refine ⟨⟨{ h₁.sound with anonymous := ?_ }, h₁.grows, h₁.lexical⟩, hy⟩
    intro e he
    rcases List.mem_cons.mp he with rfl | he
    · exact hy
    · exact h₁.sound.anonymous e he
  cases hlook : s.anonymous.lookup key with
  | some y =>
    rw [hlook] at h
    obtain ⟨rfl, rfl⟩ := Stateful.pure_eq_ok.mp h
    exact ⟨hs.refl, hs.anonymous (key, y) (mem_of_lookup hlook)⟩
  | none =>
    rw [hlook] at h
    cases hm : key.matcher with
    | literal text =>
      rw [hm] at h
      simp only [Stateful.bind_eq_ok, Stateful.modify_eq_ok, Stateful.pure_eq_ok] at h
      obtain ⟨y, s₁, hadd, u, s₂, hs₂, rfl, rfl⟩ := h
      obtain ⟨h₁, hy⟩ := addToken_spec hs hadd
      exact remember h₁ hy hs₂
    | pattern source =>
      rw [hm] at h
      simp only [Stateful.bind_eq_ok, Stateful.modify_eq_ok, Stateful.pure_eq_ok,
        Stateful.get_eq_ok] at h
      obtain ⟨t, s₁, ⟨rfl, rfl⟩, u, s₂, hcount, y, s₃, hadd, u', s₄, hs₄, rfl, rfl⟩ := h
      have h₂ : s.Extends s₂ := by
        subst hcount
        exact hs.same rfl rfl rfl rfl rfl
      obtain ⟨h₃, hy⟩ := addToken_spec h₂.sound hadd
      exact remember (h₂.trans h₃) hy hs₄

theorem namedToken_spec {g : Grammar} {name : String} (hs : s.Sound)
    (h : namedToken g name s = .ok (x, s')) :
    s.Extends s' ∧ (s.Lexical → IsToken s'.symbols x) := by
  unfold namedToken at h
  simp only [Stateful.bind_eq_ok, Stateful.get_eq_ok] at h
  obtain ⟨t, s₁, ⟨rfl, rfl⟩, h⟩ := h
  cases hlook : s.lookup name with
  | some y =>
    rw [hlook] at h
    obtain ⟨rfl, rfl⟩ := Stateful.pure_eq_ok.mp h
    exact ⟨hs.refl, fun hl => hl (name, y) (mem_of_lookup hlook)⟩
  | none =>
    rw [hlook] at h
    cases hr : g.rules.get? name with
    | none =>
      rw [hr] at h
      exact (Stateful.throw_eq_ok.mp h).elim
    | some r =>
      rw [hr] at h
      simp only [Stateful.bind_eq_ok, Stateful.lift_eq_ok, Stateful.pure_eq_ok] at h
      obtain ⟨key, s₁, ⟨-, rfl⟩, y, s₂, hadd, u, s₃, hbind, rfl, rfl⟩ := h
      obtain ⟨h₁, hy⟩ := addToken_spec hs hadd
      have h₂ := bindName_spec h₁.sound hy hbind
      exact ⟨h₁.trans h₂, fun _ => h₂.grows.isToken hy⟩

mutual

theorem ruleTokens_spec {g : Grammar} {s s' : Numbering} {u : Unit} (hs : s.Sound) :
    ∀ r : Rule, ruleTokens g r s = .ok (u, s') → s.Extends s'
  | .node k a c ms, h => by
    unfold ruleTokens at h
    cases k
    case symbol =>
      cases hn : a.name with
      | none =>
        rw [hn] at h
        obtain ⟨-, rfl⟩ := Stateful.pure_eq_ok.mp h
        exact hs.refl
      | some name =>
        rw [hn] at h
        cases ht : isTokenRule g name with
        | false =>
          simp only [ht, Bool.false_eq_true, if_false, Stateful.pure_eq_ok] at h
          obtain ⟨-, rfl⟩ := h
          exact hs.refl
        | true =>
          simp only [ht, if_true, Stateful.bind_eq_ok, Stateful.pure_eq_ok] at h
          obtain ⟨x, s₁, hx, -, rfl⟩ := h
          exact (namedToken_spec hs hx).1
    case string | pattern | token | immediateToken =>
      simp only [Stateful.bind_eq_ok, Stateful.pure_eq_ok] at h
      obtain ⟨x, s₁, hx, -, rfl⟩ := h
      exact (anonymousToken_spec hs hx).1
    all_goals
      obtain ⟨v, s₁, hc, h⟩ := Stateful.bind_eq_ok.mp h
      have h₁ := contentTokens_spec hs c hc
      exact h₁.trans (memberTokens_spec h₁.sound ms h)

theorem contentTokens_spec {g : Grammar} {s s' : Numbering} {u : Unit} (hs : s.Sound) :
    ∀ c : Option Rule, contentTokens g c s = .ok (u, s') → s.Extends s'
  | none, h => by
    obtain ⟨-, rfl⟩ := Stateful.pure_eq_ok.mp h
    exact hs.refl
  | some r, h => ruleTokens_spec hs r h

theorem memberTokens_spec {g : Grammar} {s s' : Numbering} {u : Unit} (hs : s.Sound) :
    ∀ ms : List Rule, memberTokens g ms s = .ok (u, s') → s.Extends s'
  | [], h => by
    obtain ⟨-, rfl⟩ := Stateful.pure_eq_ok.mp h
    exact hs.refl
  | r :: rs, h => by
    obtain ⟨v, s₁, hr, h⟩ := Stateful.bind_eq_ok.mp h
    have h₁ := ruleTokens_spec hs r hr
    exact h₁.trans (memberTokens_spec h₁.sound rs h)

end

theorem tokens_spec {g : Grammar} {entries : List (String × Rule)} {u : Unit} (hs : s.Sound)
    (h : tokens g entries s = .ok (u, s')) : s.Extends s' := by
  induction entries generalizing s with
  | nil =>
    obtain ⟨-, rfl⟩ := Stateful.pure_eq_ok.mp h
    exact hs.refl
  | cons e rest ih =>
    obtain ⟨name, r⟩ := e
    unfold tokens at h
    obtain ⟨t, s₁, hget, h⟩ := Stateful.bind_eq_ok.mp h
    obtain ⟨rfl, rfl⟩ := Stateful.get_eq_ok.mp hget
    cases hlook : (s.lookup name).isNone with
    | false =>
      rw [hlook] at h
      exact ih hs h
    | true =>
      rw [hlook] at h
      cases ht : r.isTerminal with
      | true =>
        simp only [ht, if_true] at h
        obtain ⟨x, s₁, hx, h⟩ := Stateful.bind_eq_ok.mp h
        have h₁ := (namedToken_spec hs hx).1
        exact h₁.trans (ih h₁.sound h)
      | false =>
        simp only [ht, if_true, Bool.false_eq_true, if_false] at h
        obtain ⟨v, s₁, hr, h⟩ := Stateful.bind_eq_ok.mp h
        have h₁ := ruleTokens_spec hs r hr
        exact h₁.trans (ih h₁.sound h)

theorem isToken_of_isLexical (h : s.isLexical x = true) : IsToken s.symbols x := by
  unfold isLexical at h
  cases hi : s.symbols[x]? with
  | none => simp [hi] at h
  | some info =>
    simp only [hi, Bool.or_eq_true, beq_iff_eq] at h
    exact ⟨info, hi, h⟩

theorem extra_spec {g : Grammar} {r : Rule} (hs : s.Sound) (hl : s.Lexical)
    (h : extra g r s = .ok (x, s')) : s.Extends s' ∧ IsToken s'.symbols x := by
  unfold extra at h
  by_cases hk : r.kind = .symbol
  · rw [if_pos hk] at h
    obtain ⟨t, s₁, hget, h⟩ := Stateful.bind_eq_ok.mp h
    obtain ⟨rfl, rfl⟩ := Stateful.get_eq_ok.mp hget
    have hnamed (h : (if isTokenRule g (r.attributes.name.getD "") then
        namedToken g (r.attributes.name.getD "")
        else throw (.nonTokenExtra (r.attributes.name.getD "")) : Numbered Symbol) s
          = .ok (x, s')) : s.Extends s' ∧ IsToken s'.symbols x := by
      split at h
      · exact ⟨(namedToken_spec hs h).1, (namedToken_spec hs h).2 hl⟩
      · exact (Stateful.throw_eq_ok.mp h).elim
    cases hlook : s.lookup (r.attributes.name.getD "") with
    | none =>
      simp only [hlook] at h
      exact hnamed h
    | some y =>
      simp only [hlook] at h
      cases hy : s.isLexical y with
      | true =>
        simp only [hy, if_true] at h
        obtain ⟨rfl, rfl⟩ := Stateful.pure_eq_ok.mp h
        exact ⟨hs.refl, isToken_of_isLexical hy⟩
      | false =>
        simp only [hy, Bool.false_eq_true, if_false] at h
        exact hnamed h
  · rw [if_neg hk] at h
    cases ht : r.isTerminal with
    | true =>
      simp only [ht, if_true] at h
      exact anonymousToken_spec hs h
    | false =>
      simp only [ht, Bool.false_eq_true, if_false] at h
      exact (Stateful.throw_eq_ok.mp h).elim

theorem extras_spec {g : Grammar} {rs : List Rule} {xs : List Symbol} (hs : s.Sound)
    (hl : s.Lexical) (h : rs.mapM (extra g) s = .ok (xs, s')) :
    s.Extends s' ∧ ∀ x ∈ xs, IsToken s'.symbols x := by
  induction rs generalizing s xs with
  | nil =>
    obtain ⟨rfl, rfl⟩ := Stateful.pure_eq_ok.mp h
    exact ⟨hs.refl, by simp⟩
  | cons r rs ih =>
    rw [List.mapM_cons] at h
    obtain ⟨x, s₁, hx, h⟩ := Stateful.bind_eq_ok.mp h
    obtain ⟨ys, s₂, hys, h⟩ := Stateful.bind_eq_ok.mp h
    obtain ⟨rfl, rfl⟩ := Stateful.pure_eq_ok.mp h
    obtain ⟨h₁, hx⟩ := extra_spec hs hl hx
    obtain ⟨h₂, hys⟩ := ih h₁.sound (h₁.lexical hl) hys
    refine ⟨h₁.trans h₂, ?_⟩
    intro y hy
    rcases List.mem_cons.mp hy with rfl | hy
    · exact h₂.grows.isToken hx
    · exact hys y hy

/-! ## Nonterminals -/

theorem nonterminals_spec {g : Grammar} {start : String} {names : List String} {u : Unit}
    (hs : s.Sound) (h : nonterminals g start names s = .ok (u, s')) :
    s'.Sound ∧ s.Grows s' := by
  induction names generalizing s with
  | nil =>
    obtain ⟨-, rfl⟩ := Stateful.pure_eq_ok.mp h
    exact ⟨hs, .refl s⟩
  | cons name rest ih =>
    unfold nonterminals at h
    obtain ⟨t, s₁, hget, h⟩ := Stateful.bind_eq_ok.mp h
    obtain ⟨rfl, rfl⟩ := Stateful.get_eq_ok.mp hget
    split at h
    · exact ih hs h
    · obtain ⟨x, s₁, hpush, h⟩ := Stateful.bind_eq_ok.mp h
      obtain ⟨v, s₂, hbind, h⟩ := Stateful.bind_eq_ok.mp h
      obtain ⟨h₁, hi⟩ := push_spec hs hpush
      obtain ⟨h₂, hg⟩ := bindName_sound h₁.sound (.inr ⟨_, hi, .inl rfl⟩) hbind
      obtain ⟨h₃, hg'⟩ := ih h₂ h
      exact ⟨h₃, (h₁.grows.trans hg).trans hg'⟩

end Numbering
end Glr
