import Glr.Proofs.FlatGrammar.Numbered
import Mathlib.Logic.Relation

/-!
# Glr.Proofs.FlatGrammar.Derives

What symbols derive.  A token derives itself, a production turns its left-hand side into
what its right-hand side derives, and a list derives its parts one after another:

```
x₁ x₂ … xₙ  ⇒  w₁ w₂ … wₙ      where   xᵢ ⇒ wᵢ
```

Sentential forms are what symbols turn into when any symbol, anywhere, is replaced by the
right-hand side of a production of it, any number of times.

```
α B β  ⇒  α γ β      for a production  B → γ
```

A form need not be made of tokens.  The forms of a list are the forms of its parts one after
another, so they are told by `Derives`, where any symbol may stay as it is.

Rules are an extended grammar.  A rule stands for some lists of tokens:

```
BLANK              nothing
STRING, PATTERN,
TOKEN, …           the token that was numbered for it
SYMBOL             the named token, or what the named rule stands for
SEQ, CHOICE        what all members stand for in turn, what one of them does
REPEAT, REPEAT1    any number of times what the content stands for, one at least
PREC, FIELD, …     what the content stands for
```

Flattening goes from rules to symbols.  What symbols stand for is said here for any meaning
of the single ones, so that what is derived from them is one case.
-/

namespace Glr

/-- Some symbols derive some tokens by the productions in `P`; `T` says what tokens are. -/
inductive Derives (T : Symbol → Prop) (P : Production → Prop) :
    List Symbol → List Symbol → Prop where
  | nil : Derives T P [] []
  | token {x : Symbol} {xs w : List Symbol} (hx : T x) (h : Derives T P xs w) :
      Derives T P (x :: xs) (x :: w)
  | rule {p : Production} {xs u w : List Symbol} (hp : P p) (hu : Derives T P p.rhs u)
      (h : Derives T P xs w) : Derives T P (p.lhs :: xs) (u ++ w)

/-- Some symbols derive some tokens in a grammar. -/
abbrev FlatGrammar.Derives (g : FlatGrammar) : List Symbol → List Symbol → Prop :=
  Glr.Derives (IsToken g.symbols) (· ∈ g.productions)

namespace Derives

variable {T T' : Symbol → Prop} {P P' : Production → Prop} {xs ys u v w : List Symbol}

theorem append (h : Derives T P xs u) (h' : Derives T P ys v) :
    Derives T P (xs ++ ys) (u ++ v) := by
  induction h with
  | nil => exact h'
  | token hx _ ih => exact .token hx ih
  | rule hp hu _ _ ih =>
    rw [List.append_assoc]
    exact .rule hp hu ih

/-- What two lists of symbols derive falls into what the one and what the other derives. -/
theorem append_iff : Derives T P (xs ++ ys) w ↔
    ∃ u v, w = u ++ v ∧ Derives T P xs u ∧ Derives T P ys v := by
  constructor
  · intro h
    induction xs generalizing w with
    | nil => exact ⟨[], w, rfl, .nil, h⟩
    | cons x xs ih =>
      cases h with
      | token hx h =>
        obtain ⟨u, v, rfl, hu, hv⟩ := ih h
        exact ⟨x :: u, v, rfl, .token hx hu, hv⟩
      | @rule p _ t _ hp ht h =>
        obtain ⟨u, v, rfl, hu, hv⟩ := ih h
        exact ⟨t ++ u, v, (List.append_assoc ..).symm, .rule hp ht hu, hv⟩
  · rintro ⟨u, v, rfl, hu, hv⟩
    exact hu.append hv

@[simp] theorem nil_iff : Derives T P [] w ↔ w = [] := by
  constructor
  · rintro ⟨⟩
    rfl
  · rintro rfl
    exact .nil

/-- A symbol derives itself as a token, or what a production of it derives. -/
theorem singleton_iff {x : Symbol} : Derives T P [x] w ↔
    T x ∧ w = [x] ∨ ∃ p, P p ∧ p.lhs = x ∧ Derives T P p.rhs w := by
  constructor
  · intro h
    cases h with
    | token hx h =>
      obtain rfl := nil_iff.mp h
      exact .inl ⟨hx, rfl⟩
    | rule hp hu h =>
      obtain rfl := nil_iff.mp h
      rw [List.append_nil]
      exact .inr ⟨_, hp, rfl, hu⟩
  · rintro (⟨hx, rfl⟩ | ⟨p, hp, rfl, hu⟩)
    · exact .token hx .nil
    · simpa using Derives.rule hp hu .nil

theorem mono (h : Derives T P xs w) (hT : ∀ x, T x → T' x) (hP : ∀ p, P p → P' p) :
    Derives T' P' xs w := by
  induction h with
  | nil => exact .nil
  | token hx _ ih => exact .token (hT _ hx) ih
  | rule hp _ _ ihu ih => exact .rule (hP _ hp) ihu ih

/-- Only tokens are derived. -/
theorem tokens (h : Derives T P xs w) : ∀ x ∈ w, T x := by
  induction h with
  | nil => simp
  | token hx _ ih => simpa [hx] using ih
  | rule _ _ _ ihu ih =>
    intro x hx
    rcases List.mem_append.mp hx with hx | hx
    · exact ihu x hx
    · exact ih x hx

end Derives

/-! ## Sentential forms -/

/-- One symbol is replaced by the right-hand side of a production of it. -/
inductive FlatGrammar.Rewrites (g : FlatGrammar) : List Symbol → List Symbol → Prop where
  | intro (before after : List Symbol) {p : Production} (hp : p ∈ g.productions) :
      Rewrites g (before ++ p.lhs :: after) (before ++ p.rhs ++ after)

/-- Some symbols turn into others. -/
abbrev FlatGrammar.Sentential (g : FlatGrammar) : List Symbol → List Symbol → Prop :=
  Relation.ReflTransGen g.Rewrites

variable {g : FlatGrammar} {xs ys u v w : List Symbol}

/-! ## Parts -/

/-- What symbols turn into where any symbol may stay as it is. -/
abbrev FlatGrammar.Forms (g : FlatGrammar) : List Symbol → List Symbol → Prop :=
  Glr.Derives (fun _ => True) (· ∈ g.productions)

namespace FlatGrammar

theorem Forms.refl (xs : List Symbol) : g.Forms xs xs := by
  induction xs with
  | nil => exact .nil
  | cons x xs ih => exact .token trivial ih

theorem Forms.trans (h : g.Forms xs u) (h' : g.Forms u w) : g.Forms xs w := by
  induction h generalizing w with
  | nil => exact h'
  | @token x xs u _ _ ih =>
    obtain ⟨v, v', rfl, hv, hv'⟩ := Derives.append_iff.mp (show g.Forms ([x] ++ u) w from h')
    exact hv.append (ih hv')
  | rule hp _ _ ihu ih =>
    obtain ⟨v, v', rfl, hv, hv'⟩ := Derives.append_iff.mp h'
    exact .rule hp (ihu hv) (ih hv')

theorem Rewrites.forms (h : g.Rewrites u w) : g.Forms u w := by
  obtain ⟨before, after, hp⟩ := h
  rw [List.append_assoc]
  exact (Forms.refl before).append (.rule hp (Forms.refl _) (Forms.refl after))

/-- Whatever stands around symbols may stay as it is. -/
theorem Sentential.around (h : g.Sentential u v) (before after : List Symbol) :
    g.Sentential (before ++ u ++ after) (before ++ v ++ after) := by
  refine h.lift (fun w => before ++ w ++ after) fun u v h => ?_
  obtain ⟨before', after', hp⟩ := h
  simpa [Function.onFun] using Rewrites.intro (before ++ before') (after' ++ after) hp

theorem Sentential.append (h : g.Sentential xs u) (h' : g.Sentential ys v) :
    g.Sentential (xs ++ ys) (u ++ v) := by
  have hleft : g.Sentential (xs ++ ys) (u ++ ys) := by simpa using h.around [] ys
  exact hleft.trans (by simpa using h'.around u [])

theorem Sentential.of_production {p : Production} (hp : p ∈ g.productions) :
    g.Sentential [p.lhs] p.rhs := by
  simpa using Relation.ReflTransGen.single (Rewrites.intro [] [] hp)

theorem sentential_iff_forms : g.Sentential xs w ↔ g.Forms xs w := by
  constructor
  · intro h
    induction h with
    | refl => exact .refl xs
    | tail _ h ih => exact ih.trans h.forms
  · intro h
    induction h with
    | nil => exact .refl
    | @token x xs w _ _ ih => exact (.append .refl ih : g.Sentential ([x] ++ xs) ([x] ++ w))
    | @rule p xs u w hp _ _ ihu ih =>
      have hlhs := (Sentential.of_production hp).trans ihu
      exact (Sentential.append hlhs ih : g.Sentential ([p.lhs] ++ xs) (u ++ w))

/-- Symbols turn into nothing where each of them does. -/
theorem sentential_nil_iff : g.Sentential xs [] ↔ ∀ x ∈ xs, g.Sentential [x] [] := by
  induction xs with
  | nil => simpa using Relation.ReflTransGen.refl
  | cons x xs ih =>
    rw [List.forall_mem_cons, ← ih]
    simp only [sentential_iff_forms]
    constructor
    · intro h
      obtain ⟨u, v, huv, hu, hv⟩ := Derives.append_iff.mp (show g.Forms ([x] ++ xs) [] from h)
      obtain ⟨rfl, rfl⟩ := List.append_eq_nil_iff.mp huv.symm
      exact ⟨hu, hv⟩
    · exact fun h => h.1.append h.2

/-! ## Beginnings -/

/-- A token stands first in a form of some symbols. -/
def Begins (g : FlatGrammar) (xs : List Symbol) (t : Symbol) : Prop :=
  g.isTerminal t = true ∧ ∃ w, g.Sentential xs (t :: w)

variable {x t : Symbol}

theorem Begins.trans (h : g.Sentential xs ys) (hy : g.Begins ys t) : g.Begins xs t :=
  ⟨hy.1, hy.2.imp fun _ hw => h.trans hw⟩

/-- The first of some symbols begins with a token, or it turns into nothing and the others
begin with the token. -/
theorem begins_append_iff : g.Begins (xs ++ ys) t ↔
    g.Begins xs t ∨ g.Sentential xs [] ∧ g.Begins ys t := by
  constructor
  · rintro ⟨ht, w, hw⟩
    obtain ⟨u, v, huv, hu, hv⟩ := Derives.append_iff.mp (sentential_iff_forms.mp hw)
    cases u with
    | nil =>
      rw [List.nil_append] at huv
      exact .inr ⟨sentential_iff_forms.mpr hu, ht, w, sentential_iff_forms.mpr (huv ▸ hv)⟩
    | cons y u =>
      obtain ⟨rfl, -⟩ := List.cons.inj huv
      exact .inl ⟨ht, u, sentential_iff_forms.mpr hu⟩
  · rintro (⟨ht, w, hw⟩ | ⟨hx, ht, w, hw⟩)
    · exact ⟨ht, w ++ ys, by simpa using hw.around [] ys⟩
    · exact ⟨ht, w, by simpa using Sentential.append hx hw⟩

/-- A token turns into nothing else. -/
theorem begins_token_iff (hx : g.isTerminal x = true) (hrule : ∀ p ∈ g.productions, p.lhs ≠ x) :
    g.Begins [x] t ↔ t = x := by
  constructor
  · rintro ⟨-, w, hw⟩
    rcases Derives.singleton_iff.mp (sentential_iff_forms.mp hw) with ⟨-, h⟩ | ⟨p, hp, h, -⟩
    · exact (List.cons.inj h).1
    · exact absurd h (hrule p hp)
  · rintro rfl
    exact ⟨hx, [], .refl⟩

end FlatGrammar

end Glr

namespace Glr

/-! ## What rules stand for -/

/-- Whether rules of a kind stand for what they are around. -/
def RuleKind.isWrapper : RuleKind → Bool
  | .prec | .precLeft | .precRight | .precDynamic | .field | .renamed | .reserved => true
  | _ => false

/-- Whether a rule is expanded where it is used. -/
def Grammar.inlines (g : Grammar) (name : String) : Bool := (g.inlined.getD []).contains name

/-- The lists of tokens that a rule stands for, where `s` numbers tokens and names. -/
inductive Grammar.Reads (g : Grammar) (s : Numbering) : Rule → List Symbol → Prop where
  | blank {a : RuleAttributes} {c : Option Rule} {ms : List Rule} : Reads g s (.node .blank a c ms) []
  /-- A token that is written out. -/
  | token {k : RuleKind} {a : RuleAttributes} {c : Option Rule} {ms : List Rule} {key : TokenKey}
      {x : Symbol} (hk : k.isTerminal = true) (hkey : (Rule.node k a c ms).tokenKey = .ok key)
      (hx : s.anonymous.lookup key = some x) : Reads g s (.node k a c ms) [x]
  /-- A token that is named. -/
  | named {a : RuleAttributes} {c : Option Rule} {ms : List Rule} {x : Symbol}
      (hi : g.inlines (a.name.getD "") = false) (hx : s.lookup (a.name.getD "") = some x)
      (ht : s.isLexical x = true) : Reads g s (.node .symbol a c ms) [x]
  /-- A rule that is named. -/
  | rule {a : RuleAttributes} {c : Option Rule} {ms : List Rule} {x : Symbol} {r : Rule}
      {w : List Symbol} (hi : g.inlines (a.name.getD "") = false)
      (hx : s.lookup (a.name.getD "") = some x) (ht : s.isLexical x = false)
      (hr : g.rules.get? (a.name.getD "") = some r) (h : Reads g s r w) :
      Reads g s (.node .symbol a c ms) w
  | inlined {a : RuleAttributes} {c : Option Rule} {ms : List Rule} {r : Rule} {w : List Symbol}
      (hi : g.inlines (a.name.getD "") = true) (hr : g.rules.get? (a.name.getD "") = some r)
      (h : Reads g s r w) : Reads g s (.node .symbol a c ms) w
  | nil {a : RuleAttributes} {c : Option Rule} : Reads g s (.node .seq a c []) []
  | cons {a : RuleAttributes} {c : Option Rule} {m : Rule} {ms : List Rule} {u w : List Symbol}
      (h : Reads g s m u) (hs : Reads g s (.node .seq a c ms) w) :
      Reads g s (.node .seq a c (m :: ms)) (u ++ w)
  | choice {a : RuleAttributes} {c : Option Rule} {m : Rule} {ms : List Rule} {w : List Symbol}
      (hm : m ∈ ms) (h : Reads g s m w) : Reads g s (.node .choice a c ms) w
  | zero {a : RuleAttributes} {r : Rule} {ms : List Rule} :
      Reads g s (.node .zeroOrMore a (some r) ms) []
  | many {a : RuleAttributes} {r : Rule} {ms : List Rule} {w : List Symbol}
      (h : Reads g s (.node .oneOrMore a (some r) ms) w) :
      Reads g s (.node .zeroOrMore a (some r) ms) w
  | one {a : RuleAttributes} {r : Rule} {ms : List Rule} {w : List Symbol} (h : Reads g s r w) :
      Reads g s (.node .oneOrMore a (some r) ms) w
  | more {a : RuleAttributes} {r : Rule} {ms : List Rule} {u w : List Symbol}
      (hs : Reads g s (.node .oneOrMore a (some r) ms) u) (h : Reads g s r w) :
      Reads g s (.node .oneOrMore a (some r) ms) (u ++ w)
  | wrapper {k : RuleKind} {a : RuleAttributes} {r : Rule} {ms : List Rule} {w : List Symbol}
      (hk : k.isWrapper = true) (h : Reads g s r w) : Reads g s (.node k a (some r) ms) w

/-! ## What symbols stand for -/

/-- What each symbol stands for. -/
abbrev Meaning := Symbol → List Symbol → Prop

/-- What symbols stand for one after another. -/
inductive Denotes (M : Meaning) : List Symbol → List Symbol → Prop where
  | nil : Denotes M [] []
  | cons {x : Symbol} {xs u w : List Symbol} (h : M x u) (hs : Denotes M xs w) :
      Denotes M (x :: xs) (u ++ w)

namespace Denotes

variable {M M' : Meaning} {xs ys w : List Symbol} {x : Symbol}

@[simp] theorem nil_iff : Denotes M [] w ↔ w = [] := by
  constructor
  · rintro ⟨⟩
    rfl
  · rintro rfl
    exact .nil

theorem cons_iff : Denotes M (x :: xs) w ↔ ∃ u v, w = u ++ v ∧ M x u ∧ Denotes M xs v := by
  constructor
  · rintro ⟨⟩
    rename_i u v hu hv
    exact ⟨u, v, rfl, hu, hv⟩
  · rintro ⟨u, v, rfl, hu, hv⟩
    exact .cons hu hv

@[simp] theorem singleton_iff : Denotes M [x] w ↔ M x w := by
  rw [cons_iff]
  constructor
  · rintro ⟨u, v, rfl, hu, hv⟩
    rwa [nil_iff.mp hv, List.append_nil]
  · intro h
    exact ⟨w, [], (List.append_nil w).symm, h, .nil⟩

theorem append_iff : Denotes M (xs ++ ys) w ↔
    ∃ u v, w = u ++ v ∧ Denotes M xs u ∧ Denotes M ys v := by
  induction xs generalizing w with
  | nil =>
    constructor
    · intro h
      exact ⟨[], w, rfl, .nil, h⟩
    · rintro ⟨u, v, rfl, hu, hv⟩
      rwa [nil_iff.mp hu]
  | cons x xs ih =>
    rw [List.cons_append, cons_iff]
    constructor
    · rintro ⟨t, w, rfl, ht, h⟩
      obtain ⟨u, v, rfl, hu, hv⟩ := ih.mp h
      exact ⟨t ++ u, v, (List.append_assoc ..).symm, .cons ht hu, hv⟩
    · rintro ⟨u, v, rfl, hu, hv⟩
      obtain ⟨t, u, rfl, ht, hu⟩ := cons_iff.mp hu
      exact ⟨t, u ++ v, List.append_assoc .., ht, ih.mpr ⟨u, v, rfl, hu, hv⟩⟩

/-- Symbols stand for the same where each of them does. -/
theorem congr (h : ∀ x ∈ xs, M x = M' x) : Denotes M xs w ↔ Denotes M' xs w := by
  induction xs generalizing w with
  | nil => simp
  | cons x xs ih =>
    obtain ⟨hx, hxs⟩ := List.forall_mem_cons.mp h
    simp only [cons_iff, hx, ih hxs]

end Denotes

/-! ## What symbols derive -/

variable {M : Meaning} {T : Symbol → Prop} {P : Production → Prop} {xs w : List Symbol}

/-- What symbols derive they stand for in any meaning that the tokens and the productions
agree with. -/
theorem Derives.denotes (hT : ∀ x, T x → M x [x])
    (hP : ∀ p, P p → ∀ w, Denotes M p.rhs w → M p.lhs w) (h : Derives T P xs w) :
    Denotes M xs w := by
  induction h with
  | nil => exact .nil
  | token hx _ ih => exact .cons (hT _ hx) ih
  | rule hp _ _ ihu ih => exact .cons (hP _ hp _ ihu) ih

/-- What single symbols derive is such a meaning. -/
theorem Derives.of_denotes (h : Denotes (fun x w => Derives T P [x] w) xs w) :
    Derives T P xs w := by
  induction h with
  | nil => exact .nil
  | cons hx _ ih => exact hx.append ih

end Glr
