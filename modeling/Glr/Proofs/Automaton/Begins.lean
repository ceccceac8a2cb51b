import Glr.Proofs.Automaton.First
import Glr.Proofs.FlatGrammar.Derives

/-!
# Glr.Proofs.Automaton.Begins

First sets are exact.  All that a round adds follows from what is known by one production, so
what the rounds come to is right; and where a round adds nothing, nothing is missing:

```
nullable x              ↔   x ⇒ … ⇒ nothing
t ∈ first x             ↔   x ⇒ … ⇒ t …
t ∈ first (xs, follow)  ↔   xs ⇒ … ⇒ t …,  or xs ⇒ … ⇒ nothing and t ∈ follow
```

A form that begins with `t` need not lead on to tokens only, so symbols that derive no text at
all have first sets as well.
-/

namespace Glr

namespace Automaton.FirstSets

variable {g : FlatGrammar} {f : FirstSets} {p : Production} {s t : Symbol} {xs : List Symbol}
  {follow : TokenSet}

/-! ## What one production adds -/

theorem isNullable_apply (h : (f.apply p).isNullable s = true) :
    f.isNullable s = true ∨ p.lhs = s ∧ ∀ x ∈ p.rhs, f.isNullable x = true := by
  by_cases hs : p.lhs = s
  · by_cases hall : p.rhs.all f.isNullable = true
    · exact .inr ⟨hs, List.all_eq_true.mp hall⟩
    · rw [isNullable, apply, if_neg hall] at h
      exact .inl h
  · exact .inl ((apply_of_ne f hs).1 ▸ h)

theorem contains_firstOf_apply (h : ((f.apply p).firstOf s).contains t = true) :
    (f.firstOf s).contains t = true ∨
      p.lhs = s ∧ (f.firstOfAll TokenSet.empty p.rhs).contains t = true := by
  by_cases hs : p.lhs = s
  · rw [firstOf, apply, Array.getElem?_modify, if_pos hs] at h
    cases hi : f.first[s]? with
    | none => simp [hi, TokenSet.contains_empty] at h
    | some a =>
      rw [hi, Option.map_some, Option.getD_some, TokenSet.contains_union, Bool.or_eq_true] at h
      rw [firstOf, hi]
      exact h.symm.imp_right fun h => ⟨hs, h⟩
  · exact .inl ((apply_of_ne f hs).2 ▸ h)

/-! ## Soundness -/

/-- All that is known of symbols is right. -/
structure Sound (g : FlatGrammar) (f : FirstSets) : Prop where
  nullable : ∀ x, f.isNullable x = true → g.Sentential [x] []
  first : ∀ x t, (f.firstOf x).contains t = true → g.Begins [x] t

theorem Sound.firstOfAll (hf : f.Sound g) (h : (f.firstOfAll follow xs).contains t = true) :
    g.Begins xs t ∨ g.Sentential xs [] ∧ follow.contains t = true := by
  induction xs with
  | nil => exact .inr ⟨.refl, h⟩
  | cons x xs ih =>
    rw [FirstSets.firstOfAll] at h
    have hfirst (h : (f.firstOf x).contains t = true) : g.Begins (x :: xs) t :=
      FlatGrammar.begins_append_iff.mpr (.inl (hf.first x t h))
    split at h
    · rename_i hnull
      have hx := hf.nullable x hnull
      rw [TokenSet.contains_union, Bool.or_eq_true] at h
      rcases h with h | h
      · exact .inl (hfirst h)
      · exact (ih h).imp (fun h => FlatGrammar.begins_append_iff.mpr (.inr ⟨hx, h⟩))
          fun h => ⟨hx.append h.1, h.2⟩
    · exact .inl (hfirst h)

theorem Sound.apply (hf : f.Sound g) (hp : p ∈ g.productions) : (f.apply p).Sound g where
  nullable := by
    intro x hx
    rcases isNullable_apply hx with hx | ⟨rfl, hall⟩
    · exact hf.nullable x hx
    · have hrhs : g.Sentential p.rhs [] :=
        FlatGrammar.sentential_nil_iff.mpr fun x hx => hf.nullable x (hall x hx)
      exact (FlatGrammar.Sentential.of_production hp).trans hrhs
  first := by
    intro x t ht
    rcases contains_firstOf_apply ht with ht | ⟨hx, hrhs⟩
    · exact hf.first x t ht
    · rcases hf.firstOfAll hrhs with h | ⟨-, h⟩
      · exact hx ▸ h.trans (.of_production hp)
      · rw [TokenSet.contains_empty] at h
        contradiction

theorem Sound.round (hf : f.Sound g) : (round g f).Sound g := by
  have hfold (ps : List Production) (hps : ∀ p ∈ ps, p ∈ g.productions) (f : FirstSets)
      (hf : f.Sound g) : (ps.foldl FirstSets.apply f).Sound g := by
    induction ps generalizing f with
    | nil => exact hf
    | cons p ps ih =>
      obtain ⟨hp, hps⟩ := List.forall_mem_cons.mp hps
      exact ih hps _ (hf.apply hp)
  rw [round_eq]
  exact hfold _ (fun p hp => by simpa using hp) f hf

theorem Sound.saturate (fuel : Nat) (hf : f.Sound g) : (saturate g fuel f).Sound g := by
  induction fuel generalizing f with
  | zero => exact hf
  | succ fuel ih =>
    rw [FirstSets.saturate]
    by_cases h : FirstSets.round g f = f
    · simpa only [h, if_true] using hf
    · simpa only [h, if_false] using ih hf.round

theorem start_sound (g : FlatGrammar) : (start g).Sound g where
  nullable := by
    intro x hx
    by_cases hlt : x < g.symbols.size <;> simp [isNullable, start, hlt] at hx
  first := by
    intro x t ht
    by_cases hx : x < g.symbols.size ∧ g.isTerminal x = true
    · obtain rfl : x = t := by simpa [firstOf, start, hx, TokenSet.contains_singleton] using ht
      exact ⟨hx.2, [], .refl⟩
    · have hnone : (start g).firstOf x = TokenSet.empty := by
        by_cases hlt : x < g.symbols.size <;> simp_all [firstOf, start]
      rw [hnone, TokenSet.contains_empty] at ht
      contradiction

/-! ## Rounds -/

/-- Rounds after which nothing is added are the last ones. -/
theorem exists_iterate_round (g : FlatGrammar) (fuel : Nat) (f : FirstSets) :
    ∃ n ≤ fuel, (FirstSets.round g)^[n] f = saturate g fuel f := by
  induction fuel generalizing f with
  | zero => exact ⟨0, Nat.le_refl 0, rfl⟩
  | succ fuel ih =>
    rw [FirstSets.saturate]
    by_cases h : FirstSets.round g f = f
    · exact ⟨0, Nat.zero_le _, by simp only [h, if_true, Function.iterate_zero, id_eq]⟩
    · obtain ⟨n, hn, heq⟩ := ih (FirstSets.round g f)
      refine ⟨n + 1, Nat.succ_le_succ hn, ?_⟩
      rw [Function.iterate_succ_apply, heq]
      simp only [h, if_false]

/-! ## Exactness -/

/-- Tokens that can come first, as `firstOfAll` tells them, for first sets that are right and to
which nothing can be added. -/
theorem Sound.contains_firstOfAll_iff (hf : f.Sound g) (hclosed : f.Closed g) :
    (f.firstOfAll follow xs).contains t = true ↔
      g.Begins xs t ∨ g.Sentential xs [] ∧ follow.contains t = true := by
  refine ⟨hf.firstOfAll, ?_⟩
  rintro (⟨hterm, w, hw⟩ | ⟨hw, ht⟩)
  · have hforms := FlatGrammar.sentential_iff_forms.mp hw
    exact (hclosed.contains_firstOfAll hforms).2 follow t (.inl ⟨rfl, hterm⟩)
  · have hforms := FlatGrammar.sentential_iff_forms.mp hw
    exact (hclosed.contains_firstOfAll hforms).2 follow t (.inr ⟨rfl, ht⟩)

theorem Sound.isNullable_iff (hf : f.Sound g) (hclosed : f.Closed g) :
    f.isNullable s = true ↔ g.Sentential [s] [] := by
  refine ⟨hf.nullable s, fun h => ?_⟩
  have hforms := FlatGrammar.sentential_iff_forms.mp h
  exact (hclosed.contains_firstOfAll hforms).1 rfl s (List.mem_singleton_self s)

/-- A symbol begins with a token of its first set, also one that is no symbol of the grammar. -/
theorem Sound.contains_firstOf_iff (hf : f.Sound g) (hclosed : f.Closed g) :
    (f.firstOf s).contains t = true ↔ g.Begins [s] t := by
  refine ⟨hf.first s t, fun h => ?_⟩
  have h : (f.firstOfAll TokenSet.empty [s]).contains t = true :=
    (hf.contains_firstOfAll_iff hclosed).mpr (.inl h)
  rw [FirstSets.firstOfAll, FirstSets.firstOfAll] at h
  split at h
  · simpa [TokenSet.contains_union, TokenSet.contains_empty] using h
  · exact h

/-- An element of a set of tokens stands behind the symbols: whether it comes first or a token that
the symbols turn into does. -/
theorem exists_begins_append_iff (hrule : ∀ p ∈ g.productions, g.isTerminal p.lhs = false)
    (hfollow : ∀ a, follow.contains a = true → g.isTerminal a = true)
    (hne : ∃ a, follow.contains a = true) :
    (∃ a, follow.contains a = true ∧ g.Begins (xs ++ [a]) t) ↔
      g.Begins xs t ∨ g.Sentential xs [] ∧ follow.contains t = true := by
  have hself {a : Symbol} (ha : follow.contains a = true) : g.Begins [a] t ↔ t = a := by
    refine FlatGrammar.begins_token_iff (hfollow a ha) fun p hp hlhs => ?_
    have hterm := hfollow a ha
    rw [← hlhs, hrule p hp] at hterm
    contradiction
  constructor
  · rintro ⟨a, ha, h⟩
    rw [FlatGrammar.begins_append_iff, hself ha] at h
    exact h.imp_right fun ⟨hx, hta⟩ => ⟨hx, hta ▸ ha⟩
  · obtain ⟨a, ha⟩ := hne
    rintro (h | ⟨hx, ht⟩)
    · exact ⟨a, ha, FlatGrammar.begins_append_iff.mpr (.inl h)⟩
    · exact ⟨t, ht, FlatGrammar.begins_append_iff.mpr (.inr ⟨hx, (hself ht).mpr rfl⟩)⟩

/-! ## The first sets of a grammar -/

theorem ofGrammar_sound (g : FlatGrammar) : (ofGrammar g).Sound g := (start_sound g).saturate _

theorem closed_of_wellFormed (hg : g.WellFormed) : (ofGrammar g).Closed g := by
  refine ofGrammar_closed fun p hp => ?_
  obtain ⟨info, hinfo, -⟩ := (hg.productions p hp).lhs
  exact (Array.getElem?_eq_some_iff.mp hinfo).1

/-- What holds of the first sets of a grammar that was made from rules.  The rounds end, after no
more of them than there are facts and one.  Then those symbols are nullable that turn into
nothing, and the first set of a symbol has the tokens that come first in what it turns into.  The
tokens that some symbols before a set of tokens begin with are those that come first in what they
turn into, with those of the set if they turn into nothing; an element of the set that stands
behind the symbols makes no other token come first. -/
theorem ofGrammar_exact {grammar : Grammar} {g : FlatGrammar}
    (hg : FlatGrammar.ofGrammar grammar = .ok g) :
    let f := ofGrammar g
    (∃ n ≤ bound g + 1, (FirstSets.round g)^[n] (start g) = f ∧ FirstSets.round g f = f) ∧
    (∀ x, f.isNullable x = true ↔ g.Sentential [x] []) ∧
    (∀ x t, (f.firstOf x).contains t = true ↔ g.Begins [x] t) ∧
    ∀ (xs : List Symbol) (follow : TokenSet) (t : Symbol),
      ((f.firstOfAll follow xs).contains t = true ↔
        g.Begins xs t ∨ g.Sentential xs [] ∧ follow.contains t = true) ∧
      ((∀ a, follow.contains a = true → g.isTerminal a = true) →
        (∃ a, follow.contains a = true) →
        ((f.firstOfAll follow xs).contains t = true ↔
          ∃ a, follow.contains a = true ∧ g.Begins (xs ++ [a]) t)) := by
  intro f
  have hwell := FlatGrammar.ofGrammar_wellFormed hg
  have hsound : f.Sound g := ofGrammar_sound g
  have hclosed : f.Closed g := closed_of_wellFormed hwell
  have hrule : ∀ p ∈ g.productions, g.isTerminal p.lhs = false := fun p hp =>
    FlatGrammar.isTerminal_of_isRule (hwell.productions p hp).lhs
  obtain ⟨n, hn, hrounds⟩ := exists_iterate_round g (bound g + 1) (start g)
  have hlast : FirstSets.round g f = f :=
    round_saturate _ (start_fits g) (Nat.lt_succ_of_le (potential_le g _))
  refine ⟨⟨n, hn, hrounds, hlast⟩, fun x => hsound.isNullable_iff hclosed,
    fun x t => hsound.contains_firstOf_iff hclosed, fun xs follow t =>
    ⟨hsound.contains_firstOfAll_iff hclosed, fun hfollow hne => ?_⟩⟩
  rw [hsound.contains_firstOfAll_iff hclosed, exists_begins_append_iff hrule hfollow hne]

end Automaton.FirstSets

/-- Two rules that begin with each other and can both be empty. -/
def Grammar.mutual : Grammar :=
  { name := "mutual", extras := some [] : Grammar }
    |>.addRule "s" (.seq [.sym "x", .sym "y", .string "c"])
    |>.addRule "x" (.choice [.blank, .seq [.sym "y", .string "a"]])
    |>.addRule "y" (.choice [.sym "x", .seq [.sym "x", .string "b"]])

namespace Automaton.FirstSets

/-- The rules `x` and `y` are symbols 5 and 6, and the tokens `c`, `a` and `b` are 1, 2 and 3. -/
theorem ofGrammar_exact_mutual : ∃ g, FlatGrammar.ofGrammar .mutual = .ok g ∧
    g.Sentential [6] [] ∧ g.Begins [5] 3 ∧ ¬g.Begins [5] 1 ∧
    ∃ a, (TokenSet.singleton 1).contains a = true ∧ g.Begins ([5, 6] ++ [a]) 1 := by
  have hchecks : (FlatGrammar.ofGrammar .mutual).toOption.any (fun g =>
      (ofGrammar g).isNullable 6 && ((ofGrammar g).firstOf 5).contains 3 &&
        !((ofGrammar g).firstOf 5).contains 1 && g.isTerminal 1 &&
        ((ofGrammar g).firstOfAll (.singleton 1) [5, 6]).contains 1) = true := by
    decide +kernel
  obtain ⟨g, hg, hchecks⟩ := exists_ok hchecks
  simp only [Bool.and_eq_true, Bool.not_eq_true'] at hchecks
  obtain ⟨⟨⟨⟨hnull, hb⟩, hc⟩, hterm⟩, hfollow⟩ := hchecks
  obtain ⟨-, hnullable, hfirst, hall⟩ := ofGrammar_exact hg
  refine ⟨g, hg, (hnullable 6).mp hnull, (hfirst 5 3).mp hb, fun h => ?_, ?_⟩
  · have hc' := (hfirst 5 1).mpr h
    rw [hc] at hc'
    exact Bool.false_ne_true hc'
  · obtain ⟨-, hbehind⟩ := hall [5, 6] (TokenSet.singleton 1) 1
    refine (hbehind (fun a ha => ?_) ⟨1, rfl⟩).mp hfollow
    rw [TokenSet.contains_singleton, decide_eq_true_eq] at ha
    exact ha ▸ hterm

end Automaton.FirstSets

end Glr
