import Glr.Proofs.Automaton.Operators
import Glr.Proofs.Automaton.Resolved
import Glr.Proofs.Recognition

/-!
# Glr.Proofs.Precedence

How the table of a grammar of infix operators decides between two operators.  Past an operand,
with the token of `o'` next,

```
E o E . o' …      reduces  o   only if  o'  allows  o   as its left operand
                  shifts   o'  only if  o   allows  o'  as its right operand
```

and there is always something to do on the end of the input and on the token of an operator.
-/

namespace Glr

open Automaton

/-! ## Precedence -/

namespace Operator

variable {o o' : Operator} {start t : Symbol}

/-- The right operand of an operator may be a node of another one: that binds tighter, or as
tight and the operators associate to the right. -/
def AllowsRight (o o' : Operator) : Prop :=
  o.level < o'.level ∨ o.level = o'.level ∧ o.associativity = .right

/-- The left operand of an operator may be a node of another one: that binds tighter, or as
tight and the operators associate to the left. -/
def AllowsLeft (o o' : Operator) : Prop :=
  o.level < o'.level ∨ o.level = o'.level ∧ o'.associativity = .left

/-- A level is a precedence of a step. -/
theorem lowestPrecedence_le (o : Operator) : lowestPrecedence ≤ o.level.toInt := by
  simpa [lowestPrecedence] using Int32.le_toInt o.level

/-- Where a reduction does not win against the shift of an operator, the operator is allowed on
the right. -/
theorem allowsRight_of_verdict
    (h : verdict (o.production start t) o'.level.toInt ≠ .reduce) : o.AllowsRight o' := by
  rcases Int.lt_trichotomy o.level.toInt o'.level.toInt with hlt | heq | hgt
  · exact .inl (Int32.lt_iff_toInt_lt.mpr hlt)
  · refine .inr ⟨Int32.toInt_inj.mp heq, ?_⟩
    cases ha : o.associativity with
    | left => simp [verdict, production, heq, ha] at h
    | right => rfl
  · simp [verdict, production, hgt] at h

/-- Where a reduction does not lose against the shift of an operator, its operator is allowed
on the left of that. -/
theorem allowsLeft_of_verdict
    (h : verdict (o.production start t) o'.level.toInt ≠ .shift) : o'.AllowsLeft o := by
  rcases Int.lt_trichotomy o'.level.toInt o.level.toInt with hlt | heq | hgt
  · exact .inl (Int32.lt_iff_toInt_lt.mpr hlt)
  · refine .inr ⟨Int32.toInt_inj.mp heq, ?_⟩
    cases ha : o.associativity with
    | left => rfl
    | right => simp [verdict, production, heq, ha] at h
  · simp [verdict, production, hgt, Int.lt_asymm hgt] at h

end Operator

namespace FlatGrammar

variable {g : FlatGrammar} {start : String} {ops : List Operator} {o o' : Operator}
  {t x a : Symbol} {p : Nat} {q q' : StateId} {steps : List (Symbol × StateId)} {k : Kernel}

theorem Delimits.isTerminal (hg : g.WellFormed) (h : g.Delimits ops t) : g.isTerminal t = true := by
  rcases h with rfl | ⟨o, ho⟩
  · exact Basis.isTerminal_ofGrammar.symm.trans (Basis.ofGrammar_sound hg).endToken
  · exact isTerminal_of_isToken ho.token

/-! ## Items past an operand -/

section

variable (hg : g.WellFormed) (h : g.Infix start ops)

include hg h

/-- Before an operand, the productions of all operators begin, and every token that follows
operands follows them. -/
theorem Infix.stands_start (hs : Path g.states.Edge ((g.start, q) :: steps))
    (hp : g.basis.production? p = some (o.production g.start t)) (ha : g.Delimits ops a) :
    ItemSets.Stands g.basis g.states (lastState steps) ⟨p, 0⟩ a := by
  have hb := Basis.ofGrammar_sound hg
  have hinv := hg.states_inv
  cases hs with
  | cons hs he =>
    obtain ⟨k, -, hk, -, hnext, -⟩ := hinv.kernels_of_edge he
    obtain ⟨z, hz, hn⟩ := (Basis.mem_nextSymbols_closure hb (hinv.kernels _ _ hk)).mp hnext
    have hx : Implied g.basis (core k) ⟨p, 0⟩ := by
      refine .demand hz hn ?_ (h.mem_byLhs hp rfl)
      rw [Basis.isTerminal_ofGrammar, isTerminal_of_isRule h.isRule_start]
    obtain ⟨hend, hops⟩ := h.follows hg hs hk hx
    refine (ItemSets.stands_iff_follows hb hinv hk).mpr ?_
    rcases ha with rfl | ⟨o', ho'⟩
    · exact hend
    · refine hops (fun hz => ?_) o' a ho'
      obtain rfl : p = 0 := hz
      contradiction

/-- Past an operand, the operators can come. -/
theorem Infix.stands_operand (hs : Path g.states.Edge ((g.start, q) :: steps))
    (hp : g.basis.production? p = some (o.production g.start t)) (ha : g.Delimits ops a) :
    ItemSets.Stands g.basis g.states q ⟨p, 1⟩ a := by
  have hstart := h.stands_start hg hs hp ha
  cases hs with
  | cons hs he =>
    exact hstart.advance_edge (Basis.ofGrammar_sound hg) hg.states_inv hg.states_settled
      (next?_operator hp 0) he

/-- Past the second operand of an operator, its production is complete. -/
theorem Infix.stands_complete {q₁ q₂ q₃ : StateId}
    (hs : Path g.states.Edge ((g.start, q₃) :: (t, q₂) :: (g.start, q₁) :: steps))
    (hp : g.basis.production? p = some (o.production g.start t)) (ha : g.Delimits ops a) :
    ItemSets.Stands g.basis g.states q₃ ⟨p, 3⟩ a := by
  have hb := Basis.ofGrammar_sound hg
  have hadvance {x : Symbol} {d : Nat} {q q' : StateId}
      (hx : ItemSets.Stands g.basis g.states q ⟨p, d⟩ a)
      (hn : [g.start, t, g.start][d]? = some x) (he : g.states.Edge q x q') :
      ItemSets.Stands g.basis g.states q' ⟨p, d + 1⟩ a :=
    hx.advance_edge hb hg.states_inv hg.states_settled ((next?_operator hp d).trans hn) he
  cases hs with
  | cons hs he₃ =>
    cases hs with
    | cons hs he₂ => exact hadvance (hadvance (h.stands_operand hg hs hp ha) rfl he₂) rfl he₃

/-- Past an operand, some item is complete before the end of the input. -/
theorem Infix.stands_end (hs : Path g.states.Edge ((g.start, q) :: steps)) :
    ∃ x, g.basis.next? x = none ∧ ItemSets.Stands g.basis g.states q x endSymbol := by
  have hb := Basis.ofGrammar_sound hg
  have hinv := hg.states_inv
  cases hs with
  | cons hs he =>
    obtain ⟨k, -, hk, -, hnext, -⟩ := hinv.kernels_of_edge he
    obtain ⟨z, hz, hn⟩ := (Basis.mem_nextSymbols_closure hb (hinv.kernels _ _ hk)).mp hnext
    -- the item that asks for the operand ends with it
    obtain ⟨z, hz, ha⟩ : ∃ z, Implied g.basis (core k) z ∧ g.basis.after z = [g.start] := by
      rcases (h.kind_of_implied hg hk hz).next?_start h hn with hd | ⟨hd, o, t, -, hp⟩
      · obtain ⟨-, z, hz, ha⟩ := h.exists_root hg hs hk hz hd
        exact ⟨z, .kernel hz, ha⟩
      · obtain ⟨z, d⟩ := z
        obtain rfl : d = 2 := hd
        exact ⟨_, hz, after_operator hp 2⟩
    obtain ⟨hend, -⟩ := h.follows hg hs hk hz
    have hstands := (ItemSets.stands_iff_follows hb hinv hk).mpr hend
    refine ⟨⟨z.production, z.dot + 1⟩, ?_,
      hstands.advance_edge hb hinv hg.states_settled (Basis.next?_of_after ha) he⟩
    rw [Basis.next?, Basis.after_succ ha]
    rfl

/-- Past an operand, what shifts the token of an operator is its production. -/
theorem Infix.precedence_of_shift (hs : Path g.states.Edge ((g.start, q) :: steps))
    (hk : g.states.kernels[q]? = some k) (ho : g.Operates ops o x) :
    ∀ v, (x, v) ∈ (Offers.ofKernel g.basis k).shifts → v.1 = o.level.toInt := by
  have hb := Basis.ofGrammar_sound hg
  have hk : g.states.kernels[lastState ((g.start, q) :: steps)]? = some k := hk
  refine Offers.precedence_of_shift o.lowestPrecedence_le fun i hi hn prod hprod => ?_
  have hx := (Basis.mem_closure_iff hb (hg.states_inv.kernels _ _ hk).tokens).mp ⟨i, hi, rfl⟩
  rcases (h.kind_of_implied hg hk hx).next? hn with ⟨rfl, -⟩ | ⟨hd, o', ho', hp⟩ | ⟨hd, -, -⟩
  · exact absurd rfl (h.ne_start ho.token)
  · obtain rfl := h.operator_unique ho ho'
    obtain rfl := Option.some.inj (hprod.symm.trans hp)
    rw [hd]
    rfl
  · -- an atom stands where an operand begins
    obtain ⟨hopen, -⟩ := h.exists_root hg hs hk hx hd
    cases hopen with
    | operator ho' => exact absurd rfl (h.ne_start ho'.token)

/-- What is complete at the end of a path: an operator between its operands, or an atom. -/
inductive Complete (g : FlatGrammar) (ops : List Operator) (p : Nat) :
    List (Symbol × StateId) → Prop where
  | operator {o : Operator} {t : Symbol} {q₁ q₂ q₃ : StateId} {steps : List (Symbol × StateId)}
      (ho : g.Operates ops o t) (hp : g.basis.production? p = some (o.production g.start t))
      (hopen : g.Open ops steps) :
      Complete g ops p ((g.start, q₃) :: (t, q₂) :: (g.start, q₁) :: steps)
  | token {t : Symbol} {q : StateId} {steps : List (Symbol × StateId)} (ht : IsToken g.symbols t)
      (hp : g.basis.production? p = some (.ofToken g.start t)) (hopen : g.Open ops steps) :
      Complete g ops p ((t, q) :: steps)

theorem Infix.complete (hs : Path g.states.Edge steps)
    (hk : g.states.kernels[lastState steps]? = some k) {y : Item}
    (hy : Implied g.basis (core k) y) (hn : g.basis.next? y = none) (hp : y.production ≠ 0) :
    g.Complete ops y.production steps := by
  have hb := Basis.ofGrammar_sound hg
  have hks := hg.states_inv.kernels _ _ hk
  have hd := Language.Sound.dot_eq_of_next?_eq_none (Basis.Implied.hasItem hb hks hy) hn
  have hkind := h.kind_of_implied hg hk hy
  obtain ⟨p, d⟩ := y
  obtain ⟨hle, hspelled, k', hk', hroot⟩ := ItemSets.Path.unfold hb hg.states_inv hs hk hy
  obtain ⟨hopen, -⟩ := h.exists_root hg (hs.drop d) hk' hroot rfl
  simp only at hd hp hkind
  cases hkind with
  | start => exact absurd rfl hp
  | @operator o t _ ho hp =>
    rw [rhs_of_production? hp, Operator.rhs_production] at hd hspelled
    obtain rfl : d = 3 := hd
    rcases steps with _ | ⟨⟨a, q₃⟩, _ | ⟨⟨b, q₂⟩, _ | ⟨⟨c, q₁⟩, rest⟩⟩⟩
    · simp at hle
    · simp at hle
    · simp at hle
    · obtain ⟨rfl, rfl, rfl⟩ : c = g.start ∧ b = t ∧ a = g.start := by
        simpa [spelled] using hspelled
      exact .operator ho hp hopen
  | @token t _ ht hp =>
    rw [rhs_of_production? hp, Production.rhs_ofToken] at hd hspelled
    obtain rfl : d = 1 := hd
    rcases steps with _ | ⟨⟨a, q⟩, rest⟩
    · simp at hle
    · obtain rfl : a = t := by simpa [spelled] using hspelled
      exact .token ht hp hopen

end

/-! ## Actions -/

variable {l : Language} {name : String} (hl : l.Sound g) (htable : l.table = (g.table name).1)
  (h : g.Infix start ops)

include hl htable h

/-- Past an operand there is something to do on every token that follows operands. -/
theorem Infix.actions_ne_nil (hs : Path l.Edge ((g.start, q) :: steps)) (hx : g.Delimits ops x) :
    l.actions q x ≠ [] := by
  have hg := hl.grammar
  have hs := hs.mono fun _ _ _ => hl.edge
  have hstart := isTerminal_of_isRule h.isRule_start
  have hterminal := hx.isTerminal hg
  rcases hx with rfl | ⟨o, ho⟩
  · obtain ⟨x, hn, k, i, hk, hi, rfl, hlook⟩ := h.stands_end hg hs
    have hoffer : ∃ offer, g.basis.offer? i endSymbol = some offer := by
      unfold Basis.offer?
      simp only [hn]
      split
      · exact ⟨.accept, by simp⟩
      · exact ⟨_, if_pos hlook⟩
    obtain ⟨offer, hoffer⟩ := hoffer
    exact Language.actions_ne_nil hg htable hstart hk hi hterminal hoffer
  · obtain ⟨p, hp⟩ := ho.exists_production
    obtain ⟨k, i, hk, hi, hitem, -⟩ := h.stands_operand hg hs hp (.inl rfl)
    have hn : g.basis.next? i.item = some x := hitem ▸ next?_operator hp 1
    refine Language.actions_ne_nil hg htable hstart hk hi hterminal (o := .shift) ?_
    simp [Basis.offer?, hn, Basis.isTerminal_ofGrammar, hterminal]

/-- A shift of an operator past another one is left only if that allows the operator on its
right. -/
theorem Infix.allowsRight_of_shift {target q₁ q₂ q₃ : StateId} {below : List (Symbol × StateId)}
    (hs : Path l.Edge ((g.start, q₃) :: (t, q₂) :: (g.start, q₁) :: below))
    (ho : g.Operates ops o t) (ho' : g.Operates ops o' x) (ha : .shift target ∈ l.actions q₃ x) :
    o.AllowsRight o' := by
  have hg := hl.grammar
  have hb := Basis.ofGrammar_sound hg
  have hs := hs.mono fun _ _ _ => hl.edge
  obtain ⟨p, hp⟩ := ho.exists_production
  obtain ⟨k, i, hk, hi, hitem, hlook⟩ := h.stands_complete hg hs hp (.inr ⟨o', ho'⟩)
  have hks := hg.states_inv.kernels _ _ hk
  obtain ⟨ts, hts⟩ := hg.exists_transitions hk
  have hterminal := isTerminal_of_isToken ho'.token
  rw [Language.actions_of_table hg htable hk hts hterminal] at ha
  split at ha
  case isFalse => contradiction
  obtain ⟨v, hv, hverdict⟩ := Cells.verdict_of_shift ha
  have hlists : (Offers.ofKernel g.basis k).Lists x p := by
    have hn : g.basis.next? i.item = none := hitem ▸ next?_operator hp 3
    have hpos : i.item.production ≠ 0 := by
      rw [hitem]
      rintro rfl
      contradiction
    have hlists := Offers.ofKernel_lists hb hks hi hn hpos hlook
    rwa [hitem] at hlists
  -- no other production is complete here
  have hbest (p' : Nat) (prod' : Production) (hp' : (Offers.ofKernel g.basis k).Lists x p')
      (hprod' : g.basis.production? p' = some prod') :
      prod'.precedence ≤ (o.production g.start t).precedence := by
    obtain ⟨hne, i', hi', hn', rfl⟩ := (Offers.ofKernel_from g.basis k).of_lists hp'
    have himplied := (Basis.mem_closure_iff hb hks.tokens).mp ⟨i', hi', rfl⟩
    cases h.complete hg hs hk himplied hn' hne with
    | operator ho₁ hp₁ =>
      obtain rfl := h.operator_unique ho ho₁
      obtain rfl := Option.some.inj (hprod'.symm.trans hp₁)
      exact Int.le_refl _
    | token ht₁ => exact absurd rfl (h.ne_start ht₁)
  have hverdict := hverdict p _ hlists hp hbest
  rw [h.precedence_of_shift hg hs hk ho' v hv] at hverdict
  exact Operator.allowsRight_of_verdict hverdict

/-- A reduction of an operator before another one is left only if that allows the operator on
its left. -/
theorem Infix.allowsLeft_of_reduce (hs : Path l.Edge ((g.start, q) :: steps))
    (hp : g.basis.production? (p + 1) = some (o.production g.start t))
    (ho' : g.Operates ops o' x) (ha : .reduce p ∈ l.actions q x) : o'.AllowsLeft o := by
  have hg := hl.grammar
  have hb := Basis.ofGrammar_sound hg
  have hs := hs.mono fun _ _ _ => hl.edge
  obtain ⟨p', hp'⟩ := ho'.exists_production
  obtain ⟨k, i, hk, hi, hitem, -⟩ := h.stands_operand hg hs hp' (.inl rfl)
  have hks := hg.states_inv.kernels _ _ hk
  obtain ⟨ts, hts⟩ := hg.exists_transitions hk
  have hterminal := isTerminal_of_isToken ho'.token
  rw [Language.actions_of_table hg htable hk hts hterminal] at ha
  split at ha
  case isFalse => contradiction
  -- the token can be shifted, and there is a state after it
  have hn : g.basis.next? i.item = some x := hitem ▸ next?_operator hp' 1
  have hhas : (Offers.ofKernel g.basis k).Has x .shift := by
    refine Offers.ofKernel_has hb hks hi ?_ fun _ => ?_
    · simp [Basis.offer?, hn, Basis.isTerminal_ofGrammar, hterminal]
    · rw [hitem, hp']
      rfl
  obtain ⟨v, hv⟩ := exists_lookup hhas
  obtain ⟨ts', target, -, hts', hm, -⟩ :=
    hg.states_settled q k hk x (Basis.mem_nextSymbols.mpr ⟨i, hi, hn⟩)
  obtain rfl := Option.some.inj (hts.symm.trans hts')
  obtain ⟨target, htarget⟩ := exists_lookup (List.mem_map_of_mem hm)
  obtain ⟨prod, hprod, hverdict⟩ := Cells.verdict_of_reduce ha hv htarget
  obtain rfl := Option.some.inj (hp.symm.trans hprod)
  rw [h.precedence_of_shift hg hs hk ho' v (mem_of_lookup hv)] at hverdict
  exact Operator.allowsLeft_of_verdict hverdict

omit htable in
/-- What is shifted is the token of an operator past an operand, or an atom where an operand
begins. -/
theorem Infix.of_shift {target : StateId} (hs : Path l.Edge steps)
    (ha : .shift target ∈ l.actions (lastState steps) x) :
    (∃ o q rest, g.Operates ops o x ∧ steps = (g.start, q) :: rest) ∨ g.Open ops steps := by
  have hg := hl.grammar
  have hb := Basis.ofGrammar_sound hg
  have htoken := hl.isToken_of_shift ha
  obtain ⟨k, ts, hk, -, hc⟩ := hl.calls _ x _ ha
  have hs := hs.mono fun _ _ _ => hl.edge
  cases hc with
  | shift _ hi =>
    obtain ⟨i, hi, hn, -⟩ := hi
    have hx := (Basis.mem_closure_iff hb (hg.states_inv.kernels _ _ hk).tokens).mp ⟨i, hi, rfl⟩
    rcases (h.kind_of_implied hg hk hx).next? hn with ⟨rfl, -⟩ | ⟨hd, o, ho, hp⟩ | ⟨hd, -, -⟩
    · exact absurd rfl (h.ne_start htoken)
    · obtain ⟨⟨p, d⟩, look⟩ := i
      obtain rfl : d = 1 := hd
      obtain ⟨hle, hspelled, -⟩ := ItemSets.Path.unfold hb hg.states_inv hs hk hx
      rw [rhs_of_production? hp, Operator.rhs_production] at hspelled
      rcases steps with _ | ⟨⟨a, q⟩, rest⟩
      · simp at hle
      · obtain rfl : a = g.start := by simpa [spelled] using hspelled
        exact .inl ⟨o, q, rest, ho, rfl⟩
    · exact .inr (h.exists_root hg hs hk hx hd).1

omit htable in
/-- What is reduced is complete, and the token after it follows operands. -/
theorem Infix.of_reduce (hs : Path l.Edge steps)
    (ha : .reduce p ∈ l.actions (lastState steps) x) :
    g.Delimits ops x ∧ g.Complete ops (p + 1) steps := by
  have hg := hl.grammar
  have hb := Basis.ofGrammar_sound hg
  obtain ⟨k, ts, hk, -, hc⟩ := hl.calls _ x _ ha
  have hs := hs.mono fun _ _ _ => hl.edge
  cases hc with
  | @reduce _ i hi hn hp _ hlook =>
    have hks := hg.states_inv.kernels _ _ hk
    have hx := (Basis.mem_closure_iff hb hks.tokens).mp ⟨i, hi, rfl⟩
    have hfollows := (Basis.exists_mem_closure_iff hb hks.tokens).mp ⟨i, hi, rfl, hlook⟩
    refine ⟨h.follows_delimits hg (h.states_range hg hk) hfollows, ?_⟩
    have hcomplete := h.complete hg hs hk hx hn (by rw [hp]; exact Nat.succ_ne_zero p)
    rwa [hp] at hcomplete

end FlatGrammar

end Glr
