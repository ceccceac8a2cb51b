import Glr.Proofs.Parse.Derived
import Glr.Proofs.Precedence

/-!
# Glr.Proofs.Parse.Ordered

A parse with a grammar of infix operators.  In a derivation every operator has operands that it
allows.  On the stack operators wait for their right operands, each inside the one before it:

```
d₁  o₁  d₂  o₂  …  dₙ        oᵢ allows dᵢ on its left,  oᵢ allows oᵢ₊₁ and dᵢ₊₁ on its right
```

A reduction makes one operand of the last two and the operator between them.

A hypothesis is faulty once it has skipped a token or has a node that costs something, and stays
so; as long as it is not, its operators are in order:

```
not faulty   ↦   nodes show  d₁  o₁  d₂  o₂  …      faulty   ↦   faulty
```

So an outcome without errors shows a derivation in which every operator has operands that it
allows.
-/

namespace Glr

open Automaton

variable {g : FlatGrammar} {start : String} {ops : List Operator} {o o' : Operator}
  {d left right : Derivation} {ds rest : List Derivation} {t x : Symbol} {p : Nat}
  {steps : List (Symbol × StateId)}

/-! ## Derivations -/

namespace Derivation

/-- The production of an operator is at the root. -/
def JoinedBy (g : FlatGrammar) (ops : List Operator) (o : Operator) (d : Derivation) : Prop :=
  ∃ t below, g.Operates ops o t ∧ d = .node (o.production g.start t) below

/-- Every operator has operands that it allows. -/
inductive Nested (g : FlatGrammar) (ops : List Operator) : Derivation → Prop where
  | operator {o : Operator} {t : Symbol} {left right : Derivation} (ho : g.Operates ops o t)
      (hl : Nested g ops left) (hr : Nested g ops right)
      (hleft : ∀ k, left.JoinedBy g ops k → o.AllowsLeft k)
      (hright : ∀ k, right.JoinedBy g ops k → o.AllowsRight k) :
      Nested g ops (.node (o.production g.start t) [left, .token t, right])
  | atom {t : Symbol} (ht : IsToken g.symbols t) (hp : .ofToken g.start t ∈ g.productions) :
      Nested g ops (.node (.ofToken g.start t) [.token t])

theorem Nested.symbol (h : d.Nested g ops) : d.symbol = g.start := by
  cases h with
  | operator => rfl
  | atom => rfl

theorem Nested.valid (h : d.Nested g ops) : d.Valid g := by
  induction h with
  | @operator o t left right ho hl hr _ _ ihl ihr =>
    refine .node ho.production ?_ (by simpa using ⟨ihl, .token ho.token, ihr⟩)
    show [left.symbol, t, right.symbol] = _
    rw [hl.symbol, hr.symbol, Operator.rhs_production]
  | atom ht hp => exact .node hp rfl (by simpa using .token ht)

theorem Nested.eq_node (h : d.Nested g ops) : ∃ p below, d = .node p below := by
  cases h with
  | operator => exact ⟨_, _, rfl⟩
  | atom => exact ⟨_, _, rfl⟩

/-- Operands are nested themselves. -/
theorem Nested.of_mem {q : Production} {below : List Derivation}
    (h : (Derivation.node q ds).Nested g ops) {q' : Production} (hm : .node q' below ∈ ds) :
    (Derivation.node q' below).Nested g ops := by
  cases h with
  | operator _ hl hr =>
    rcases (by simpa using hm : _ ∨ _) with he | he
    · exact he ▸ hl
    · exact he ▸ hr
  | atom => simp at hm

/-- The operator at a root is told by its token. -/
theorem JoinedBy.eq (h : g.Infix start ops) (ho : g.Operates ops o t)
    (hj : (Derivation.node (o.production g.start t) ds).JoinedBy g ops o') : o' = o := by
  obtain ⟨t', below, ho', he⟩ := hj
  have hrhs := congrArg Production.rhs (Derivation.node.inj he).1
  obtain rfl : t = t' := by simpa using hrhs
  exact h.operator_unique ho' ho

theorem not_joinedBy_atom : ¬ (Derivation.node (.ofToken g.start t) ds).JoinedBy g ops o := by
  rintro ⟨t', below, -, he⟩
  have hrhs := congrArg Production.rhs (Derivation.node.inj he).1
  simp at hrhs

/-- The operands of an operator at a root. -/
theorem Nested.operands (h : g.Infix start ops) (ho : g.Operates ops o t)
    (hd : (Derivation.node (o.production g.start t) [left, .token t, right]).Nested g ops) :
    left.Nested g ops ∧ right.Nested g ops ∧ (∀ k, left.JoinedBy g ops k → o.AllowsLeft k) ∧
      ∀ k, right.JoinedBy g ops k → o.AllowsRight k := by
  generalize he : Derivation.node (o.production g.start t) [left, .token t, right] = d at hd
  cases hd with
  | @operator o' t' left' right' ho' hl hr hleft hright =>
    obtain rfl := JoinedBy.eq h ho ⟨t', _, ho', he⟩
    obtain ⟨rfl, -, rfl⟩ : left = left' ∧ t = t' ∧ right = right' := by
      simpa using (Derivation.node.inj he).2
    exact ⟨hl, hr, hleft, hright⟩
  | atom => simp at he

end Derivation

/-! ## Stacks -/

namespace FlatGrammar

/-- The operator that waits on top of a stack. -/
def Waits (g : FlatGrammar) (ops : List Operator) (o : Operator) (ds : List Derivation) : Prop :=
  ∃ t rest, g.Operates ops o t ∧ ds = .token t :: rest

/-- An operand that the operator below it, if any, allows on its right. -/
structure Operand (g : FlatGrammar) (ops : List Operator) (d : Derivation)
    (rest : List Derivation) : Prop where
  nested : d.Nested g ops
  allowed : ∀ o, g.Waits ops o rest → ∀ k, d.JoinedBy g ops k → o.AllowsRight k

/-- A stack, its top first, that waits for an operand. -/
inductive Waiting (g : FlatGrammar) (ops : List Operator) : List Derivation → Prop where
  | nil : Waiting g ops []
  | operator {o : Operator} {t : Symbol} {d : Derivation} {rest : List Derivation}
      (h : Waiting g ops rest) (hd : g.Operand ops d rest) (ho : g.Operates ops o t)
      (hleft : ∀ k, d.JoinedBy g ops k → o.AllowsLeft k)
      (hright : ∀ o', g.Waits ops o' rest → o'.AllowsRight o) :
      Waiting g ops (.token t :: d :: rest)

/-- A stack, its top first: it waits for an operand, or has one or an atom on top. -/
inductive Tidy (g : FlatGrammar) (ops : List Operator) : List Derivation → Prop where
  | waiting {ds : List Derivation} (h : Waiting g ops ds) : Tidy g ops ds
  | operand {d : Derivation} {rest : List Derivation} (h : Waiting g ops rest)
      (hd : g.Operand ops d rest) : Tidy g ops (d :: rest)
  | atom {t : Symbol} {rest : List Derivation} (h : Waiting g ops rest)
      (ht : IsToken g.symbols t) : Tidy g ops (.token t :: rest)

theorem Waiting.valid (h : g.Waiting ops ds) : ∀ d ∈ ds, d.Valid g := by
  induction h with
  | nil => simp
  | operator _ hd ho _ _ ih => simpa using ⟨.token ho.token, hd.nested.valid, ih⟩

theorem Tidy.valid (h : g.Tidy ops ds) : ∀ d ∈ ds, d.Valid g := by
  cases h with
  | waiting h => exact h.valid
  | operand h hd => simpa using ⟨hd.nested.valid, h.valid⟩
  | atom h ht => simpa using ⟨.token ht, h.valid⟩

/-! ### What is on top -/

section

variable (h : g.Infix start ops)

include h

/-- A stack that ends with the start symbol has an operand on top. -/
theorem Tidy.of_start (ht : g.Tidy ops ds) {xs : List Symbol}
    (hs : ds.map Derivation.symbol = g.start :: xs) :
    ∃ d rest, ds = d :: rest ∧ g.Waiting ops rest ∧ g.Operand ops d rest ∧
      rest.map Derivation.symbol = xs := by
  cases ht with
  | waiting ht =>
    cases ht with
    | nil => contradiction
    | operator _ _ ho => exact absurd (List.cons.inj hs).1 (h.ne_start ho.token)
  | operand hw hd => exact ⟨_, _, rfl, hw, hd, (List.cons.inj hs).2⟩
  | atom _ ht => exact absurd (List.cons.inj hs).1 (h.ne_start ht)

/-- A stack whose path waits for an operand waits for one. -/
theorem Tidy.of_open (ht : g.Tidy ops ds) (hs : ds.map Derivation.symbol = steps.map Prod.fst)
    (hopen : g.Open ops steps) : g.Waiting ops ds := by
  cases ht with
  | waiting ht => exact ht
  | operand _ hd =>
    cases hopen with
    | nil => contradiction
    | operator ho =>
      rw [List.map_cons, hd.nested.symbol] at hs
      exact absurd (List.cons.inj hs).1.symm (h.ne_start ho.token)
  | atom hw _ =>
    -- below an operator there is its operand, and below an atom there is none
    cases hopen with
    | nil => contradiction
    | operator =>
      have hbelow := (List.cons.inj hs).2
      cases hw with
      | nil => contradiction
      | operator _ _ ho => exact absurd (List.cons.inj hbelow).1 (h.ne_start ho.token)

/-- An atom that is complete stands alone on a stack that waits. -/
theorem Tidy.of_atom (ht : g.Tidy ops ds) {q : StateId}
    (hs : ds.map Derivation.symbol = ((t, q) :: steps).map Prod.fst) (htoken : IsToken g.symbols t)
    (hopen : g.Open ops steps) : ∃ rest, ds = .token t :: rest ∧ g.Waiting ops rest := by
  cases ht with
  | waiting ht =>
    cases ht with
    | nil => contradiction
    | operator _ hd _ =>
      have hbelow := (List.cons.inj hs).2
      rw [List.map_cons, hd.nested.symbol] at hbelow
      cases hopen with
      | nil => contradiction
      | operator ho => exact absurd (List.cons.inj hbelow).1.symm (h.ne_start ho.token)
  | operand _ hd =>
    rw [List.map_cons, hd.nested.symbol] at hs
    exact absurd (List.cons.inj hs).1.symm (h.ne_start htoken)
  | @atom t' _ hw _ =>
    obtain rfl : t' = t := (List.cons.inj hs).1
    exact ⟨_, rfl, hw⟩

end

/-! ### Steps -/

/-- A stack with the token that comes next.  An operator node on top of it was made before
that token, so the token follows operands, and an operator that comes next allows the node on
its left. -/
structure Ordered (g : FlatGrammar) (ops : List Operator) (ds : List Derivation)
    (next : Option Symbol) : Prop where
  tidy : g.Tidy ops ds
  before : ∀ d rest k, ds = d :: rest → d.JoinedBy g ops k → ∃ x, next = some x ∧
    g.Delimits ops x ∧ ∀ o, g.Operates ops o x → o.AllowsLeft k

theorem Ordered.nil : g.Ordered ops [] none := ⟨.waiting .nil, by simp⟩

section

variable {l : Language} {name : String} {next : Option Symbol} (hl : l.Sound g)
  (htable : l.table = (g.table name).1) (h : g.Infix start ops) (hs : Path l.Edge steps)
  (hds : ds.map Derivation.symbol = steps.map Prod.fst)

include hl htable h hs hds

/-- A token that is shifted is an operator that fits the operands and the operators below, or
an atom. -/
theorem Ordered.shift (ho : g.Ordered ops ds (some x)) {target : StateId}
    (ha : .shift target ∈ l.actions (lastState steps) x) :
    g.Ordered ops (.token x :: ds) next := by
  refine ⟨?_, fun d rest k he hk => ?_⟩
  · rcases h.of_shift hl hs ha with ⟨o, q, below, hx, rfl⟩ | hopen
    · obtain ⟨d, rest, rfl, hw, hd, hrest⟩ := ho.tidy.of_start h hds
      refine .waiting (.operator hw hd hx (fun k hk => ?_) fun o' ho' => ?_)
      · obtain ⟨_, hsome, -, hleft⟩ := ho.before d rest k rfl hk
        obtain rfl := Option.some.inj hsome
        exact hleft o hx
      · -- the operator that waits is the one before the operand on the path, too
        obtain ⟨t, rest, ho', rfl⟩ := ho'
        cases hw with
        | operator _ hd' _ =>
          rw [List.map_cons, List.map_cons, hd'.nested.symbol] at hrest
          match below, hrest with
          | (a, q₂) :: (b, q₁) :: below, hrest =>
            obtain ⟨htoken, hoperand⟩ := List.cons.inj hrest
            obtain rfl : t = a := htoken
            obtain rfl : g.start = b := (List.cons.inj hoperand).1
            exact h.allowsRight_of_shift hl htable hs ho' hx ha
    · exact .atom (ho.tidy.of_open h hds hopen) (hl.isToken_of_shift ha)
  · obtain ⟨t, below, -, rfl⟩ := hk
    simp at he

/-- A node that is made of an operator and its operands is an operand that fits the operators
below and the token after it. -/
theorem Ordered.reduce (ho : g.Ordered ops ds next) {prod : Production} {below : List Derivation}
    (hprod : g.productions[p]? = some prod) (hsplit : ds = below.reverse ++ rest)
    (hbelow : below.map Derivation.symbol = prod.rhs)
    (ha : .reduce p ∈ l.actions (lastState steps) x) :
    g.Ordered ops (.node prod below :: rest) (some x) := by
  obtain ⟨hdelimits, hcomplete⟩ := h.of_reduce hl hs ha
  have hlength := congrArg List.length hbelow
  rw [List.length_map] at hlength
  cases hcomplete with
  | @operator o t _ _ q _ hop hp _ =>
    obtain rfl := Option.some.inj (hprod.symm.trans hp)
    obtain ⟨right, ds, rfl, hw, hright, hrest⟩ := ho.tidy.of_start h hds
    cases hw with
    | nil => contradiction
    | @operator o' t' left ds hw hleft hop' hallowed hinside =>
      obtain rfl : t' = t := (List.cons.inj hrest).1
      obtain rfl := h.operator_unique hop' hop
      match below, hlength with
      | [d₁, d₂, d₃], _ =>
        obtain ⟨rfl, rfl, rfl, rfl⟩ : right = d₃ ∧ .token t' = d₂ ∧ left = d₁ ∧ ds = rest := by
          simpa using hsplit
        have hnested := Derivation.Nested.operator hop hleft.nested hright.nested hallowed
          fun k hk => hright.allowed o' ⟨t', _, hop, rfl⟩ k hk
        refine ⟨.operand hw ⟨hnested, fun o ho k hk => ?_⟩, fun d rest k he hk => ?_⟩
        · obtain rfl := hk.eq h hop
          exact hinside o ho
        · obtain ⟨rfl, -⟩ := List.cons.inj he
          obtain rfl := hk.eq h hop
          exact ⟨x, rfl, hdelimits, fun o hx => h.allowsLeft_of_reduce hl htable hs hp hx ha⟩
  | @token t q _ ht hp hopen =>
    obtain rfl := Option.some.inj (hprod.symm.trans hp)
    obtain ⟨ds, rfl, hw⟩ := ho.tidy.of_atom h hds ht hopen
    match below, hlength with
    | [d], _ =>
      obtain ⟨rfl, rfl⟩ : .token t = d ∧ ds = rest := by simpa using hsplit
      have hnested : Derivation.Nested g ops _ := .atom ht (Array.mem_of_getElem? hprod)
      refine ⟨.operand hw ⟨hnested, fun o _ k hk => ?_⟩, fun d rest k he hk => ?_⟩
      · exact absurd hk Derivation.not_joinedBy_atom
      · obtain ⟨rfl, -⟩ := List.cons.inj he
        exact absurd hk Derivation.not_joinedBy_atom

/-- Where there is nothing to do on a token, no operator node is on top. -/
theorem Ordered.of_actions_eq_nil (ho : g.Ordered ops ds (some x))
    (ha : l.actions (lastState steps) x = []) : g.Ordered ops ds next := by
  refine ⟨ho.tidy, fun d rest k he hk => ?_⟩
  obtain ⟨y, hy, hdelimits, -⟩ := ho.before d rest k he hk
  obtain rfl := Option.some.inj hy
  subst he
  obtain ⟨t, below, -, rfl⟩ := hk
  match steps, hds with
  | (a, q) :: steps, hds =>
    obtain rfl : g.start = a := (List.cons.inj hds).1
    exact absurd ha (h.actions_ne_nil hl htable hs hdelimits)

end

end FlatGrammar

end Glr

namespace Glr.Parse

open Subtree Run Automaton
open Version (stateOf)

variable {g : FlatGrammar} {l : Language} {Spans : Nat → Length → Prop} {text : Bytes}
  {start : String} {ops : List Operator} {name : String} {v w : Version} {t : Subtree}
  {ds : List Derivation}

/-- A hypothesis that has met an error: it is skipping a token, or has nodes that cost
something. -/
def Version.Faulty (v : Version) : Prop :=
  (∃ t ∈ v.pending, t.info.extra = false) ∨ v.pending = [] ∧ costOf v.nodes ≠ 0

/-- A hypothesis that has met no error has its operators in order. -/
structure Version.Ordered (g : FlatGrammar) (l : Language) (ops : List Operator) (v : Version) :
    Prop extends v.Derived g l where
  ordered : v.Faulty ∨ v.pending = [] ∧ ∃ ds, Built g l ds.reverse v.nodes ∧
    g.Ordered ops ds (v.lookahead.map Subtree.symbol)

/-! ## Errors -/

theorem costOf_error_ne_zero (ts us : List Subtree) (state : StateId) {cost : Nat}
    (hc : cost ≠ 0) :
    costOf (ts ++ (Subtree.error l state cost us).withExtra true :: []) ≠ 0 := by
  rw [costOf_append, costOf_cons]
  show costOf ts + (cost + _ + 0) ≠ 0
  omega

/-- Every way on from an error is one of a faulty hypothesis. -/
theorem Version.Faulty.of_recoveries (ht : Token l t) (hw : w ∈ v.recoveries l t) : w.Faulty := by
  cases Recovers.of_mem hw with
  | insert _ hp =>
    refine .inr ⟨hp, ?_⟩
    show costOf (Version.push v _ _).nodes ≠ 0
    rw [Version.nodes_push, costOf_append, costOf_cons]
    show costOf v.nodes + (missingCost + 0) ≠ 0
    rw [missingCost]
    omega
  | reset _ _ hcost =>
    refine .inr ⟨rfl, ?_⟩
    show costOf (Version.push _ _ _).nodes ≠ 0
    rw [Version.nodes_push]
    refine costOf_error_ne_zero _ _ _ ?_
    rw [recoveryCost] at hcost
    omega
  | skip => exact .inl ⟨t, by simp [Version.skip], ht.extra⟩

/-- What was skipped becomes an error node. -/
theorem Version.Faulty.flush (h : v.Faulty) (hv : v.Derived g l) : (v.flush l).Faulty := by
  obtain ⟨_, _, hflush⟩ := Version.flush_eq (l := l) v
  refine .inr ⟨by rw [hflush], ?_⟩
  have hparts := splitAfterLast_append (fun t : Subtree => !t.info.extra) v.pending
  have htrailing (u : Subtree) (hu : u ∈ (splitAfterLast (fun t : Subtree => !t.info.extra)
      v.pending).2) : u.info.extra = true := by
    simpa using eq_false_of_mem_splitAfterLast hu
  unfold Version.flush
  simp only
  generalize splitAfterLast (fun t : Subtree => !t.info.extra) v.pending = parts at hparts htrailing
  obtain ⟨skipped, trailing⟩ := parts
  simp only at hparts htrailing ⊢
  show costOf (Version.pushAll _ _ _).nodes ≠ 0
  rw [Version.nodes_pushAll, costOf_append]
  rcases h with ⟨t, ht, hx⟩ | ⟨hnil, hcost⟩
  · -- the token that is no extra is among those that make up the error node
    have hskipped : skipped.isEmpty = false := by
      rw [List.isEmpty_eq_false_iff]
      rintro rfl
      rw [List.nil_append] at hparts
      rw [htrailing t (hparts ▸ ht)] at hx
      contradiction
    have hcost := hv.cost (List.ne_nil_of_mem ht)
    rw [hskipped, if_neg (by simp), costOf_append]
    have herror := costOf_error_ne_zero (l := l) [] skipped v.state hcost
    rw [List.nil_append] at herror
    omega
  · show costOf v.nodes + _ ≠ 0
    omega

/-! ## Steps -/

/-- The derivations of a stack have the symbols of its path. -/
theorem map_symbol_eq (hs : Stacked g l v.stack) (hbuilt : Built g l ds.reverse v.nodes) :
    ds.map Derivation.symbol = (pathOf v.stack).map Prod.fst := by
  have hmap := (Built.map_symbol hbuilt).trans hs.fills.map_filter
  rw [List.map_reverse, spelled] at hmap
  exact List.reverse_injective hmap

section

variable (hg : l.Sound g) (htable : l.table = (g.table name).1) (hops : g.Infix start ops)

include hg

omit htable hops in
theorem Fetched.ordered (h : v.Ordered g l ops) (hf : Fetched l text v t w) :
    w.Ordered g l ops := by
  refine ⟨hf.derived hg h.toDerived, ?_⟩
  cases hf with
  | kept _ => exact h.ordered
  | reused _ ho =>
    rw [h.old] at ho
    contradiction
  | lexed hnone _ =>
    refine h.ordered.imp id fun ⟨hp, ds, hbuilt, ho⟩ => ⟨hp, ds, hbuilt, ho.tidy, ?_⟩
    intro d rest k he hk
    obtain ⟨x, hx, -⟩ := ho.before d rest k he hk
    simp [hnone] at hx

omit htable hops in
/-- A hypothesis that is faulty stays so. -/
theorem Version.Faulty.acts (hf : v.Faulty) (hs : Stacked g l v.stack) (h : v.Derived g l)
    (hp : v.pending = []) (hl : v.lookahead = some t) (ha : Acts l v t w) : w.Faulty := by
  have hcost : costOf v.nodes ≠ 0 := by
    rcases hf with ⟨u, hu, -⟩ | ⟨-, hcost⟩
    · simp [hp] at hu
    · exact hcost
  have hshift (next : StateId) (x : Bool) : (v.shift next t x).Faulty := by
    refine .inr ⟨hp, ?_⟩
    show costOf (Version.push v _ _).nodes ≠ 0
    rw [Version.nodes_push, costOf_append]
    omega
  cases ha with
  | shift => exact hshift _ _
  | reduce ha hinfo _ hw =>
    obtain ⟨ds, hds, hbuilt⟩ := h.nodes
    obtain ⟨-, -, -, -, -, -, -, hsame⟩ :=
      Version.built_reduce hg hs hds hbuilt (mem_actions_of_reduce ha) hinfo hw
    rw [← hsame] at hcost
    obtain ⟨_, _, _, rfl⟩ := Version.reduce_eq hw
    exact .inr ⟨hp, hcost⟩
  | shiftExtra => exact hshift _ _
  | drop => exact .inr ⟨hp, hcost⟩
  | recover _ hw => exact .of_recoveries (h.lookahead t hl) hw

include htable hops

theorem Acts.ordered (hs : Stacked g l v.stack) (h : v.Ordered g l ops) (hp : v.pending = [])
    (hl : v.lookahead = some t) (ha : Acts l v t w) : w.Ordered g l ops := by
  refine ⟨ha.derived hg hs h.toDerived hl, ?_⟩
  rcases h.ordered with hf | ⟨-, ds, hbuilt, ho⟩
  · exact .inl (hf.acts hg hs h.toDerived hp hl ha)
  have ht := h.lookahead t hl
  have hpath := hs.path
  have hds := map_symbol_eq hs hbuilt
  have hactions : actionsFor l v.state t = l.actions (lastState (pathOf v.stack)) t.symbol := by
    rw [actionsFor, if_neg (by simp [ht.terminal]), Version.state, hs.lastState]
  rw [hl, Option.map_some] at ho
  cases ha with
  | @shift next ha =>
    have htoken := isToken_of_mem_actionsFor hg ht ha
    refine .inr ⟨hp, _, ?_, ho.shift hg htable hops hpath hds (hactions ▸ ha)⟩
    rw [List.reverse_cons]
    exact Version.built_shift ht htoken hbuilt next
  | reduce ha hinfo _ hw =>
    have hvalid : ∀ d ∈ ds.reverse, d.Valid g := fun d hd => ho.tidy.valid d (by simpa using hd)
    obtain ⟨prod, before, below, hprod, hsplit, hbelow, hbuilt, -⟩ :=
      Version.built_reduce hg hs hvalid hbuilt (mem_actions_of_reduce ha) hinfo hw
    have hsplit : ds = below.reverse ++ before.reverse := by
      rw [← List.reverse_append, ← hsplit, List.reverse_reverse]
    obtain ⟨_, _, _, rfl⟩ := Version.reduce_eq hw
    refine .inr ⟨hp, .node prod below :: before.reverse, ?_, ?_⟩
    · simpa using hbuilt
    · show g.Ordered ops _ (v.lookahead.map Subtree.symbol)
      rw [hl]
      exact ho.reduce hg htable hops hpath hds hprod hsplit hbelow (hactions ▸ ha)
  | shiftExtra ha he =>
    have hextra := mem_extras_of_isShiftableExtra hg he
    exact .inr ⟨hp, ds, Version.built_shiftExtra ht hextra hbuilt v.state,
      ho.of_actions_eq_nil hg htable hops hpath hds (hactions ▸ ha)⟩
  | drop _ hleaf => simp [Subtree.isLeaf, ht.leaf] at hleaf
  | recover _ hw => exact .inl (.of_recoveries ht hw)

/-- Every way on keeps the operators in order. -/
theorem Next.ordered (hs : v.Sound g l Spans text) (h : v.Ordered g l ops)
    (hl : v.lookahead = some t) (hn : Next l v t w) : w.Ordered g l ops := by
  have hderived := hn.derived hg hs h.toDerived hl
  have hfaulty (hp : v.pending ≠ []) : v.Faulty := h.ordered.resolve_right fun ho => hp ho.1
  cases hn with
  | act hp ha => exact ha.ordered hg htable hops hs.stacked h hp hl
  | flush hp _ ha =>
    obtain ⟨_, _, hflush⟩ := Version.flush_eq (l := l) v
    refine ⟨hderived, .inl ?_⟩
    exact ((hfaulty hp).flush h.toDerived).acts hg (hs.flush hg).stacked h.toDerived.flush
      (by rw [hflush]) (by rw [hflush]; exact hl) ha
  | skipExtra hp _ =>
    refine ⟨hderived, .inl ?_⟩
    rcases hfaulty hp with ⟨u, hu, hx⟩ | ⟨hnil, -⟩
    · exact .inl ⟨u, by simp [Version.skipExtra, hu], hx⟩
    · exact absurd hnil hp
  | recover _ hw => exact ⟨hderived, .inl (.of_recoveries (h.lookahead t hl) hw)⟩

end

/-! ## Outcomes -/

/-- An outcome without errors shows operators that all have operands that they allow. -/
def Finished.Nested (g : FlatGrammar) (l : Language) (ops : List Operator) (f : Finished) : Prop :=
  f.root.hasError = false → ∃ d, d.Nested g ops ∧ Clean g l [d] [f.root]

theorem nested_givenUp (v : Version) : (v.givenUp l).Nested g l ops := by
  intro h
  rw [hasError_givenUp] at h
  contradiction

section

variable (hg : l.Sound g) (hops : g.Infix start ops)

include hg hops

theorem Halts.nested (hs : Stacked g l v.stack) (h : v.Ordered g l ops) {events : List Event}
    {f : Finished} (he : Halts l v t events f) : f.Nested g l ops := by
  cases he with
  | accept hp ha =>
    intro hroot
    have hcost := errorCost_eq_zero_of_hasError hroot
    simp only at hcost
    rcases h.ordered with hf | ⟨-, ds, hbuilt, ho⟩
    · -- nodes that cost something make a root that does
      obtain ⟨ds, hds, hbuilt⟩ := h.nodes
      obtain ⟨d, -, -, -, hsame⟩ := built_root_of_accept hg hs hds hbuilt ha
      rcases hf with ⟨u, hu, -⟩ | ⟨-, hne⟩
      · simp [hp] at hu
      · exact absurd (hsame.symm.trans hcost) hne
    · have hvalid : ∀ d ∈ ds.reverse, d.Valid g := fun d hd => ho.tidy.valid d (by simpa using hd)
      obtain ⟨d, hd, hsymbol, hshown, -⟩ := built_root_of_accept hg hs hvalid hbuilt ha
      obtain rfl : ds = [d] := by simpa using congrArg List.reverse hd
      have hmap : [d].map Derivation.symbol = g.start :: [] := by simp [hsymbol]
      obtain ⟨d', rest, he, -, hoperand, -⟩ := ho.tidy.of_start hops hmap
      obtain ⟨rfl, -⟩ := List.cons.inj he
      refine ⟨d, hoperand.nested, Built.clean hg (by simpa using hvalid) hshown ?_⟩
      rw [costOf_cons, costOf_nil, Nat.add_zero]
      exact hcost
  | noRecovery _ => exact nested_givenUp v
  | limit _ _ => exact nested_givenUp v

theorem Ends.nested (hs : v.Sound g l Spans text) (h : v.Ordered g l ops) {events : List Event}
    {f : Finished} (he : Ends l v t events f) : f.Nested g l ops := by
  cases he with
  | now he => exact he.nested hg hops hs.stacked h
  | flush hp _ he =>
    have hf : v.Faulty := h.ordered.resolve_right fun ho => hp ho.1
    exact he.nested hg hops (hs.flush hg).stacked
      ⟨h.toDerived.flush, .inl (hf.flush h.toDerived)⟩

/-- Every outcome of a parse without a previous tree has its operators in order. -/
theorem Run.Reached.nested (htable : l.table = (g.table name).1) {r : Run}
    (h : r.Reached l text none) : ∀ f ∈ r.finished, f.Nested g l ops := by
  refine (h.invariant hg (covers_anyText text) (by simp) (P := Version.Ordered g l ops) ?_
    (fun v t w _ hv hf => hf.ordered hg hv)
    (fun v t w hs hl hv hn => hn.ordered hg htable hops hs hv hl)
    fun v t es f hs _ hv he => he.nested hg hops hs hv).2
  intro v hv
  rw [Language.versions_startRun] at hv
  rw [List.mem_singleton.mp hv]
  exact ⟨⟨⟨[], by simp, .nil⟩, by simp, by simp, by rintro u ⟨⟩, rfl⟩, .inr ⟨rfl, [], .nil, .nil⟩⟩

end

end Glr.Parse
