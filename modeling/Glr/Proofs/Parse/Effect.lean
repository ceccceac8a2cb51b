import Glr.Parse.Run

/-!
# Glr.Proofs.Parse.Effect

What a step of a parse can do, said once.  A hypothesis with its token goes on in
some ways (`Next`) and comes to some ends (`Ends`); a step puts the first of the
ways in the place of the hypothesis and the others behind all hypotheses, and a
hypothesis halts only with an outcome.

```
versions  ↦  versions with `first` at the place, then `rest`
finished  ↦  finished, then the ends
```
-/

namespace Glr.Parse

open Run

/-! ## Ways on -/

/-- The ways on of a hypothesis that skips nothing at the moment. -/
inductive Acts (l : Language) (v : Version) (t : Subtree) : Version → Prop where
  | shift {next : StateId} (ha : .shift next ∈ actionsFor l v.state t) :
      Acts l v t (v.shift next t false)
  | reduce {p : ProductionId} {info : ProductionInfo} {fragile : Bool} {w : Version}
      (ha : .reduce p ∈ actionsFor l v.state t) (hp : l.production? p = some info)
      (hn : v.reductions < maxReductions)
      (hw : Version.reduce l { v with reductions := v.reductions + 1 } info fragile t = .ok w) :
      Acts l v t w
  | shiftExtra (ha : actionsFor l v.state t = []) (he : isShiftableExtra l t = true) :
      Acts l v t (v.shift v.state t true)
  | drop (ha : actionsFor l v.state t = []) (ht : t.isLeaf = false) :
      Acts l v t { v with lookahead := none, old := none }
  | recover {w : Version} (ha : actionsFor l v.state t = []) (hw : w ∈ v.recoveries l t)
      (he : isShiftableExtra l t = false) : Acts l v t w

/-- The ways on of a hypothesis with its token. -/
inductive Next (l : Language) (v : Version) (t : Subtree) : Version → Prop where
  | act {w : Version} (hv : v.pending = []) (hw : Acts l v t w) : Next l v t w
  | flush {w : Version} (hv : v.pending ≠ []) (ha : actionsFor l v.state t ≠ [])
      (hw : Acts l (v.flush l) t w) : Next l v t w
  | skipExtra (hv : v.pending ≠ []) (he : isShiftableExtra l t = true) : Next l v t (v.skipExtra t)
  | recover {w : Version} (hv : v.pending ≠ []) (hw : w ∈ v.recoveries l t)
      (he : isShiftableExtra l t = false) : Next l v t w

/-! ## Ends -/

/-- The outcome where everything becomes an error. -/
def Version.givenUp (l : Language) (v : Version) : Finished :=
  ⟨Subtree.error l 0 recoveryCost (v.nodes ++ v.pending), v.errorCost + recoveryCost,
    v.dynamicPrecedence⟩

/-- The ends of a hypothesis that skips nothing at the moment or has no action;
`events` is what happened by then. -/
inductive Halts (l : Language) (v : Version) (t : Subtree) (events : List Event) :
    Finished → Prop where
  | accept (hv : v.pending = []) (ha : .accept ∈ actionsFor l v.state t) :
      Halts l v t events ⟨rootOf l v.nodes v.errorCost, v.errorCost, v.dynamicPrecedence⟩
  | noRecovery (hr : v.recoveries l t = []) : Halts l v t events (v.givenUp l)
  | limit {i : Nat} (hn : maxReductions ≤ v.reductions) (he : .reductionLimit i ∈ events) :
      Halts l v t events (v.givenUp l)

/-- The ends of a hypothesis with its token. -/
inductive Ends (l : Language) (v : Version) (t : Subtree) (events : List Event) :
    Finished → Prop where
  | now {f : Finished} (h : Halts l v t events f) : Ends l v t events f
  | flush {f : Finished} (hv : v.pending ≠ []) (ha : actionsFor l v.state t ≠ [])
      (h : Halts l (v.flush l) t events f) : Ends l v t events f

variable {l : Language} {text : Bytes} {v w : Version} {t : Subtree} {r r' r'' : Run} {i : Nat}

theorem Halts.mono {es fs : List Event} {f : Finished} (h : Halts l v t es f)
    (hs : ∀ e ∈ es, e ∈ fs) : Halts l v t fs f := by
  cases h with
  | accept hv ha => exact .accept hv ha
  | noRecovery hr => exact .noRecovery hr
  | limit hn he => exact .limit hn (hs _ he)

/-! ## What pushing leaves alone -/

/-- What a reduction that succeeds does not say of the hypothesis stays. -/
theorem Version.reduce_eq {p : ProductionInfo} {fragile : Bool}
    (h : v.reduce l p fragile t = .ok w) :
    ∃ stack external dynamicPrecedence, w = { v with stack, external, dynamicPrecedence } := by
  unfold Version.reduce at h
  simp only at h
  split at h
  · contradiction
  · split at h
    · contradiction
    · rename_i stack _ next _
      obtain rfl := Except.ok.inj h
      obtain ⟨stack, external, he⟩ := Version.pushAll_eq _ next _
      exact ⟨stack, external, _, he⟩

theorem Version.flush_eq (v : Version) :
    ∃ stack external, v.flush l = { v with
      stack, external, pending := [], pendingCost := 0, recoveredAt := some v.position.bytes } := by
  obtain ⟨stack, external, he⟩ := Version.pushAll_eq
    ({ v with pending := [], pendingCost := 0 } : Version) v.state _
  refine ⟨stack, external, ?_⟩
  unfold Version.flush
  simp only
  rw [he]

/-! ## Ways on from an error -/

/-- The hypothesis with a missing token put in; `next` is the state after it. -/
def Version.inserted (l : Language) (v : Version) (s : Symbol) (next : StateId) : Version :=
  { v.push next (.missing l s v.state missingCost) with
    errorCost := v.errorCost + missingCost
    missingAt := some v.position.bytes
    afterExtra := false }

/-- The hypothesis after it gave up nodes, with what is left of its stack. -/
def Version.reset (l : Language) (v : Version) (lost : List Subtree) (stack : List Entry)
    (cost : Nat) : Version :=
  { ({ v with stack } : Version).push (Version.stateOf stack) ((Subtree.error l
      (Version.stateOf stack) (cost + v.pendingCost) (lost ++ v.pending)).withExtra true) with
    errorCost := v.errorCost + cost
    pending := []
    pendingCost := 0
    recoveredAt := some v.position.bytes
    afterExtra := false }

/-- The ways on from an error, the first two of them once in one place. -/
inductive Recovers (l : Language) (v : Version) (t : Subtree) : Version → Prop where
  | insert {s : Symbol} {next : StateId} (hs : t.symbol ≠ endSymbol) (hp : v.pending = [])
      (hm : v.missingAt ≠ some v.position.bytes) (ha : .shift next ∈ l.actions v.state s) :
      Recovers l v t (v.inserted l s next)
  | reset {taken stack : List Entry} {cost : Nat} (hr : v.recoveredAt ≠ some v.position.bytes)
      (hstack : v.stack = taken ++ stack) (hcost : recoveryCost ≤ cost) :
      Recovers l v t (v.reset l (taken.map Entry.node).reverse stack cost)
  | skip (hs : t.symbol ≠ endSymbol) : Recovers l v t (v.skip t)

theorem Recovers.of_mem (h : w ∈ v.recoveries l t) : Recovers l v t w := by
  unfold Version.recoveries at h
  simp only [List.mem_append] at h
  rcases h with (h | h) | h
  · split at h
    · rename_i hc
      simp only [Bool.and_eq_true, Bool.not_eq_true', beq_eq_false_iff_ne, List.isEmpty_iff,
        bne_iff_ne] at hc
      rw [Option.mem_toList, Version.insertMissing?] at h
      simp only at h
      split at h
      · contradiction
      · obtain ⟨next, hnext, rfl⟩ := Option.map_eq_some_iff.mp h
        refine .insert hc.1.1 hc.1.2 hc.2 ?_
        obtain ⟨action, ha, hs⟩ := List.exists_of_findSome?_eq_some hnext
        split at hs
        · rwa [← Option.some.inj hs]
        · contradiction
    · simp at h
  · split at h
    · rename_i hc
      rw [Option.mem_toList, Version.popUntilValid?] at h
      obtain ⟨⟨nodes, stack⟩, hgive, rfl⟩ := Option.map_eq_some_iff.mp h
      obtain ⟨taken, hstack, hnodes, -⟩ := Version.giveUp?_eq_some hgive
      rw [List.append_nil] at hnodes
      subst hnodes
      exact .reset (by simpa using hc) hstack (Nat.le_add_right _ _)
    · simp at h
  · split at h
    · rename_i hc
      rw [List.mem_singleton.mp h]
      exact .skip (by simpa using hc)
    · simp at h

/-- A way on from an error does not halt, and knows the previous tree as before. -/
theorem Version.eq_of_mem_recoveries (h : w ∈ v.recoveries l t) :
    w.halted = v.halted ∧ w.old = v.old := by
  cases Recovers.of_mem h <;> exact ⟨rfl, rfl⟩

theorem Acts.halted (h : Acts l v t w) : w.halted = v.halted := by
  cases h with
  | shift => rfl
  | reduce _ _ _ hw =>
    obtain ⟨_, _, _, rfl⟩ := Version.reduce_eq hw
    rfl
  | shiftExtra => rfl
  | drop => rfl
  | recover _ hw => exact (Version.eq_of_mem_recoveries hw).1

/-! ## Changes of a run -/

/-- What the hypotheses `news` and the outcomes `outcomes` that a run gains are. -/
structure Gains (next : Version → Prop) (ends : List Event → Finished → Prop) (r r' : Run)
    (news : List Version) (outcomes : List Finished) : Prop where
  finished : r'.finished = r.finished ++ outcomes
  events : ∀ e ∈ r.events, e ∈ r'.events
  next : ∀ w ∈ news, w.halted = false → next w
  ends : ∀ f ∈ outcomes, ends r'.events f
  /-- A hypothesis halts only with an outcome. -/
  halted : ∀ w ∈ news, w.halted = true → outcomes ≠ []

/-- The hypothesis at a place changes, others split off behind all hypotheses. -/
def Changes (next : Version → Prop) (ends : List Event → Finished → Prop) (r : Run) (i : Nat)
    (r' : Run) : Prop :=
  ∃ first rest outcomes, r'.versions = r.versions.set i first ++ rest ∧
    Gains next ends r r' (first :: rest) outcomes

/-- Hypotheses split off behind all hypotheses. -/
def Splits (next : Version → Prop) (ends : List Event → Finished → Prop) (r r' : Run) : Prop :=
  ∃ rest outcomes, r'.versions = r.versions ++ rest ∧ Gains next ends r r' rest outcomes

section

variable {next : Version → Prop} {ends : List Event → Finished → Prop}

/-- Ends that stay ends when more has happened. -/
def Monotone (ends : List Event → Finished → Prop) : Prop :=
  ∀ ⦃es fs : List Event⦄ ⦃f : Finished⦄, (∀ e ∈ es, e ∈ fs) → ends es f → ends fs f

theorem Gains.trans {news news' : List Version} {outcomes outcomes' : List Finished}
    (hm : Monotone ends) (h : Gains next ends r r' news outcomes)
    (h' : Gains next ends r' r'' news' outcomes') :
    Gains next ends r r'' (news ++ news') (outcomes ++ outcomes') where
  finished := by rw [h'.finished, h.finished, List.append_assoc]
  events e he := h'.events e (h.events e he)
  next w hw hl := (List.mem_append.mp hw).elim (fun hw => h.next w hw hl) fun hw => h'.next w hw hl
  ends f hf := (List.mem_append.mp hf).elim (fun hf => hm h'.events (h.ends f hf)) (h'.ends f)
  halted w hw hl := by
    rcases List.mem_append.mp hw with hw | hw
    · simp [h.halted w hw hl]
    · simp [h'.halted w hw hl]

theorem Gains.imp {next' : Version → Prop} {ends' : List Event → Finished → Prop}
    {news : List Version} {outcomes : List Finished} (h : Gains next ends r r' news outcomes)
    (hn : ∀ w, next w → next' w) (he : ∀ es f, ends es f → ends' es f) :
    Gains next' ends' r r' news outcomes where
  finished := h.finished
  events := h.events
  next w hw hl := hn w (h.next w hw hl)
  ends f hf := he _ f (h.ends f hf)
  halted := h.halted

theorem Changes.imp {next' : Version → Prop} {ends' : List Event → Finished → Prop}
    (h : Changes next ends r i r') (hn : ∀ w, next w → next' w)
    (he : ∀ es f, ends es f → ends' es f) : Changes next' ends' r i r' := by
  obtain ⟨first, rest, outcomes, hv, hg⟩ := h
  exact ⟨first, rest, outcomes, hv, hg.imp hn he⟩

/-- What changes beside the hypothesis at the place and the outcomes does not count. -/
theorem Changes.of_before (h : Changes next ends r' i r'')
    (hv : ∃ w, r'.versions = r.versions.set i w) (hf : r'.finished = r.finished)
    (he : ∀ e ∈ r.events, e ∈ r'.events) : Changes next ends r i r'' := by
  obtain ⟨first, rest, outcomes, hvs, hg⟩ := h
  obtain ⟨w, hw⟩ := hv
  refine ⟨first, rest, outcomes, by rw [hvs, hw, List.set_set], ?_⟩
  exact ⟨by rw [hg.finished, hf], fun e hm => hg.events e (he e hm), hg.next, hg.ends, hg.halted⟩

theorem set_getElem?_self {vs : List Version} (h : vs[i]? = some v) : vs.set i v = vs := by
  obtain ⟨hi, rfl⟩ := List.getElem?_eq_some_iff.mp h
  exact List.set_getElem_self hi

theorem Changes.say {e : Event} (hi : r.versions[i]? = some v)
    (h : Changes next ends (r.say e) i r') : Changes next ends r i r' :=
  h.of_before ⟨v, (set_getElem?_self hi).symm⟩ rfl fun _ he => List.mem_cons_of_mem _ he

/-- A live way on takes the place of the hypothesis. -/
theorem changes_set (hn : next w) (hl : w.halted = false) : Changes next ends r i (r.set i w) := by
  refine ⟨w, [], [], by rw [List.append_nil]; rfl, ?_⟩
  refine ⟨(List.append_nil _).symm, fun _ he => he, ?_, by simp, ?_⟩
  · intro x hx _
    rwa [List.mem_singleton.mp hx]
  · intro x hx hh
    rw [List.mem_singleton.mp hx, hl] at hh
    contradiction

/-- The hypothesis halts with an outcome. -/
theorem changes_finish {f : Finished} {e : List Event} (hw : w.halted = true) (hf : ends (e ++ r.events) f)
    (hv : r'.versions = r.versions.set i w) (hf' : r'.finished = r.finished ++ [f])
    (he : r'.events = e ++ r.events) : Changes next ends r i r' := by
  refine ⟨w, [], [f], by rw [hv, List.append_nil], hf', ?_, ?_, ?_, by simp⟩
  · intro x hx
    rw [he]
    exact List.mem_append_right _ hx
  · intro x hx hl
    rw [List.mem_singleton.mp hx, hw] at hl
    contradiction
  · intro x hx
    rw [List.mem_singleton.mp hx, he]
    exact hf

end

/-! ## Steps -/

/-- Every reduction that is asked for is possible. -/
def Reducible (l : Language) (v : Version) (t : Subtree) : Prop :=
  ∀ p, .reduce p ∈ actionsFor l v.state t → ∃ info, l.production? p = some info ∧
    ∀ n fragile, ∃ w, Version.reduce l { v with reductions := n } info fragile t = .ok w

theorem halts_monotone : Monotone (Halts l v t) := fun _ _ _ hs h => h.mono hs

/-- Recovering goes all ways on there are, or gives up. -/
theorem changes_recover {next : Version → Prop} (hl : v.halted = false) (hn : ∀ w ∈ v.recoveries l t, next w) :
    Changes next (Halts l v t) r i (r.recover l i v t) := by
  unfold Run.recover
  simp only
  cases ho : v.recoveries l t with
  | nil =>
    exact changes_finish (e := [_, _]) (w := { v with halted := true, pending := [] }) rfl
      (.noRecovery ho) rfl rfl rfl
  | cons first rest =>
    refine ⟨first, rest, [], rfl, (List.append_nil _).symm, fun _ he => .tail _ he, ?_, by simp, ?_⟩
    · intro w hw _
      exact hn w (by rwa [ho])
    · intro w hw hh
      rw [(Version.eq_of_mem_recoveries (by rwa [ho])).1, hl] at hh
      contradiction

/-- An action goes one way on, or ends the hypothesis. -/
theorem changes_apply {action : ParseAction} (hi : r.versions[i]? = some v)
    (hl : v.halted = false) (hp : v.pending = []) (ha : action ∈ actionsFor l v.state t)
    (hr : Reducible l v t) :
    Changes (Acts l v t) (Halts l v t) r i (r.apply l i action t) := by
  unfold Run.apply
  simp only [hi]
  cases action with
  | shift next => exact .say (e := .shift i next t.symbol) hi (changes_set (.shift ha) hl)
  | reduce p =>
    simp only
    split
    · rename_i hn
      exact changes_finish (e := [_, _, _]) (w := { v with reductions := _, halted := true, pending := [] })
        rfl (.limit (i := i) (Nat.lt_succ_iff.mp hn) (by simp)) rfl rfl rfl
    · rename_i hn
      obtain ⟨info, hinfo, hok⟩ := hr p ha
      obtain ⟨w, hw⟩ := hok (v.reductions + 1) ((r.say (.reduce i p)).versions.length > 1)
      simp only [hinfo, hw]
      have hacts : Acts l v t w := .reduce ha hinfo (Nat.lt_of_succ_le (Nat.le_of_not_lt hn)) hw
      exact .say hi (changes_set hacts (by rw [hacts.halted, hl]))
  | accept =>
    exact changes_finish (e := [_]) (w := { v with halted := true }) rfl (.accept hp ha) rfl rfl rfl

/-- A copy of the hypothesis takes an action. -/
theorem splits_fork {action : ParseAction} (hl : v.halted = false) (hp : v.pending = [])
    (ha : action ∈ actionsFor l v.state t) (hr : Reducible l v t) :
    Splits (Acts l v t) (Halts l v t) r (r.fork l v t action) := by
  let r' : Run := { r with
    versions := r.versions ++ [v], stats := { r.stats with forks := r.stats.forks + 1 } }
  have hi : r'.versions[r'.versions.length - 1]? = some v := by simp [r']
  obtain ⟨first, rest, outcomes, hv, hg⟩ := changes_apply hi hl hp ha hr
  refine ⟨first :: rest, outcomes, ?_, hg.finished, hg.events, hg.next, hg.ends, hg.halted⟩
  have : r'.versions.set (r'.versions.length - 1) first = r.versions ++ [first] := by simp [r']
  rw [this] at hv
  exact hv.trans (List.append_cons ..).symm

theorem splits_forks {as : List ParseAction} (hl : v.halted = false) (hp : v.pending = [])
    (ha : ∀ action ∈ as, action ∈ actionsFor l v.state t) (hr : Reducible l v t) :
    Splits (Acts l v t) (Halts l v t) r (as.foldl (fun r action => r.fork l v t action) r) := by
  induction as generalizing r with
  | nil =>
    exact ⟨[], [], (List.append_nil _).symm, (List.append_nil _).symm, fun _ he => he,
      by simp, by simp, by simp⟩
  | cons a as ih =>
    obtain ⟨rest, outcomes, hv, hg⟩ := splits_fork (r := r) hl hp (ha a (by simp)) hr
    obtain ⟨rest', outcomes', hv', hg'⟩ := ih (r := r.fork l v t a) fun b hb => ha b (by simp [hb])
    exact ⟨rest ++ rest', outcomes ++ outcomes', by rw [List.foldl_cons, hv', hv, List.append_assoc],
      hg.trans halts_monotone hg'⟩

/-- All actions on a token. -/
theorem changes_act (hi : r.versions[i]? = some v) (hl : v.halted = false) (hp : v.pending = [])
    (hr : Reducible l v t) :
    Changes (Acts l v t) (Halts l v t) r i (r.act l i v t (actionsFor l v.state t)) := by
  unfold Run.act
  cases ha : actionsFor l v.state t with
  | nil =>
    simp only
    split
    · rename_i ht
      exact changes_set (.drop ha (by simpa using ht)) hl
    · split
      · rename_i he
        exact .say hi (changes_set (.shiftExtra ha he) hl)
      · rename_i he
        exact changes_recover hl fun w hw => .recover ha hw (by simpa using he)
  | cons first rest =>
    simp only
    obtain ⟨news, outcomes, hv, hg⟩ := splits_forks (r := r) hl hp
      (show ∀ action ∈ rest, action ∈ actionsFor l v.state t from fun action hm => by simp [ha, hm])
      hr
    have hlt := (List.getElem?_eq_some_iff.mp hi).1
    have hi' : (rest.foldl (fun r action => r.fork l v t action) r).versions[i]? = some v := by
      rw [hv, List.getElem?_append_left hlt, hi]
    obtain ⟨w, news', outcomes', hv', hg'⟩ := changes_apply hi' hl hp
      (show first ∈ actionsFor l v.state t by simp [ha]) hr
    refine ⟨w, news ++ news', outcomes ++ outcomes', ?_, ?_⟩
    · rw [hv', hv, List.set_append_left _ _ hlt, List.append_assoc]
    · have h := hg.trans halts_monotone hg'
      exact ⟨h.finished, h.events, fun x hx => h.next x (by grind), h.ends,
        fun x hx => h.halted x (by grind)⟩

/-! ## Finding the token -/

/-- Where a hypothesis would reuse a subtree. -/
def Version.reuseSite (v : Version) : ReuseSite :=
  ⟨v.position.bytes, v.state, v.afterExtra, v.external⟩

/-- Where a hypothesis finds its next token. -/
def Version.site (l : Language) (v : Version) : Site :=
  ⟨v.position, if v.pending.isEmpty then l.lexState v.state else errorLexState, v.afterExtra,
    v.external⟩

/-- The walk over the previous tree after a search that found nothing. -/
inductive Searched (l : Language) (v : Version) : Option OldTree → Prop where
  | not : Searched l v v.old
  | inVain {o o' : OldTree} (ho : v.old = some o) (h : o.reuse? l v.reuseSite = (none, o')) :
      Searched l v (some o')

/-- How a hypothesis comes to its token: it has one, takes one from the previous tree,
or finds one in the text. -/
inductive Fetched (l : Language) (text : Bytes) (v : Version) : Subtree → Version → Prop where
  | kept {t : Subtree} (h : v.lookahead = some t) : Fetched l text v t v
  | reused {t : Subtree} {o o' : OldTree} (h : v.lookahead = none) (ho : v.old = some o)
      (hp : v.pending = []) (hr : o.reuse? l v.reuseSite = (some t, o')) :
      Fetched l text v t { v with lookahead := some t, old := some o' }
  | lexed {old : Option OldTree} (h : v.lookahead = none) (ho : Searched l v old) :
      Fetched l text v (token l text (v.site l)).1
        { v with lookahead := some (token l text (v.site l)).1, old }

theorem fetch_spec (l : Language) (text : Bytes) (r : Run) (hi : r.versions[i]? = some v) :
    let (t, v', r') := r.fetch l text i v
    Fetched l text v t v' ∧ r'.versions = r.versions.set i v' ∧ r'.finished = r.finished ∧
      ∀ e ∈ r.events, e ∈ r'.events := by
  have hkeep : r.versions = r.versions.set i v := (set_getElem?_self hi).symm
  unfold Run.fetch
  cases hl : v.lookahead with
  | some t => exact ⟨.kept hl, hkeep, rfl, fun _ he => he⟩
  | none =>
    simp only
    cases ho : v.old with
    | none =>
      refine ⟨?_, rfl, rfl, fun _ he => List.mem_append_right _ he⟩
      have : Fetched l text v _ _ := .lexed hl .not
      rw [ho] at this
      exact this
    | some o =>
      cases hp : v.pending.isEmpty with
      | false =>
        refine ⟨?_, rfl, rfl, fun _ he => List.mem_append_right _ he⟩
        have : Fetched l text v _ _ := .lexed hl .not
        simp only [ho, Version.site, hp] at this
        exact this
      | true =>
        simp only [if_true]
        cases hr : o.reuse? l v.reuseSite with
        | mk found o' =>
          have hr' := hr
          rw [Version.reuseSite] at hr'
          rw [hr']
          cases found with
          | some t =>
            exact ⟨.reused hl ho (List.isEmpty_iff.mp hp) hr, rfl, rfl, fun _ he => .tail _ he⟩
          | none =>
            refine ⟨?_, rfl, rfl, fun _ he => List.mem_append_right _ he⟩
            have : Fetched l text v _ _ := .lexed hl (.inVain ho hr)
            simp only [Version.site, hp, if_true] at this
            exact this

theorem Fetched.halted (h : Fetched l text v t w) : w.halted = v.halted := by
  cases h <;> rfl

@[simp] theorem Version.state_pushAll (v : Version) (ts : List Subtree) :
    (v.pushAll v.state ts).state = v.state := by
  have aux (ts : List Subtree) (v : Version) (s : StateId) (h : v.state = s) :
      (v.pushAll s ts).state = s := by
    induction ts generalizing v with
    | nil => exact h
    | cons t ts ih => exact ih (v.push s t) rfl
  exact aux ts v _ rfl

/-- Ending an error leaves the state as it is. -/
theorem Version.state_flush (v : Version) : (v.flush l).state = v.state :=
  Version.state_pushAll ({ v with pending := [], pendingCost := 0 } : Version) _

/-- What one step does: the hypothesis finds its token and goes on in some ways, or
comes to an end. -/
theorem changes_step (hi : r.versions[i]? = some v) (hl : v.halted = false)
    (hr : ∀ t w, Fetched l text v t w → Reducible l w t ∧ Reducible l (w.flush l) t) :
    ∃ t w, Fetched l text v t w ∧ Changes (Next l w t) (Ends l w t) r i (r.step l text i) := by
  have hf := fetch_spec l text r hi
  unfold Run.step
  simp only [hi]
  generalize r.fetch l text i v = fetched at hf
  obtain ⟨t, w, r'⟩ := fetched
  obtain ⟨hf, hv, hfin, he⟩ := hf
  refine ⟨t, w, hf, ?_⟩
  have hi' : r'.versions[i]? = some w := by
    rw [hv, List.getElem?_set_self (List.getElem?_eq_some_iff.mp hi).1]
  have hl' : w.halted = false := hf.halted.trans hl
  refine Changes.of_before ?_ ⟨w, hv⟩ hfin he
  obtain ⟨hr₁, hr₂⟩ := hr t w hf
  simp only
  cases hp : w.pending with
  | nil =>
    rw [List.isEmpty_nil, if_pos rfl]
    exact (changes_act hi' hl' hp hr₁).imp (fun _ h => .act hp h) fun _ _ h => .now h
  | cons u us =>
    have hp' : w.pending ≠ [] := by simp [hp]
    rw [List.isEmpty_cons, if_neg Bool.false_ne_true]
    split
    · split
      · rename_i he
        exact changes_set (.skipExtra hp' he) hl'
      · rename_i he
        exact (changes_recover hl' fun _ hw => .recover hp' hw (by simpa using he)).imp
          (fun _ h => h) fun _ _ h => .now h
    · rename_i ha
      obtain ⟨stack, external, hflush⟩ := Version.flush_eq (l := l) w
      have hi'' : (r'.set i (w.flush l)).versions[i]? = some (w.flush l) := by
        show (r'.versions.set i _)[i]? = _
        rw [List.getElem?_set_self (List.getElem?_eq_some_iff.mp hi').1]
      have ha' : actionsFor l w.state t ≠ [] := fun h => ha (by rw [h]; rfl)
      have hact := changes_act hi'' (by rw [hflush]; exact hl') (by rw [hflush]) hr₂
      rw [Version.state_flush] at hact
      refine Changes.of_before (hact.imp (fun _ h => .flush hp' ha' h) fun _ _ h => .flush hp' ha' h)
        ⟨_, rfl⟩ rfl fun _ he => he

end Glr.Parse
