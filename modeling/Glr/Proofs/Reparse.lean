import Glr.Proofs.Parse.Plain
import Glr.Proofs.Reached

/-!
# Glr.Proofs.Reparse

A parse that takes nodes from a previous tree, next to one that does not.  They come to states
that are alike, again and again, as long as what is taken stands in the text: a token is the
one that is found there, and a node is what a parse without the previous tree builds there.

```
with the previous tree      start  →  turn  →  turn  →   …                  →  tree
                              ∥         ∥                      ∥                 ∥
without it                  start  →  turn  →  turn  →  turn  →  turn  →  …  →  tree
```
-/

namespace Glr

open Parse Run

namespace Parse

/-! ## States that are alike -/

/-- Two states of a parse have the same hypotheses before the same tokens, and the same
outcomes, up to what only reuse depends on and the count of reductions. -/
structure Run.Alike (l : Language) (text : Bytes) (r r' : Run) : Prop where
  versions : r.versions.map (Version.withToken l text) = r'.versions.map (Version.withToken l text)
  finished : r.finished.map Finished.plain = r'.finished.map Finished.plain

/-- What the next hypothesis takes from the previous tree is the token that stands in the
text. -/
def Run.TakesTokens (l : Language) (text : Bytes) (r : Run) : Prop :=
  ∀ i v, r.next? = some i → r.versions[i]? = some v → v.TakesToken l text

/-- No hypothesis is at the limit on reductions. -/
def Run.Below (r : Run) : Prop := ∀ v ∈ r.versions, v.reductions < maxReductions

/-- The state without the previous tree. -/
def Run.forget (r : Run) : Run :=
  { r with versions := r.versions.map fun v => { v with old := none } }

/-- One turn of a parse that does not use the previous tree. -/
def Run.freshTurn (l : Language) (text : Bytes) (r : Run) : Run := r.forget.turn l text

/-- What is taken is what a parse without the previous tree builds: once the parse has gone on
with tokens of the text, if at all, the other one comes to a state that is alike. -/
def Run.Rebuilds (l : Language) (text : Bytes) (r : Run) : Prop :=
  ∃ m k, 0 < m ∧ (∀ j, 0 < j → j < m → ((Run.turn l text)^[j] r).TakesTokens l text) ∧
    (∀ j, j < k → ((Run.freshTurn l text)^[j] r).Below) ∧
    ((Run.freshTurn l text)^[k] r).Alike l text ((Run.turn l text)^[m] r)

/-- What a parse takes stands in the text. -/
structure Run.Faithful (l : Language) (text : Bytes) (r : Run) : Prop where
  below : r.Below
  stands : r.TakesTokens l text ∨ r.Rebuilds l text

instance (l : Language) (text : Bytes) (r r' : Run) : Decidable (r.Alike l text r') :=
  decidable_of_iff (r.versions.map (Version.withToken l text) =
      r'.versions.map (Version.withToken l text) ∧
      r.finished.map Finished.plain = r'.finished.map Finished.plain)
    ⟨fun h => ⟨h.1, h.2⟩, fun h => ⟨h.versions, h.finished⟩⟩

instance (r : Run) : Decidable r.Below :=
  inferInstanceAs (Decidable (∀ v ∈ r.versions, v.reductions < maxReductions))

instance (l : Language) (text : Bytes) (r : Run) : Decidable (r.TakesTokens l text) :=
  match hn : r.next?.bind fun i => r.versions[i]? with
  | none => isTrue fun i v hi hv => by simp [hi, hv] at hn
  | some v => decidable_of_iff (v.TakesToken l text) (by
      obtain ⟨i, hi, hv⟩ := Option.bind_eq_some_iff.mp hn
      refine ⟨fun h j w hj hw => ?_, fun h => h i v hi hv⟩
      obtain rfl := Option.some.inj (hi.symm.trans hj)
      obtain rfl := Option.some.inj (hv.symm.trans hw)
      exact h)

variable {l : Language} {text : Bytes} {r r' : Run} {v v' w w' : Version} {t t' : Subtree} {i : Nat}

/-! ### Hypotheses that are alike -/

namespace Version

theorem state_eq_of_plain_eq (hv : v.plain = v'.plain) : v.state = v'.state := by
  rw [← state_plain, hv, state_plain]

theorem isEmpty_pending_eq_of_plain_eq (hv : v.plain = v'.plain) :
    v.pending.isEmpty = v'.pending.isEmpty := by
  rw [← pending_plain, hv, pending_plain]

theorem errorCost_eq_of_plain_eq (hv : v.plain = v'.plain) : v.errorCost = v'.errorCost := by
  rw [← errorCost_plain, hv, errorCost_plain]

theorem dynamicPrecedence_eq_of_plain_eq (hv : v.plain = v'.plain) :
    v.dynamicPrecedence = v'.dynamicPrecedence := by
  rw [← dynamicPrecedence_plain, hv, dynamicPrecedence_plain]

/-- Hypotheses that are alike have read the same. -/
theorem read_eq_of_plain_eq (hv : v.plain = v'.plain) :
    (v.nodes ++ v.pending).map Subtree.plain = (v'.nodes ++ v'.pending).map Subtree.plain := by
  have hnodes := congrArg Version.nodes hv
  have hpending := congrArg Version.pending hv
  rw [nodes_plain, nodes_plain] at hnodes
  rw [List.map_append, List.map_append, hnodes]
  exact congrArg _ hpending

/-- A reduction succeeds for both or for neither. -/
theorem reduce_of_plain_eq (hv : v.plain = v'.plain) (ht : t.plain = t'.plain)
    (p : ProductionInfo) (fragile : Bool) :
    (∃ w w', v.reduce l p fragile t = .ok w ∧ v'.reduce l p fragile t' = .ok w' ∧
      w.plain = w'.plain) ∨
    ∃ w w', v.reduce l p fragile t = .error w ∧ v'.reduce l p fragile t' = .error w' ∧
      w.plain = w'.plain := by
  have hresult := reduce_plain (l := l) v p fragile t
  rw [hv, ht, ← reduce_plain] at hresult
  cases hr : v.reduce l p fragile t with
  | ok w =>
    cases hr' : v'.reduce l p fragile t' with
    | ok w' =>
      rw [hr, hr'] at hresult
      exact .inl ⟨w, w', rfl, rfl, Except.ok.inj hresult⟩
    | error w' =>
      rw [hr, hr'] at hresult
      contradiction
  | error w =>
    cases hr' : v'.reduce l p fragile t' with
    | ok w' =>
      rw [hr, hr'] at hresult
      contradiction
    | error w' =>
      rw [hr, hr'] at hresult
      exact .inr ⟨w, w', rfl, rfl, Except.error.inj hresult⟩

end Version

/-! ### Steps -/

/-- Recovering changes the hypothesis at its place and adds others behind. -/
theorem Run.exists_versions_recover (r : Run) (i : Nat) (v : Version) (t : Subtree) :
    ∃ w rest, (r.recover l i v t).versions = r.versions.set i w ++ rest := by
  unfold Run.recover
  simp only
  cases v.recoveries l t with
  | nil => exact ⟨_, [], (List.append_nil _).symm⟩
  | cons first rest => exact ⟨first, rest, rfl⟩

/-- An action changes the hypothesis at its place and adds others behind. -/
theorem Run.exists_versions_apply (hi : r.versions[i]? = some v) (action : ParseAction) :
    ∃ w rest, (r.apply l i action t).versions = r.versions.set i w ++ rest := by
  unfold Run.apply
  rw [hi]
  cases action with
  | shift next => exact ⟨_, [], (List.append_nil _).symm⟩
  | reduce p =>
    simp only
    split
    · exact ⟨_, [], (List.append_nil _).symm⟩
    · cases l.production? p with
      | none => exact Run.exists_versions_recover (r.say (.reduce i p)) i _ t
      | some info =>
        simp only
        split
        · exact ⟨_, [], (List.append_nil _).symm⟩
        · exact Run.exists_versions_recover (r.say (.reduce i p)) i _ t
  | accept => exact ⟨_, [], (List.append_nil _).symm⟩

/-- A split leaves the hypotheses before it alone. -/
theorem Run.getElem?_fork (hi : r.versions[i]? = some v) (w : Version) (action : ParseAction) :
    (r.fork l w t action).versions[i]? = some v := by
  have hlt := (List.getElem?_eq_some_iff.mp hi).1
  let s : Run := { r with
    versions := r.versions ++ [w], stats := { r.stats with forks := r.stats.forks + 1 } }
  have hlast : s.versions[s.versions.length - 1]? = some w := by simp [s]
  obtain ⟨u, rest, hversions⟩ := Run.exists_versions_apply (l := l) (t := t) hlast action
  have hset : s.versions.set (s.versions.length - 1) u = r.versions ++ [u] := by simp [s]
  rw [hset, List.append_assoc] at hversions
  show (s.apply l (s.versions.length - 1) action t).versions[i]? = some v
  rw [hversions, List.getElem?_append_left hlt, hi]

namespace Run.Alike

theorem symm (h : r.Alike l text r') : r'.Alike l text r := ⟨h.versions.symm, h.finished.symm⟩

theorem trans {s : Run} (h : r.Alike l text r') (h' : r'.Alike l text s) : r.Alike l text s :=
  ⟨h.versions.trans h'.versions, h.finished.trans h'.finished⟩

/-- A state is alike to itself without the previous tree. -/
theorem forget (r : Run) : r.forget.Alike l text r where
  versions := by
    show (r.versions.map _).map _ = _
    rw [List.map_map]
    rfl
  finished := rfl

theorem length_eq (h : r.Alike l text r') : r.versions.length = r'.versions.length := by
  have hlen := congrArg List.length h.versions
  simpa using hlen

theorem say (h : r.Alike l text r') (e e' : Event) : (r.say e).Alike l text (r'.say e') :=
  ⟨h.versions, h.finished⟩

theorem set (h : r.Alike l text r') (hv : v.plain = v'.plain) :
    (r.set i v).Alike l text (r'.set i v') where
  versions := by
    show (r.versions.set i v).map _ = (r'.versions.set i v').map _
    rw [List.map_set, List.map_set, h.versions, Version.withToken_eq_of_plain_eq hv]
  finished := h.finished

theorem append (h : r.Alike l text r') {vs vs' : List Version}
    (hvs : vs.map Version.plain = vs'.map Version.plain) :
    Run.Alike l text { r with versions := r.versions ++ vs }
      { r' with versions := r'.versions ++ vs' } where
  versions := by
    have htokens (vs : List Version) : vs.map (Version.withToken l text) =
        (vs.map Version.plain).map (Version.withToken l text) := by
      rw [List.map_map]
      exact List.map_congr_left fun v _ => (Version.withToken_eq_of_plain_eq (Version.plain_plain v)).symm
    show (r.versions ++ vs).map _ = (r'.versions ++ vs').map _
    rw [List.map_append, List.map_append, h.versions, htokens vs, hvs, ← htokens vs']
  finished := h.finished

theorem finish (h : r.Alike l text r') {f f' : Finished} (hf : f.plain = f'.plain) :
    (r.finish f).Alike l text (r'.finish f') where
  versions := h.versions
  finished := by
    show (r.finished ++ [f]).map _ = (r'.finished ++ [f']).map _
    rw [List.map_append, List.map_append, h.finished, List.map_singleton, List.map_singleton, hf]

theorem giveUp (h : r.Alike l text r') (hv : v.plain = v'.plain) :
    (r.giveUp l i v).Alike l text (r'.giveUp l i v') := by
  have hversion : ({ v with halted := true, pending := [] } : Version).plain =
      ({ v' with halted := true, pending := [] } : Version).plain :=
    congrArg (fun w : Version => { w with halted := true, pending := [] }) hv
  have hcost := Version.errorCost_eq_of_plain_eq hv
  have hprecedence := Version.dynamicPrecedence_eq_of_plain_eq hv
  refine ((h.set hversion).say _ _).finish ?_
  have hroot : (Subtree.error l 0 recoveryCost (v.nodes ++ v.pending)).plain =
      (Subtree.error l 0 recoveryCost (v'.nodes ++ v'.pending)).plain :=
    Subtree.plain_error (Version.read_eq_of_plain_eq hv)
  simp only [Finished.plain, hroot, hcost, hprecedence]

theorem recover (h : r.Alike l text r') (hv : v.plain = v'.plain) (ht : t.plain = t'.plain) :
    (r.recover l i v t).Alike l text (r'.recover l i v' t') := by
  have hrecoveries : (v.recoveries l t).map Version.plain = (v'.recoveries l t').map Version.plain := by
    rw [Version.recoveries_plain, hv, ht, ← Version.recoveries_plain]
  unfold Run.recover
  simp only
  cases hfirst : v.recoveries l t with
  | nil =>
    rw [hfirst, List.map_nil, List.nil_eq, List.map_eq_nil_iff] at hrecoveries
    rw [hrecoveries]
    exact (h.say _ _).giveUp hv
  | cons first rest =>
    rw [hfirst, List.map_cons, eq_comm, List.map_eq_cons_iff] at hrecoveries
    obtain ⟨first', rest', hfirst', hplain, hrest⟩ := hrecoveries
    rw [hfirst']
    exact ((h.say _ _).set hplain.symm).append hrest.symm

theorem accept (h : r.Alike l text r') (hv : v.plain = v'.plain) :
    (r.accept l i v).Alike l text (r'.accept l i v') := by
  have hnodes := congrArg Version.nodes hv
  rw [Version.nodes_plain, Version.nodes_plain] at hnodes
  have hversion : ({ v with halted := true } : Version).plain =
      ({ v' with halted := true } : Version).plain :=
    congrArg (fun w : Version => { w with halted := true }) hv
  have hcost := Version.errorCost_eq_of_plain_eq hv
  have hprecedence := Version.dynamicPrecedence_eq_of_plain_eq hv
  refine (h.set hversion).finish ?_
  have hroot : (rootOf l v.nodes v'.errorCost).plain = (rootOf l v'.nodes v'.errorCost).plain := by
    rw [rootOf_plain, hnodes, ← rootOf_plain]
  simp only [Finished.plain, hroot, hcost, hprecedence]

/-- Below the limit on reductions an action does the same to both. -/
theorem apply (h : r.Alike l text r') (hi : r.versions[i]? = some v)
    (hi' : r'.versions[i]? = some v') (hv : v.plain = v'.plain) (ht : t.plain = t'.plain)
    (hb : v.reductions < maxReductions) (hb' : v'.reductions < maxReductions)
    (action : ParseAction) : (r.apply l i action t).Alike l text (r'.apply l i action t') := by
  unfold Run.apply
  rw [hi, hi']
  cases action with
  | shift next =>
    refine (h.say _ _).set ?_
    rw [Version.shift_plain, hv, ht, ← Version.shift_plain]
  | reduce p =>
    have hcounted : ({ v with reductions := v.reductions + 1 } : Version).plain =
        ({ v' with reductions := v'.reductions + 1 } : Version).plain := hv
    have hlimit : ¬v.reductions + 1 > maxReductions := Nat.not_lt.mpr hb
    have hlimit' : ¬v'.reductions + 1 > maxReductions := Nat.not_lt.mpr hb'
    simp only
    rw [if_neg hlimit, if_neg hlimit']
    cases l.production? p with
    | none => exact (h.say _ _).recover hcounted ht
    | some info =>
      have hlen : (r.say (.reduce i p)).versions.length = (r'.say (.reduce i p)).versions.length :=
        h.length_eq
      simp only [hlen]
      obtain ⟨w, w', hw, hw', hresult⟩ | ⟨w, w', hw, hw', hresult⟩ :=
        Version.reduce_of_plain_eq (l := l) hcounted ht info
          ((r'.say (.reduce i p)).versions.length > 1)
      · rw [hw, hw']
        exact (h.say _ _).set hresult
      · rw [hw, hw']
        exact (h.say _ _).recover hresult ht
  | accept => exact (h.say _ _).accept hv

theorem fork (h : r.Alike l text r') (hv : v.plain = v'.plain) (ht : t.plain = t'.plain)
    (hb : v.reductions < maxReductions) (hb' : v'.reductions < maxReductions)
    (action : ParseAction) : (r.fork l v t action).Alike l text (r'.fork l v' t' action) := by
  have hsingle : [v].map Version.plain = [v'].map Version.plain := by
    rw [List.map_singleton, List.map_singleton, hv]
  have happend := h.append hsingle
  have hsplit : Run.Alike l text
      { r with versions := r.versions ++ [v], stats := { r.stats with forks := r.stats.forks + 1 } }
      { r' with versions := r'.versions ++ [v'], stats := { r'.stats with forks := r'.stats.forks + 1 } } :=
    ⟨happend.versions, happend.finished⟩
  have hlen : (r.versions ++ [v]).length = (r'.versions ++ [v']).length := by
    simp [h.length_eq]
  unfold Run.fork
  simp only [hlen]
  exact hsplit.apply (by simp [h.length_eq]) (by simp) hv ht hb hb' action

/-- The same actions on the same token do the same to both. -/
theorem act (h : r.Alike l text r') (hi : r.versions[i]? = some v)
    (hi' : r'.versions[i]? = some v') (hv : v.plain = v'.plain) (ht : t.plain = t'.plain)
    (hb : v.reductions < maxReductions) (hb' : v'.reductions < maxReductions)
    (actions : List ParseAction) :
    (r.act l i v t actions).Alike l text (r'.act l i v' t' actions) := by
  have hleaf : t.isLeaf = t'.isLeaf := by
    rw [← Subtree.isLeaf_plain, ht, Subtree.isLeaf_plain]
  have hshiftable : isShiftableExtra l t = isShiftableExtra l t' := by
    rw [← isShiftableExtra_plain, ht, isShiftableExtra_plain]
  unfold Run.act
  cases actions with
  | nil =>
    simp only [hleaf, hshiftable]
    split
    · exact h.set (congrArg (fun w : Version => { w with lookahead := none, old := none }) hv)
    · split
      · refine (h.say _ _).set ?_
        rw [Version.shift_plain, hv, ht, Version.state_eq_of_plain_eq hv, ← Version.shift_plain]
      · exact h.recover hv ht
  | cons first rest =>
    -- the splits keep the hypothesis in its place for the first action
    have hforks (r r' : Run) (h : r.Alike l text r') (hi : r.versions[i]? = some v)
        (hi' : r'.versions[i]? = some v') :
        ((rest.foldl (fun r action => r.fork l v t action) r).apply l i first t).Alike l text
          ((rest.foldl (fun r action => r.fork l v' t' action) r').apply l i first t') := by
      induction rest generalizing r r' with
      | nil => exact h.apply hi hi' hv ht hb hb' first
      | cons action rest ih =>
        exact ih _ _ (h.fork hv ht hb hb' action) (Run.getElem?_fork hi v action)
          (Run.getElem?_fork hi' v' action)
    exact hforks r r' h hi hi'

/-! ### Turns -/

/-- Hypotheses that take nothing but tokens of the text make the same step. -/
theorem step (h : r.Alike l text r') (hr : ∀ v, r.versions[i]? = some v → v.TakesToken l text)
    (hr' : ∀ v, r'.versions[i]? = some v → v.TakesToken l text) (hb : r.Below) (hb' : r'.Below) :
    (r.step l text i).Alike l text (r'.step l text i) := by
  have hi : (r.versions[i]?).map (Version.withToken l text) =
      (r'.versions[i]?).map (Version.withToken l text) := by
    rw [← List.getElem?_map, h.versions, List.getElem?_map]
  unfold Run.step
  cases hv : r.versions[i]? with
  | none =>
    rw [hv, Option.map_none, eq_comm, Option.map_eq_none_iff] at hi
    rw [hi]
    exact h
  | some v =>
    rw [hv, Option.map_some, eq_comm, Option.map_eq_some_iff] at hi
    obtain ⟨v', hv', hplain⟩ := hi
    have hfetch := fetch_spec l text r hv
    have hfetch' := fetch_spec l text r' hv'
    have hbelow := hb v (List.mem_of_getElem? hv)
    have hbelow' := hb' v' (List.mem_of_getElem? hv')
    rw [hv']
    simp only
    generalize r.fetch l text i v = fetched at hfetch
    generalize r'.fetch l text i v' = fetched' at hfetch'
    obtain ⟨t, w, s⟩ := fetched
    obtain ⟨t', w', s'⟩ := fetched'
    obtain ⟨hf, hs, hfinished, -⟩ := hfetch
    obtain ⟨hf', hs', hfinished', -⟩ := hfetch'
    -- both find the token that the text has for a hypothesis without the previous tree
    have ht : t.plain = t'.plain := by
      rw [hf.plain_token (hr v hv), hf'.plain_token (hr' v' hv')]
      exact Option.some.inj (congrArg Version.lookahead hplain.symm)
    have hw : w.plain = w'.plain := by
      rw [hf.plain_eq (hr v hv), hf'.plain_eq (hr' v' hv'), hplain]
    have hset := h.set (i := i) hw
    have halike : s.Alike l text s' :=
      ⟨by rw [hs, hs']; exact hset.versions, by rw [hfinished, hfinished']; exact hset.finished⟩
    have hi : s.versions[i]? = some w := by
      rw [hs, List.getElem?_set_self (List.getElem?_eq_some_iff.mp hv).1]
    have hi' : s'.versions[i]? = some w' := by
      rw [hs', List.getElem?_set_self (List.getElem?_eq_some_iff.mp hv').1]
    rw [← hf.reductions_eq] at hbelow
    rw [← hf'.reductions_eq] at hbelow'
    have hpending := Version.isEmpty_pending_eq_of_plain_eq hw
    have hactions : actionsFor l w.state t = actionsFor l w'.state t' := by
      rw [Version.state_eq_of_plain_eq hw, ← actionsFor_plain, ht, actionsFor_plain]
    have hshiftable : isShiftableExtra l t = isShiftableExtra l t' := by
      rw [← isShiftableExtra_plain, ht, isShiftableExtra_plain]
    simp only [hpending, hactions, hshiftable]
    split
    · exact halike.act hi hi' hw ht hbelow hbelow' _
    · split
      · split
        · refine halike.set ?_
          rw [Version.skipExtra_plain, hw, ht, ← Version.skipExtra_plain]
        · exact halike.recover hw ht
      · have hflush : (w.flush l).plain = (w'.flush l).plain := by
          rw [Version.flush_plain, hw, ← Version.flush_plain]
        have hplace : (s.set i (w.flush l)).versions[i]? = some (w.flush l) :=
          List.getElem?_set_self (List.getElem?_eq_some_iff.mp hi).1
        have hplace' : (s'.set i (w'.flush l)).versions[i]? = some (w'.flush l) :=
          List.getElem?_set_self (List.getElem?_eq_some_iff.mp hi').1
        rw [← Version.reductions_flush (l := l)] at hbelow hbelow'
        exact (halike.set hflush).act hplace hplace' hflush ht hbelow hbelow' _

/-- Which hypothesis is next does not depend on what only reuse depends on. -/
theorem next?_eq (h : r.Alike l text r') : r.next? = r'.next? := by
  have hnext (r : Run) : r.next? = ((firstBest? (fun a b : Version × Nat =>
      a.1.position.bytes < b.1.position.bytes)
        ((r.versions.map (Version.withToken l text)).zipIdx.filter fun x =>
          !x.1.halted)).map Prod.snd) := by
    unfold Run.next?
    rw [List.zipIdx_map, List.filter_map, firstBest?_map, Option.map_map]
    rfl
  rw [hnext r, hnext r', h.versions]

theorem condense (h : r.Alike l text r') :
    Run.Alike l text { r with versions := Parse.condense r.versions r.finished }
      { r' with versions := Parse.condense r'.versions r'.finished } := by
  have hunseen : Unseen (Version.withToken l text) := Version.unseen_withToken
  have hmap := hunseen.condense_map (g := Finished.plain) fun _ => rfl
  refine ⟨?_, h.finished⟩
  show (Parse.condense r.versions r.finished).map _ = (Parse.condense r'.versions r'.finished).map _
  rw [← hmap, h.versions, h.finished, hmap]

theorem turn (h : r.Alike l text r') (hr : r.TakesTokens l text) (hr' : r'.TakesTokens l text)
    (hb : r.Below) (hb' : r'.Below) : (r.turn l text).Alike l text (r'.turn l text) := by
  have hnext := h.next?_eq
  unfold Run.turn
  cases hn : r.next? with
  | none =>
    rw [← hnext, hn]
    exact h
  | some i =>
    rw [← hnext, hn]
    have hcounted : Run.Alike l text
        { r with stats := { r.stats with operations := r.stats.operations + 1 } }
        { r' with stats := { r'.stats with operations := r'.stats.operations + 1 } } :=
      ⟨h.versions, h.finished⟩
    exact (hcounted.step (fun v hv => hr i v hn hv) (fun v hv => hr' i v (hnext ▸ hn) hv)
      hb hb').condense

/-- Outcomes that are alike give the same tree. -/
theorem bestTree (h : r.Alike l text r') (hcomplete : (r.bestTree l).complete = true) :
    (r.bestTree l).root.plain = (r'.bestTree l).root.plain := by
  have hfinished (r : Run) : (firstBest? Finished.isBetter r.finished).map Finished.plain =
      firstBest? Finished.isBetter (r.finished.map Finished.plain) := by
    rw [firstBest?_map]
    rfl
  have hbest := hfinished r
  rw [h.finished, ← hfinished r'] at hbest
  unfold Run.bestTree at hcomplete ⊢
  cases hr : firstBest? Finished.isBetter r.finished with
  | none =>
    rw [hr] at hcomplete
    contradiction
  | some f =>
    rw [hr, Option.map_some, eq_comm, Option.map_eq_some_iff] at hbest
    obtain ⟨f', hr', hf⟩ := hbest
    rw [hr']
    exact (congrArg Finished.root hf).symm

end Run.Alike

/-! ## Runs -/

/-- Without the previous tree nothing is taken from it. -/
theorem Run.takesTokens_forget (r : Run) : r.forget.TakesTokens l text := by
  intro i v _ hv
  obtain ⟨u, -, rfl⟩ := List.mem_map.mp (List.mem_of_getElem? hv)
  exact Version.takesToken_of_old rfl

theorem Run.Below.forget (h : r.Below) : r.forget.Below := by
  intro v hv
  obtain ⟨u, hu, rfl⟩ := List.mem_map.mp hv
  exact h u hu

/-- A parse without a previous tree keeps up with one that does not use it. -/
theorem Run.Alike.freshTurns {f : Run} (h : f.Alike l text r) {k : Nat}
    (hf : ∀ n, ((Run.turn l text)^[n] f).TakesTokens l text)
    (hbelow : ∀ n, ((Run.turn l text)^[n] f).Below)
    (hr : ∀ j, j < k → ((Run.freshTurn l text)^[j] r).Below) :
    ((Run.turn l text)^[k] f).Alike l text ((Run.freshTurn l text)^[k] r) := by
  induction k with
  | zero => exact h
  | succ k ih =>
    have hk := ih fun j hj => hr j (Nat.lt_succ_of_lt hj)
    rw [Function.iterate_succ_apply', Function.iterate_succ_apply']
    exact (hk.trans (Run.Alike.forget _).symm).turn (hf k) (Run.takesTokens_forget _) (hbelow k)
      (hr k (Nat.lt_succ_self k)).forget

/-- Again and again a parse whose previous tree is faithful comes to where a parse without it
comes to. -/
theorem Run.Alike.exists_turns {f : Run} (h : f.Alike l text r)
    (hf : ∀ n, ((Run.turn l text)^[n] f).TakesTokens l text)
    (hbelow : ∀ n, ((Run.turn l text)^[n] f).Below)
    (hr : ∀ n, ((Run.turn l text)^[n] r).Faithful l text) (n : Nat) :
    ∃ m k, n ≤ m ∧ ((Run.turn l text)^[k] f).Alike l text ((Run.turn l text)^[m] r) := by
  induction n with
  | zero => exact ⟨0, 0, Nat.le_refl 0, h⟩
  | succ n ih =>
    obtain ⟨m, k, hle, hm⟩ := ih
    by_cases hlt : n < m
    · exact ⟨m, k, hlt, hm⟩
    · obtain rfl : n = m := Nat.le_antisymm hle (Nat.le_of_not_lt hlt)
      obtain ⟨hb, htakes | ⟨m', k', hpos, -, hbelow', hrebuilt⟩⟩ := hr n
      · refine ⟨n + 1, k + 1, Nat.le_refl _, ?_⟩
        rw [Function.iterate_succ_apply', Function.iterate_succ_apply']
        exact hm.turn (hf k) htakes (hbelow k) hb
      · refine ⟨m' + n, k' + k, by omega, ?_⟩
        rw [Function.iterate_add_apply, Function.iterate_add_apply]
        have hfresh := hm.freshTurns (k := k')
          (fun j => by rw [← Function.iterate_add_apply]; exact hf (j + k))
          (fun j => by rw [← Function.iterate_add_apply]; exact hbelow (j + k)) hbelow'
        exact hfresh.trans hrebuilt

/-- Without limits a parse goes on by turns. -/
theorem Run.loop_of_next? (hn : r.next? = some i) (fuel : Nat) :
    r.loop l text {} (fuel + 1) = (r.turn l text).loop l text {} fuel := by
  have hstop : Limits.stop {} r.stats.operations = false := by simp [Limits.stop]
  rw [Run.turn_of_next? hn, Run.loop, hstop, if_neg Bool.false_ne_true, hn]

/-- A complete tree is the best outcome of a state where no hypothesis is left. -/
theorem Run.exists_turns_of_complete {fuel : Nat} (h : (r.loop l text {} fuel).1.complete = true) :
    ∃ n, ((Run.turn l text)^[n] r).next? = none ∧
      (r.loop l text {} fuel).1 = ((Run.turn l text)^[n] r).bestTree l := by
  induction fuel generalizing r with
  | zero => contradiction
  | succ fuel ih =>
    cases hn : r.next? with
    | none =>
      refine ⟨0, hn, ?_⟩
      have hstop : Limits.stop {} r.stats.operations = false := by simp [Limits.stop]
      rw [Run.loop, hstop, if_neg Bool.false_ne_true, hn]
      rfl
    | some i =>
      rw [Run.loop_of_next? hn] at h ⊢
      obtain ⟨n, hend, htree⟩ := ih h
      exact ⟨n + 1, hend, htree⟩

/-- Where no hypothesis is left nothing changes. -/
theorem Run.turns_of_next? (h : r.next? = none) (n : Nat) : (Run.turn l text)^[n] r = r := by
  refine Function.iterate_fixed ?_ n
  unfold Run.turn
  rw [h]

/-- Once no hypothesis is left a parse stays where it is. -/
theorem Run.turns_eq_of_next? {m n : Nat} (hm : ((Run.turn l text)^[m] r).next? = none)
    (hn : ((Run.turn l text)^[n] r).next? = none) :
    (Run.turn l text)^[m] r = (Run.turn l text)^[n] r := by
  rcases Nat.le_total m n with h | h
  · obtain ⟨k, rfl⟩ := Nat.exists_eq_add_of_le' h
    rw [Function.iterate_add_apply, Run.turns_of_next? hm]
  · obtain ⟨k, rfl⟩ := Nat.exists_eq_add_of_le' h
    rw [Function.iterate_add_apply, Run.turns_of_next? hn]

end Parse

/-! ## Parsing again -/

section

variable {l : Language} {g : FlatGrammar} {text : Bytes}

/-- A parse without a previous tree goes on without one. -/
theorem Language.old_eq_none_turns (hg : l.Sound g) (text : Bytes) (n : Nat) {i : Nat} {v : Version}
    (hn : ((Run.turn l text)^[n] (l.startRun text none)).next? = some i)
    (hv : ((Run.turn l text)^[n] (l.startRun text none)).versions[i]? = some v) : v.old = none := by
  have hreached : Run.Reached l text none _ := Run.Reached.start.turns n
  have hold := (hreached.invariant (P := fun v => v.old = none) (Q := fun _ => True) hg
    (covers_anyText text) (by simp) ?_ (fun v t w _ hv hf => hf.old_eq_none hv)
    (fun v t w _ _ hv hw => hw.old_eq_none hv) fun _ _ _ _ _ _ _ _ => trivial).1
  · obtain ⟨u, hu, hlive⟩ := next?_eq_some hn
    obtain rfl := Option.some.inj (hv.symm.trans hu)
    exact hold v (List.mem_of_getElem? hv) hlive
  · rw [Language.versions_startRun]
    intro v hv
    rw [List.mem_singleton.mp hv]
    rfl

/-- A parse without a previous tree takes nothing. -/
theorem Language.takesTokens_turns (hg : l.Sound g) (text : Bytes) (n : Nat) :
    ((Run.turn l text)^[n] (l.startRun text none)).TakesTokens l text :=
  fun _ _ hn hv => Version.takesToken_of_old (Language.old_eq_none_turns hg text n hn hv)

/-- A parse that takes from the previous tree only what stands in the text gives the tree of a
parse without it. -/
theorem Language.sameAs_parse_none {handle : Nat} {grammar : Grammar} {scanner : Option Scanner}
    (h : Language.ofGrammar handle grammar scanner = .ok l) {old : Option Tree}
    (hold : ∀ t, old = some t → l.Obtained t)
    (hfresh : ∀ n, ((Run.turn l text)^[n] (l.startRun text none)).Below)
    (hfaithful : ∀ n, ((Run.turn l text)^[n] (l.startRun text old)).Faithful l text) :
    (l.parse {} text old).1.sameAs (l.parse {} text none).1 = true := by
  obtain ⟨g, -, hg⟩ := Language.ofGrammar_sound h
  have hstart : (l.startRun text none).Alike l text (l.startRun text old) := by
    constructor
    · rw [Language.versions_startRun, Language.versions_startRun]
      rfl
    · rw [Language.finished_startRun, Language.finished_startRun]
  have hcomplete := Language.complete_parse h text hold
  have hcomplete' := Language.complete_parse h text (show ∀ t, none = some t → l.Obtained t by simp)
  rw [Language.tree_parse] at hcomplete hcomplete' ⊢
  rw [Language.tree_parse]
  obtain ⟨n, hend, htree⟩ := Run.exists_turns_of_complete hcomplete
  obtain ⟨n', hend', htree'⟩ := Run.exists_turns_of_complete hcomplete'
  obtain ⟨m, k, hle, halike⟩ :=
    hstart.exists_turns (Language.takesTokens_turns hg text) hfresh hfaithful n
  -- both have come to their ends by then
  obtain ⟨d, rfl⟩ := Nat.exists_eq_add_of_le' hle
  rw [Function.iterate_add_apply, Run.turns_of_next? hend] at halike
  have hended := halike.next?_eq.trans hend
  rw [Run.turns_eq_of_next? hended hend'] at halike
  rw [htree'] at hcomplete'
  rw [htree, htree']
  exact Subtree.sameAs_of_plain_eq (halike.bestTree hcomplete').symm

theorem Language.Obtained.editAll {t t' : Tree} {edits : List Edit} (h : l.Obtained t)
    (he : t.editAll edits = .ok t') : l.Obtained t' := by
  induction edits generalizing t with
  | nil =>
    obtain rfl := Except.ok.inj he
    exact h
  | cons e edits ih =>
    unfold Tree.editAll at he
    rw [List.foldlM_cons] at he
    cases hedit : t.edit e with
    | error err =>
      rw [hedit] at he
      contradiction
    | ok t₁ =>
      rw [hedit] at he
      exact ih (.edited h hedit) he

/-- Parsing again after replacements gives a tree, and it is the one that a parse of the new
text gives, as long as no parse is at the limit on reductions and what is taken from the
previous tree stands in the new text. -/
theorem Language.reparse_sameAs {handle : Nat} {grammar : Grammar} {scanner : Option Scanner}
    (h : Language.ofGrammar handle grammar scanner = .ok l) {text text' : Bytes}
    {edits : List Edit} (hedits : Edit.Leads text edits text') {old : Tree}
    (hold : l.Obtained old) (hsize : old.lenBytes = text.size)
    (hfresh : ∀ n, ((Run.turn l text')^[n] (l.startRun text' none)).Below)
    (hfaithful : ∀ edited, old.editAll edits = .ok edited →
      ∀ n, ((Run.turn l text')^[n] (l.startRun text' (some edited))).Faithful l text') :
    ∃ t events, l.reparse {} old edits text' = .ok (t, events) ∧
      t.sameAs (l.parse {} text' none).1 = true := by
  obtain ⟨edited, hedited, -⟩ := hedits.editAll hsize
  have hobtained : ∀ t, some edited = some t → l.Obtained t := by
    intro t ht
    rw [← Option.some.inj ht]
    exact hold.editAll hedited
  have hsame := Language.sameAs_parse_none h hobtained hfresh (hfaithful edited hedited)
  have hreparse : l.reparse {} old edits text' = .ok (l.parse {} text' (some edited)) := by
    unfold Language.reparse
    rw [hedited]
  cases hp : l.parse {} text' (some edited) with
  | mk t events =>
    rw [hp] at hreparse hsame
    exact ⟨t, events, hreparse, hsame⟩

/-! ### Two lines -/

/-- Whether a parse ends within some turns, and what it takes stands in the text: it is a token
there, or built in `k` turns at once. -/
def Parse.Run.isFaithful (l : Language) (text : Bytes) (k : Nat) : Nat → Run → Bool
  | 0, r => r.next?.isNone && decide r.Below
  | n + 1, r =>
    decide r.Below && (decide (r.TakesTokens l text) ||
      decide (∀ j, j < k → ((Run.freshTurn l text)^[j] r).Below) &&
        decide (((Run.freshTurn l text)^[k] r).Alike l text (r.turn l text))) &&
      (r.turn l text).isFaithful l text k n

theorem Parse.Run.faithful_turns {k n : Nat} {r : Run} (h : r.isFaithful l text k n = true) (m : Nat) :
    ((Run.turn l text)^[m] r).Faithful l text := by
  induction n generalizing r m with
  | zero =>
    rw [Run.isFaithful, Bool.and_eq_true, Option.isNone_iff_eq_none, decide_eq_true_eq] at h
    obtain ⟨hnext, hbelow⟩ := h
    rw [Run.turns_of_next? hnext]
    refine ⟨hbelow, .inl fun i v hn => ?_⟩
    rw [hnext] at hn
    contradiction
  | succ n ih =>
    simp only [Run.isFaithful, Bool.and_eq_true, Bool.or_eq_true, decide_eq_true_eq] at h
    obtain ⟨⟨hbelow, hstands⟩, hrest⟩ := h
    cases m with
    | zero =>
      refine ⟨hbelow, hstands.imp id fun ⟨hfresh, halike⟩ => ?_⟩
      exact ⟨1, k, Nat.one_pos, fun j h₀ h₁ => absurd h₁ (Nat.not_lt.mpr h₀), hfresh, halike⟩
    | succ m => exact ih hrest m

/-- Three lines, the first of them a pair, the last of them one of two letters. -/
def Grammar.threeLines : Grammar :=
  { name := "lines", extras := some [] : Grammar }
    |>.addRule "s" (.seq [.sym "pair", .string "\n", .string "x", .string "\n",
        .choice [.string "b", .string "c"]])
    |>.addRule "pair" (.seq [.string "a", .string "a"])

/-- The letter of the last line is replaced, and the pair is taken from the tree as a whole. -/
theorem Language.reparse_sameAs_threeLines : ∃ l old edits edited t events,
    Language.ofGrammar 0 .threeLines none = .ok l ∧
    Edit.Leads (Bytes.ofString "aa\nx\nb") edits (Bytes.ofString "aa\nx\nc") ∧
    l.Obtained old ∧ old.lenBytes = (Bytes.ofString "aa\nx\nb").size ∧
    (∀ n, ((Run.turn l (Bytes.ofString "aa\nx\nc"))^[n]
      (l.startRun (Bytes.ofString "aa\nx\nc") none)).Below) ∧
    old.editAll edits = .ok edited ∧
    ((l.startRun (Bytes.ofString "aa\nx\nc") (some edited)).versions.any fun v =>
      (v.taken? l).any fun t => !t.isLeaf) = true ∧
    (∀ n, ((Run.turn l (Bytes.ofString "aa\nx\nc"))^[n]
      (l.startRun (Bytes.ofString "aa\nx\nc") (some edited))).Faithful l
        (Bytes.ofString "aa\nx\nc")) ∧
    l.reparse {} old edits (Bytes.ofString "aa\nx\nc") = .ok (t, events) ∧
    t.sameAs (l.parse {} (Bytes.ofString "aa\nx\nc") none).1 = true := by
  let e := Edit.replace (Bytes.ofString "aa\nx\nb") 5 6 (Bytes.ofString "c")
  have hrun : (Language.ofGrammar 0 .threeLines none).toOption.any (fun l =>
      let old := (l.parse {} (Bytes.ofString "aa\nx\nb") none).1
      old.lenBytes == (Bytes.ofString "aa\nx\nb").size &&
        (l.startRun (Bytes.ofString "aa\nx\nc") none).isFaithful l
          (Bytes.ofString "aa\nx\nc") 0 12 &&
        (old.editAll [e]).toOption.any fun edited =>
          let r := l.startRun (Bytes.ofString "aa\nx\nc") (some edited)
          (r.versions.any fun v => (v.taken? l).any fun t => !t.isLeaf) &&
            r.isFaithful l (Bytes.ofString "aa\nx\nc") 3 12) = true := by
    decide +kernel
  obtain ⟨l, hl, hrun⟩ := exists_ok hrun
  simp only [Bool.and_eq_true, beq_iff_eq] at hrun
  obtain ⟨⟨hsize, hfresh⟩, hrun⟩ := hrun
  obtain ⟨edited, hedited, hrun⟩ := exists_ok hrun
  rw [Bool.and_eq_true] at hrun
  obtain ⟨htaken, hfaithful⟩ := hrun
  have hold : l.Obtained (l.parse {} (Bytes.ofString "aa\nx\nb") none).1 := .parsed (by simp)
  have hfresh := fun n => (Parse.Run.faithful_turns hfresh n).below
  have hfaithful := Parse.Run.faithful_turns hfaithful
  have hedits : Edit.Leads (Bytes.ofString "aa\nx\nb") [e] (Bytes.ofString "aa\nx\nc") :=
    .replace (by decide) (by decide) .none
  obtain ⟨t, events, hreparse, hsame⟩ :=
    Language.reparse_sameAs hl hedits hold hsize hfresh fun edited' h => by
      obtain rfl := Except.ok.inj (hedited.symm.trans h)
      exact hfaithful
  exact ⟨l, _, [e], edited, t, events, hl, hedits, hold, hsize, hfresh, hedited, htaken, hfaithful,
    hreparse, hsame⟩

end

end Glr
