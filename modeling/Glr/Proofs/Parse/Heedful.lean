import Glr.Proofs.Parse.Plain
import Glr.Proofs.Parse.Priced
import Glr.Proofs.Tree.Marks

/-!
# Glr.Proofs.Parse.Heedful

Words that may stand behind no extra.  A hypothesis knows whether the last word that it has taken
was an extra, and what it finds next was found with that in mind:

```
nodes ++ pending ++ token   ↦   words,  each of them behind an extra only where it may
last word of nodes ++ pending an extra   →   afterExtra,  where text is left
```

A token that is taken from the previous tree was found behind an extra if it comes to stand behind
one.  Of a node with children that is not asked, so nothing follows of its first word; the last one
is no extra, for a reduction leaves the extras on top of the stack outside of the new node.
-/

namespace Glr.Parse

open Subtree Run
open Version (stateOf)

variable {g : FlatGrammar} {l : Language} {Spans : Nat → Length → Prop} {text : Bytes}
  {old : Option Tree} {Bound : NodeInfo → Prop} {size : Nat} {v w : Version} {t u : Subtree}
  {ts us : List Subtree} {r : Run}

/-! ## Hypotheses -/

/-- Behind an extra stands no node without text, errors apart. -/
def Backed (a b : Subtree) : Prop :=
  a.info.extra = true → a.info.errorCost = 0 → b.info.extra = false → b.info.errorCost = 0 →
    0 < b.size.bytes

/-- What a hypothesis has read stands behind extras only where it may, and so does the token that
it has found. -/
structure Version.Heedful (l : Language) (Bound : NodeInfo → Prop) (size : Nat) (v : Version) :
    Prop where
  nodes : ∀ t ∈ v.nodes ++ v.pending ++ v.lookahead.toList, Everywhere (Sealed l Bound size) t
  follow : ((v.nodes ++ v.pending ++ v.lookahead.toList).flatMap (marks Bound)).IsChain Mark.Before
  /-- It knows of an extra that it has taken last, if there is more text. -/
  known : v.lookahead = none → v.position.bytes < size →
    ∀ j ∈ ((v.nodes ++ v.pending).flatMap words).getLast?, j.extra = true → v.afterExtra = true
  backed : v.nodes.IsChain Backed
  /-- A node that it has taken from the previous tree fits. -/
  inner : ∀ t, v.lookahead = some t → t.children ≠ [] →
    v.pending = [] ∧ actionsFor l v.state t ≠ []
  old : ∀ o, v.old = some o → o.Sound (fun _ t => Everywhere (Sealed l Bound size) t) size

/-- If a node from the previous tree stands before a hypothesis behind an extra, then the first
word of the node may stand there. -/
def Version.TakesApart (l : Language) (Bound : NodeInfo → Prop) (v : Version) : Prop :=
  ∀ t, v.afterExtra = true → v.taken? l = some t → t.children ≠ [] →
    ∀ j ∈ t.words.head?, ¬Bound j

/-! ## Finding the token -/

/-- What is found may stand behind what the hypothesis has read. -/
theorem Version.Heedful.found (h : v.Heedful l Bound size) (hl : v.lookahead = none)
    {walk : Option OldTree}
    (hwalk : ∀ o, walk = some o → o.Sound (fun _ t => Everywhere (Sealed l Bound size) t) size)
    (ht : Everywhere (Sealed l Bound size) t)
    (hinner : t.children ≠ [] → v.pending = [] ∧ actionsFor l v.state t ≠ [])
    (hfree : ∀ m ∈ (marks Bound t).head?,
      v.position.bytes < size ∧ (v.afterExtra = true → m.free)) :
    Version.Heedful l Bound size { v with lookahead := some t, old := walk } := by
  have hnodes := h.nodes
  have hfollow := h.follow
  rw [hl, Option.toList_none, List.append_nil] at hnodes hfollow
  refine ⟨fun u hu => ?_, ?_, by rintro ⟨⟩, h.backed, ?_, hwalk⟩
  · rcases List.mem_append.mp hu with hu | hu
    · exact hnodes u hu
    · rwa [List.mem_singleton.mp hu]
  · show ((v.nodes ++ v.pending ++ [t]).flatMap (marks Bound)).IsChain Mark.Before
    rw [List.flatMap_append, List.flatMap_singleton, List.isChain_append]
    refine ⟨hfollow, isChain_marks ht, fun a ha b hb hx => ?_⟩
    obtain ⟨hposition, hfree⟩ := hfree b hb
    -- the word that is marked last is the last one
    obtain ⟨j, hj, hjx⟩ := exists_getLast?_of_map_eq (map_extra_flatMap _) ha
    exact hfree (h.known hl hposition j hj (hjx.trans hx))
  · rintro u hu hn
    obtain rfl := Option.some.inj hu
    exact hinner hn

theorem ne_nil_of_goto? {q : StateId} (h : (l.goto? q t.symbol).isSome = true) :
    actionsFor l q t ≠ [] := by
  rw [actionsFor, if_pos (isNonterminal_of_goto? h)]
  obtain ⟨next, hnext⟩ := Option.isSome_iff_exists.mp h
  simp [hnext]

theorem Fetched.heedful (hg : l.Sound g) (h : v.Heedful l Bound text.size)
    (hapart : v.TakesApart l Bound) (hf : Fetched l text v t w) : w.Heedful l Bound text.size := by
  cases hf with
  | kept _ => exact h
  | @reused _ o o' hl ho hp hr =>
    have hspec := OldTree.reuse?_spec l v.reuseSite (h.old o ho)
    rw [hr] at hspec
    have ht := hspec.2 t rfl
    refine h.found hl (by rintro _ ⟨⟩; exact hspec.1) ht.built
      (fun hn => ⟨hp, ne_nil_of_goto? (ht.inner hn)⟩) fun m hm => ⟨?_, fun hx => ?_⟩
    · exact Nat.lt_of_lt_of_le (Nat.lt_add_of_pos_right ht.pos) ht.stop
    · obtain ⟨i, cs⟩ := t
      cases cs with
      | nil =>
        have hafter : i.afterExtra = v.afterExtra := ht.afterExtra rfl
        rw [marks_leaf] at hm
        split at hm
        · contradiction
        · obtain rfl := Option.some.inj hm
          exact hafter.trans hx
      | cons c cs =>
        rw [marks_inner i (List.cons_ne_nil c cs), settled, List.head?_map] at hm
        obtain ⟨j, hj, rfl⟩ := Option.map_eq_some_iff.mp hm
        refine hapart (.mk i (c :: cs)) hx ?_ (List.cons_ne_nil c cs) j ?_
        · rw [Version.taken?, hl, hp, ho]
          exact congrArg Prod.fst hr
        · rwa [words_of_ne_nil (List.cons_ne_nil c cs)]
  | @lexed walk hl ho =>
    have htoken := tokenAt_token text (v.site l) hg
    have hafter := afterExtra_token l text (v.site l)
    generalize (token l text (v.site l)).1 = t at htoken hafter
    obtain ⟨i, cs⟩ := t
    obtain rfl : cs = [] := htoken.leaf
    refine h.found hl (fun o hw => ?_) (Sealed.leaf fun hhidden => ?_)
      (fun hn => absurd rfl hn) fun m hm => ?_
    · cases ho with
      | not => exact h.old o hw
      | inVain ho' hr =>
        obtain rfl := Option.some.inj hw
        have hspec := OldTree.reuse?_spec l v.reuseSite (h.old _ ho')
        rw [hr] at hspec
        exact hspec.1
    · rw [isHidden, htoken.terminal, Bool.and_false] at hhidden
      contradiction
    · rw [marks_leaf] at hm
      split at hm
      · contradiction
      · rename_i hz
        obtain rfl := Option.some.inj hm
        refine ⟨?_, fun hx => (hafter hz).trans hx⟩
        by_contra hend
        exact hz (congrArg Length.bytes (htoken.atEnd (Nat.le_of_not_lt hend)).2)

/-! ## Taking tokens -/

/-- What ends with an extra, without being all of the text, is one. -/
theorem extra_of_mem_getLast? {A : LeafRule} {start : Nat} (h : Everywhere (Sealed l Bound size) t)
    (hcost : t.info.errorCost = 0) (herror : t.children ≠ [] → t.symbol ≠ errorSymbol)
    (hlaid : Laid A start t) (hpos : 0 < t.size.bytes) (hless : t.size.bytes < size)
    {f : NodeInfo → NodeInfo} (hsize : (f t.info).size = t.info.size) (before : List NodeInfo) :
    ∀ j ∈ (before ++ (t.withInfo f).words).getLast?, j.extra = true →
      t.children = [] ∧ (f t.info).extra = true := by
  obtain ⟨i, cs⟩ := t
  cases cs with
  | nil =>
    change 0 < i.size.bytes at hpos
    change (f i).size = i.size at hsize
    rw [withInfo_mk, words_leaf, hsize, if_neg (Nat.ne_of_gt hpos), List.getLast?_concat]
    intro j hj hx
    obtain rfl := Option.some.inj hj
    exact ⟨rfl, hx⟩
  | cons c cs =>
    have hne : words (.mk i (c :: cs)) ≠ [] := fun hnil =>
      Nat.ne_of_gt hpos ((words_eq_nil_iff hlaid).mp hnil)
    have hwords : ((Subtree.mk i (c :: cs)).withInfo f).words = words (.mk i (c :: cs)) := by
      rw [words_of_ne_nil (List.cons_ne_nil c cs)]
      exact words_of_ne_nil (List.cons_ne_nil c cs)
    rw [hwords, List.getLast?_append_of_ne_nil _ hne]
    intro j hj hx
    rcases h.here.closed (List.cons_ne_nil c cs) hcost (herror (List.cons_ne_nil c cs))
      with hall | hlast
    · exact absurd hless (Nat.not_lt.mpr hall)
    · rw [hlast j hj] at hx
      contradiction

theorem backed_append (h : ts.IsChain Backed) (hu : ∀ a ∈ ts.getLast?, Backed a u) :
    (ts ++ [u]).IsChain Backed :=
  List.isChain_append.mpr ⟨h, .singleton _, fun a ha b hb => by
    obtain rfl := Option.some.inj hb
    exact hu a ha⟩

/-- Extras may stand behind anything. -/
theorem backed_append_extras (h : ts.IsChain Backed) (hus : ∀ u ∈ us, u.info.extra = true) :
    (ts ++ us).IsChain Backed := by
  have hback (a b : Subtree) (hb : b ∈ us) : Backed a b := fun _ _ hx => by
    rw [hus b hb] at hx
    contradiction
  refine List.isChain_append.mpr ⟨h, ?_, fun a _ b hb => hback a b (List.mem_of_mem_head? hb)⟩
  exact (List.pairwise_of_forall_mem_list fun a _ b hb => hback a b hb).isChain

/-- Taking what was found, as an extra or as none, in whatever state. -/
theorem Version.Heedful.taken (hs : v.Sound g l Spans text) (hp : v.Priced l text.size)
    (h : v.Heedful l Bound text.size) (hl : v.lookahead = some t) (hend : t.symbol ≠ endSymbol)
    (herror : t.children ≠ [] → t.symbol ≠ errorSymbol) {f : NodeInfo → NodeInfo}
    (hf : ∀ i, ∃ q x, f i = { i with parseState := q, extra := x })
    (hw : w.nodes ++ w.pending = v.nodes ++ v.pending ++ [t.withInfo f])
    (hlookahead : w.lookahead = none) (hposition : w.position = v.position + t.size)
    (hextra : t.children = [] → (f t.info).extra = true → w.afterExtra = true)
    (hbacked : w.nodes.IsChain Backed) (hold : w.old = v.old) : w.Heedful l Bound text.size := by
  have hnodes := h.nodes
  have hfollow := h.follow
  rw [hl, Option.toList_some] at hnodes hfollow
  rw [List.flatMap_append, List.flatMap_singleton] at hfollow
  have ht : Everywhere (Sealed l Bound text.size) t := hnodes t (by simp)
  have hkeep (i : NodeInfo) : (f i).size = i.size ∧ (f i).afterExtra = i.afterExtra := by
    obtain ⟨q, x, hi⟩ := hf i
    rw [hi]
    exact ⟨rfl, rfl⟩
  have hu : Everywhere (Sealed l Bound text.size) (t.withInfo f) := by
    obtain ⟨q, x, hi⟩ := hf t.info
    refine sealed_withInfo ht ?_ (fun he => ?_) fun hhidden => ?_
    · rw [hi]
      exact ⟨rfl, rfl⟩
    · rw [hi]
      exact he
    · rw [isHidden, symbol, show (t.withInfo f).info = f t.info from rfl, hi] at hhidden
      exact hhidden
  obtain ⟨hpos, -, hlaid⟩ := hs.text_of_ne_end hl hend
  refine ⟨?_, ?_, fun _ hless => ?_, hbacked, ?_, by rw [hold]; exact h.old⟩
  · rw [hw, hlookahead, Option.toList_none, List.append_nil]
    intro x hx
    rcases List.mem_append.mp hx with hx | hx
    · exact hnodes x (List.mem_append_left _ hx)
    · rwa [List.mem_singleton.mp hx]
  · rw [hw, hlookahead, Option.toList_none, List.append_nil, List.flatMap_append,
      List.flatMap_singleton]
    exact isChain_append_retaken hkeep hfollow
  · rw [hw, List.flatMap_append, List.flatMap_singleton]
    rw [hposition, Length.bytes_add] at hless
    intro j hj hx
    obtain ⟨hleaf, hx⟩ := extra_of_mem_getLast? ht (hp.lookahead t hl).cost herror hlaid hpos
      (by omega) (hkeep t.info).1 _ j hj hx
    exact hextra hleaf hx
  · rw [hlookahead]
    rintro _ ⟨⟩

theorem Version.Heedful.shift (hs : v.Sound g l Spans text) (hp : v.Priced l text.size)
    (h : v.Heedful l Bound text.size) (hl : v.lookahead = some t) (hpending : v.pending = [])
    (hend : t.symbol ≠ endSymbol) (herror : t.symbol ≠ errorSymbol) (next : StateId) {x : Bool} :
    (v.shift next t x).Heedful l Bound text.size := by
  have hnodes : (v.shift next t x).nodes = v.nodes ++ [(t.withParseState v.state).withExtra x] :=
    Version.nodes_push v _ _
  refine h.taken hs hp hl hend (fun _ => herror)
    (f := fun i => { i with parseState := v.state, extra := x }) (fun i => ⟨v.state, x, rfl⟩)
    ?_ rfl rfl (fun hleaf hx => ?_) ?_ rfl
  · rw [hnodes, show (v.shift next t x).pending = v.pending from rfl, hpending, List.append_nil,
      List.append_nil]
    rfl
  · show (x && t.children.isEmpty) = true
    rw [hleaf]
    exact Bool.and_eq_true_iff.mpr ⟨hx, rfl⟩
  · rw [hnodes]
    exact backed_append h.backed fun a _ _ _ _ _ => (hs.text_of_ne_end hl hend).1

theorem Version.Heedful.skip (hs : v.Sound g l Spans text) (hp : v.Priced l text.size)
    (h : v.Heedful l Bound text.size) (hl : v.lookahead = some t) (hleaf : t.children = [])
    (hend : t.symbol ≠ endSymbol) (he : isShiftableExtra l t = false) :
    (v.skip t).Heedful l Bound text.size := by
  refine h.taken hs hp hl hend (fun hn => absurd hleaf hn) (f := id)
    (fun i => ⟨i.parseState, i.extra, rfl⟩) ?_ rfl rfl (fun _ hx => ?_) h.backed rfl
  · rw [withInfo_id, List.append_assoc]
    rfl
  · rw [(hp.lookahead t hl).extra hx] at he
    contradiction

theorem Version.Heedful.skipExtra (hs : v.Sound g l Spans text) (hp : v.Priced l text.size)
    (h : v.Heedful l Bound text.size) (hl : v.lookahead = some t)
    (he : isShiftableExtra l t = true) (hleaf : t.children = []) :
    (v.skipExtra t).Heedful l Bound text.size :=
  h.taken hs hp hl (ne_end_of_isShiftableExtra he) (fun hn => absurd hleaf hn)
    (f := fun i => { i with extra := true }) (fun i => ⟨i.parseState, true, rfl⟩)
    (List.append_assoc _ _ _).symm rfl rfl (fun _ _ => rfl) h.backed rfl

/-! ## Building nodes -/

/-- Nodes give way to one with their words. -/
theorem Version.Heedful.regroup (h : v.Heedful l Bound size) (hl : v.lookahead = some t)
    (hleaf : t.children = []) (before mid after : List Subtree)
    (hv : v.nodes ++ v.pending = before ++ (mid ++ after))
    (hw : w.nodes ++ w.pending = before ++ (u :: after)) (hlookahead : w.lookahead = some t)
    (hold : w.old = v.old) (hu : Everywhere (Sealed l Bound size) u)
    (hmarks : List.Forall₂ Mark.Yields (mid.flatMap (marks Bound)) (marks Bound u))
    (hbacked : w.nodes.IsChain Backed) : w.Heedful l Bound size := by
  have hnodes := h.nodes
  have hfollow := h.follow
  rw [hl, hv] at hnodes hfollow
  refine ⟨fun x hx => ?_, ?_, ?_, hbacked, ?_, by rw [hold]; exact h.old⟩
  · rw [hw, hlookahead] at hx
    simp only [List.mem_append, List.mem_cons] at hx hnodes
    rcases hx with (hx | rfl | hx) | hx
    · exact hnodes x (.inl (.inl hx))
    · exact hu
    · exact hnodes x (.inl (.inr (.inr hx)))
    · exact hnodes x (.inr hx)
  · rw [hw, hlookahead]
    simp only [List.flatMap_append, List.flatMap_cons] at hfollow ⊢
    exact isChain_of_yields (List.rel_append (List.rel_append (yields_refl _)
      (List.rel_append hmarks (yields_refl _))) (yields_refl _)) hfollow
  · rw [hlookahead]
    rintro ⟨⟩
  · rw [hlookahead]
    rintro x hx hn
    obtain rfl := Option.some.inj hx
    exact absurd hleaf hn

theorem Version.Heedful.isChain_mid (h : v.Heedful l Bound size) (before mid after : List Subtree)
    (hv : v.nodes ++ v.pending = before ++ (mid ++ after)) :
    (mid.flatMap (marks Bound)).IsChain Mark.Before := by
  have hfollow := h.follow
  rw [hv, List.flatMap_append, List.flatMap_append, List.flatMap_append] at hfollow
  exact (List.isChain_append.mp (List.isChain_append.mp
    (List.isChain_append.mp hfollow).1).2.1).1

/-- Nodes without cost of which the last is no extra do not end with one, unless they span all of
the text. -/
theorem extra_of_backed {A : LeafRule} {start : Nat}
    (hts : ∀ t ∈ ts, Everywhere (Sealed l Bound size) t)
    (herror : ∀ t ∈ ts, t.isError = true → t.info.extra = true)
    (hcost : ∀ t ∈ ts, t.info.errorCost = 0) (hlaid : LaidList A start ts)
    (hbacked : ts.IsChain Backed) (hlast : ∀ t ∈ ts.getLast?, t.info.extra = false) :
    size ≤ (span ts).bytes ∨ ∀ j ∈ (ts.flatMap words).getLast?, j.extra = false := by
  induction ts using List.reverseRecOn with
  | nil => exact .inr (by simp)
  | append_singleton ts u ih =>
    rw [List.isChain_append] at hbacked
    obtain ⟨hinit, hu⟩ := laidList_append.mp hlaid
    have hlaidu := laidList_singleton.mp hu
    have hx : u.info.extra = false := hlast u (by simp)
    have hmem : u ∈ ts ++ [u] := by simp
    rw [List.flatMap_append, List.flatMap_singleton, span_append, span_singleton, Length.bytes_add]
    by_cases hwords : u.words = []
    · -- without text it stands behind no extra
      rw [hwords, List.append_nil]
      have hzero := (words_eq_nil_iff hlaidu).mp hwords
      refine (ih (fun t ht => hts t (List.mem_append_left _ ht))
        (fun t ht => herror t (List.mem_append_left _ ht))
        (fun t ht => hcost t (List.mem_append_left _ ht)) hinit hbacked.1 fun t ht => ?_).imp_left
        fun hle => Nat.le_trans hle (Nat.le_add_right _ _)
      rw [← Bool.not_eq_true]
      intro htx
      have hpos := hbacked.2.2 t ht u rfl htx
        (hcost t (List.mem_append_left _ (List.mem_of_getLast? ht))) hx (hcost u hmem)
      omega
    · rw [List.getLast?_append_of_ne_nil _ hwords]
      have hsealed := hts u hmem
      obtain ⟨i, cs⟩ := u
      cases cs with
      | nil =>
        right
        rw [words_leaf] at hwords ⊢
        split at hwords
        · contradiction
        · rename_i hz
          rw [if_neg hz]
          intro j hj
          obtain rfl := Option.some.inj hj
          exact hx
      | cons c cs =>
        refine (hsealed.here.closed (List.cons_ne_nil c cs) (hcost _ hmem) fun hs => ?_).imp_left
          fun hle => Nat.le_trans hle (Nat.le_add_left _ _)
        rw [herror _ hmem (beq_iff_eq.mpr hs)] at hx
        contradiction

/-- The node over the nodes of a production has an extra without cost before it only if it has
text. -/
theorem backed_reduced {before after : List Subtree} (h : (before ++ (ts ++ after)).IsChain Backed)
    (hparted : Parted before ts after) (hsize : u.size = span ts)
    (hcost : u.info.errorCost = costOf ts) : (before ++ (u :: after)).IsChain Backed := by
  rw [List.isChain_append, List.isChain_append] at h
  obtain ⟨hbefore, ⟨-, hafter, -⟩, hjoin⟩ := h
  refine List.isChain_append.mpr ⟨hbefore, ?_, fun a ha b hb hax hac _ huc => ?_⟩
  · cases after with
    | nil => exact .singleton _
    | cons b after =>
      refine List.isChain_cons_cons.mpr ⟨fun _ _ hbx => ?_, hafter⟩
      rw [hparted.after b (by simp)] at hbx
      contradiction
  · obtain rfl := Option.some.inj hb
    cases ts with
    | nil =>
      rw [hparted.before rfl a ha] at hax
      contradiction
    | cons b ts =>
      have hbc : b.info.errorCost = 0 := costOf_eq_zero_iff.mp (hcost.symm.trans huc) b (by simp)
      have hpos := hjoin a ha b rfl hax hac (hparted.first b rfl) hbc
      rw [hsize, span_cons, Length.bytes_add]
      exact Nat.add_pos_left hpos _

/-- A token that is put in is no word. -/
theorem Version.Heedful.inserted (h : v.Heedful l Bound size) (hl : v.lookahead = some t)
    (hleaf : t.children = []) (hp : v.pending = []) (s : Symbol) (next : StateId) :
    (v.inserted l s next).Heedful l Bound size := by
  have hw : (v.inserted l s next).nodes = v.nodes ++ [.missing l s v.state missingCost] :=
    Version.nodes_push v _ _
  refine h.regroup hl hleaf v.nodes [] [] (by rw [hp]; rfl) ?_ hl rfl
    (Sealed.leaf (i := (Subtree.missing l s v.state missingCost).info) fun _ => rfl) ?_ ?_
  · rw [hw, show (v.inserted l s next).pending = v.pending from rfl, hp, List.append_nil]
    rfl
  · rw [Subtree.missing, marks_leaf]
    exact .nil
  · rw [hw]
    exact backed_append h.backed fun a _ _ _ _ hc => by contradiction

section

variable (hBound : ∀ i, Bound i → i.afterExtra = false)
include hBound

/-- The node over the nodes of a production. -/
theorem Version.Heedful.reduced (hg : l.Sound g) (hs : v.Sound g l Spans text)
    (hp : v.Priced l text.size) (h : v.Heedful l Bound text.size) {prod : Production}
    (hmem : prod ∈ g.productions) {before after : List Subtree}
    (hnodes : v.nodes = before ++ (ts ++ after)) (hparted : Parted before ts after)
    (hfills : Fills g l prod.rhs ts) {spec : Spec} (hspec : spec.symbol = prod.lhs)
    (hzero : spec.errorCost = 0) :
    let node := Subtree.node l spec (dress l prod.info.fields prod.info.labels ts)
    Everywhere (Sealed l Bound text.size) node ∧
      List.Forall₂ Mark.Yields (ts.flatMap (marks Bound)) (marks Bound node) ∧
      (before ++ (node :: after)).IsChain Backed := by
  intro node
  have hall := h.nodes
  have hlaid := hs.laid
  have hbacked := h.backed
  rw [hnodes] at hall hlaid hbacked
  have hlaid := (laidList_append.mp (laidList_append.mp (laidList_append.mp hlaid).1).2).1
  obtain ⟨-, -, hsize⟩ := stands_node hg hmem hspec prod.info.fields hfills hlaid
  obtain ⟨-, hcost⟩ := hp.reduced hg hmem hnodes hspec hzero
  have herror (u : Subtree) (hu : u ∈ ts) : u.isError = true → u.info.extra = true :=
    (hp.nodes u (by rw [hnodes]; simp [hu])).isExtra
  have hsealed (u : Subtree) (hu : u ∈ ts) : Everywhere (Sealed l Bound text.size) u :=
    hall u (by simp [hu])
  obtain ⟨hchildren, hyields⟩ := yields_dress hBound prod.info.fields
    (fun s hlabel => ((shown_of_production hg hmem).2 s hlabel).1)
    fun u hu => ⟨hsealed u hu, herror u hu⟩
  have hmarks : marks Bound (node.withInfo id) = _ := marks_node spec hchildren fun _ => rfl
  refine ⟨?_, hmarks.symm ▸ hyields, backed_reduced hbacked hparted hsize hcost⟩
  have hchain := h.isChain_mid before ts (after ++ v.pending)
    (by rw [hnodes, List.append_assoc, List.append_assoc])
  refine sealed_node hchildren (isChain_settled_iff.mp (isChain_of_yields hyields hchain))
    fun hfree _ => ?_
  refine (extra_of_backed hsealed herror (costOf_eq_zero_iff.mp (hcost.symm.trans hfree)) hlaid
    (List.isChain_append.mp (List.isChain_append.mp hbacked).2.1).1 hparted.last).imp
    (fun hle => hle.trans_eq (congrArg Length.bytes hsize).symm) fun hlast j hj => ?_
  -- whatever words are shown under, the same ones are extras
  have hextras : (wordsAll (dress l prod.info.fields prod.info.labels ts)).map NodeInfo.extra
      = (ts.flatMap words).map NodeInfo.extra := by
    have hmap := map_extra_of_yields hyields
    rwa [map_extra_flatMap, settled, List.map_map] at hmap
  obtain ⟨k, hk, hkx⟩ := exists_getLast?_of_map_eq hextras hj
  exact hkx.symm.trans (hlast k hk)

theorem Version.Heedful.reduce (hg : l.Sound g) (hs : v.Sound g l Spans text)
    (hp : v.Priced l text.size) (h : v.Heedful l Bound text.size) (hl : v.lookahead = some t)
    (hleaf : t.children = []) {p : ProductionId} {a : Symbol}
    (ha : .reduce p ∈ l.actions v.state a) {n : Nat} {info : ProductionInfo} {fragile : Bool}
    (hinfo : l.production? p = some info)
    (hw : Version.reduce l { v with reductions := n } info fragile t = .ok w) :
    w.Heedful l Bound text.size := by
  obtain ⟨prod, before, ts, after, spec, hprod, hnodes, hparted, hfills, hspec, hzero, -, -, hw'⟩ :=
    hs.stacked.nodes_reduced hg ha hinfo hw
  obtain ⟨hnode, hmarks, hbacked⟩ := h.reduced hBound hg hs hp (Array.mem_of_getElem? hprod) hnodes
    hparted hfills hspec hzero
  obtain ⟨hpending, hlookahead, hold⟩ :
      w.pending = v.pending ∧ w.lookahead = v.lookahead ∧ w.old = v.old := by
    obtain ⟨_, _, _, rfl⟩ := Version.reduce_eq hw
    exact ⟨rfl, rfl, rfl⟩
  have hv : v.nodes ++ v.pending = before ++ (ts ++ (after ++ v.pending)) := by
    rw [hnodes, List.append_assoc, List.append_assoc]
  refine h.regroup hl hleaf _ _ _ hv ?_ (hlookahead.trans hl) hold hnode hmarks (hw' ▸ hbacked)
  rw [hw', hpending, List.append_assoc]
  rfl

/-! ## Errors -/

/-- An error node on a stack has the words of what is in it. -/
theorem sealed_errorExtra (hts : ∀ t ∈ ts, Everywhere (Sealed l Bound size) t)
    (hchain : (ts.flatMap (marks Bound)).IsChain Mark.Before) (state : StateId) (cost : Nat) :
    Everywhere (Sealed l Bound size) ((Subtree.error l state cost ts).withExtra true) ∧
      List.Forall₂ Mark.Yields (ts.flatMap (marks Bound))
        (marks Bound ((Subtree.error l state cost ts).withExtra true)) := by
  obtain ⟨herror, -⟩ := sealed_error hts (isChain_words hBound hchain) state cost
  refine ⟨sealed_withInfo herror ⟨rfl, rfl⟩ id id, ?_⟩
  have hall : ∀ c ∈ ts.map fun t => (⟨none, t⟩ : Child Subtree),
      Everywhere (Sealed l Bound size) c.node := by
    intro c hc
    obtain ⟨t, ht, rfl⟩ := List.mem_map.mp hc
    exact hts t ht
  have hmarks : marks Bound ((Subtree.error l state cost ts).withExtra true) = _ :=
    marks_node _ hall fun _ => rfl
  rw [hmarks, wordsAll_eq_flatMap, List.flatMap_map]
  exact yields_flatMap hBound ts

theorem Version.Heedful.reset (h : v.Heedful l Bound size) (hl : v.lookahead = some t)
    (hleaf : t.children = []) {taken stack : List Entry} (hstack : v.stack = taken ++ stack)
    (cost : Nat) : (v.reset l (taken.map Entry.node).reverse stack cost).Heedful l Bound size := by
  have hnodes : v.nodes = (stack.map Entry.node).reverse ++ (taken.map Entry.node).reverse := by
    rw [nodes_eq, hstack]
    simp
  have hv : v.nodes ++ v.pending = (stack.map Entry.node).reverse ++
      (((taken.map Entry.node).reverse ++ v.pending) ++ []) := by
    rw [hnodes, List.append_nil, List.append_assoc]
  obtain ⟨herror, hmarks⟩ := sealed_errorExtra hBound (fun u hu => h.nodes u (by
    rw [hv]
    simp only [List.mem_append] at hu ⊢
    exact .inl (.inr (.inl hu)))) (h.isChain_mid _ _ _ hv) (stateOf stack) (cost + v.pendingCost)
  have hw : (v.reset l (taken.map Entry.node).reverse stack cost).nodes =
      (stack.map Entry.node).reverse ++ [(Subtree.error l (stateOf stack) (cost + v.pendingCost)
        ((taken.map Entry.node).reverse ++ v.pending)).withExtra true] :=
    Version.nodes_push _ _ _
  have hbacked := h.backed
  rw [hnodes] at hbacked
  refine h.regroup hl hleaf _ _ _ hv ?_ hl rfl herror hmarks ?_
  · rw [hw]
    exact List.append_nil _
  · rw [hw]
    exact backed_append_extras (List.isChain_append.mp hbacked).1 fun u hu => by
      rw [List.mem_singleton.mp hu]
      rfl

/-- What was skipped becomes an error node. -/
theorem Version.Heedful.flush (hp : v.Priced l size) (h : v.Heedful l Bound size)
    (hl : v.lookahead = some t) (hleaf : t.children = []) (hne : v.pending ≠ []) :
    (v.flush l).Heedful l Bound size := by
  obtain ⟨skipped, trailing, hpending, htrailing, hnodes⟩ := hp.exists_flushed hne
  have hv : v.nodes ++ v.pending = v.nodes ++ (skipped ++ trailing) := by rw [hpending]
  obtain ⟨herror, hmarks⟩ := sealed_errorExtra hBound (fun u hu => h.nodes u (by
    rw [hv]
    simp [hu])) (h.isChain_mid _ _ _ hv) v.state v.pendingCost
  obtain ⟨stack, external, hflush⟩ := Version.flush_eq (l := l) v
  refine h.regroup hl hleaf _ _ _ hv ?_ ?_ ?_ herror hmarks ?_
  · rw [hnodes, hflush]
    exact List.append_nil _
  · rw [hflush]
    exact hl
  · rw [hflush]
  · rw [hnodes]
    exact backed_append_extras h.backed (List.forall_mem_cons.mpr ⟨rfl, htrailing⟩)

end

/-! ## Steps -/

/-- Only a token lets nodes be reduced. -/
theorem Version.Sound.children_eq_nil (hs : v.Sound g l Spans text) (hl : v.lookahead = some t)
    {p : ProductionId} (ha : .reduce p ∈ actionsFor l v.state t) : t.children = [] := by
  have hterm : l.isNonterminal t.symbol = false := by
    rw [← Bool.not_eq_true]
    intro hn
    rw [actionsFor, if_pos hn] at ha
    simp at ha
  cases hs.lookahead t hl with
  | atEnd hleaf => exact hleaf
  | text _ _ _ _ _ hinner =>
    by_contra hn
    rw [hinner hn] at hterm
    contradiction

/-- Where nothing else can be done, a token is next. -/
theorem Version.Heedful.children_eq_nil (h : v.Heedful l Bound size) (hl : v.lookahead = some t)
    (ha : v.pending = [] → actionsFor l v.state t = []) : t.children = [] := by
  by_contra hn
  obtain ⟨hp, hne⟩ := h.inner t hl hn
  exact hne (ha hp)

section

variable (hBound : ∀ i, Bound i → i.afterExtra = false)
include hBound

theorem Version.Heedful.recoveries (hs : v.Sound g l Spans text) (hp : v.Priced l text.size)
    (h : v.Heedful l Bound text.size) (hl : v.lookahead = some t) (hleaf : t.children = [])
    (he : isShiftableExtra l t = false) (hw : w ∈ v.recoveries l t) :
    w.Heedful l Bound text.size := by
  cases Recovers.of_mem hw with
  | insert _ hpending => exact h.inserted hl hleaf hpending _ _
  | reset _ hstack => exact h.reset hBound hl hleaf hstack _
  | skip hend => exact h.skip hs hp hl hleaf hend he

theorem Acts.heedful (hg : l.Sound g) (hs : v.Sound g l Spans text) (hp : v.Priced l text.size)
    (h : v.Heedful l Bound text.size) (hl : v.lookahead = some t) (hpending : v.pending = [])
    (ha : Acts l v t w) : w.Heedful l Bound text.size := by
  cases ha with
  | shift ha =>
    exact h.shift hs hp hl hpending (ne_end_of_mem_actionsFor hg ha)
      (ne_errorSymbol_of_mem_actionsFor hg ha) _
  | reduce ha hinfo _ hw =>
    exact h.reduce hBound hg hs hp hl (hs.children_eq_nil hl ha) (mem_actions_of_reduce ha) hinfo hw
  | shiftExtra _ he =>
    exact h.shift hs hp hl hpending (ne_end_of_isShiftableExtra he)
      (ne_errorSymbol_of_isShiftableExtra hg he) _
  | drop ha ht =>
    rw [isLeaf, h.children_eq_nil hl fun _ => ha] at ht
    contradiction
  | recover ha hw he =>
    exact h.recoveries hBound hs hp hl (h.children_eq_nil hl fun _ => ha) he hw

/-- On every way on a hypothesis heeds the extras before it. -/
theorem Next.heedful (hg : l.Sound g) (hs : v.Sound g l Spans text) (hp : v.Priced l text.size)
    (h : v.Heedful l Bound text.size) (hl : v.lookahead = some t) (hn : Next l v t w) :
    w.Heedful l Bound text.size := by
  cases hn with
  | act hpending ha => exact ha.heedful hBound hg hs hp h hl hpending
  | flush hpending _ ha =>
    obtain ⟨_, _, hflush⟩ := Version.flush_eq (l := l) v
    exact ha.heedful hBound hg (hs.flush hg) (hp.flush hg)
      (h.flush hBound hp hl (h.children_eq_nil hl fun hnil => absurd hnil hpending) hpending)
      (by rw [hflush]; exact hl) (by rw [hflush])
  | skipExtra hpending he =>
    exact h.skipExtra hs hp hl he (h.children_eq_nil hl fun hnil => absurd hnil hpending)
  | recover hpending hw he =>
    exact h.recoveries hBound hs hp hl (h.children_eq_nil hl fun hnil => absurd hnil hpending) he hw

/-! ## Outcomes -/

/-- What a hypothesis has read as an error. -/
theorem Version.Heedful.error (h : v.Heedful l Bound size) (cost : Nat) :
    Everywhere (Sealed l Bound size) (Subtree.error l 0 cost (v.nodes ++ v.pending)) := by
  have hchain := h.isChain_mid [] (v.nodes ++ v.pending) []
    (by rw [List.nil_append, List.append_nil])
  exact (sealed_error (fun t ht => h.nodes t (List.mem_append_left _ ht))
    (isChain_words hBound hchain) 0 cost).1

end

/-- The children of the start node have its words. -/
theorem wordsAll_unrooted (ts : List Subtree)
    (h : ∀ t ∈ ts, t.info.extra = false → t.children = [] → t.size.bytes = 0) :
    wordsAll (ts.flatMap fun t => if t.info.extra then [⟨none, t⟩] else t.children)
      = ts.flatMap words := by
  induction ts with
  | nil => rfl
  | cons t ts ih =>
    obtain ⟨ht, hts⟩ := List.forall_mem_cons.mp h
    rw [List.flatMap_cons, List.flatMap_cons, wordsAll_append, ih hts]
    congr 1
    split
    · rw [wordsAll, wordsAll, List.append_nil]
    · rename_i hx
      obtain ⟨i, cs⟩ := t
      cases cs with
      | nil =>
        rw [words_leaf]
        exact (if_pos (ht (Bool.eq_false_iff.mpr hx) rfl)).symm
      | cons c cs => exact (words_of_ne_nil (List.cons_ne_nil c cs)).symm

/-- The root over the start node and the extras around it may end with an extra, for it spans all
of the text. -/
theorem sealed_rootOf (hts : ∀ t ∈ ts, Everywhere (Sealed l Bound size) t)
    (hfollow : (ts.flatMap words).IsChain (MayFollow Bound))
    (hstart : ts.filter (fun t => !t.info.extra) = [u]) (hs : u.symbol = l.table.startSymbol)
    (hleaf : u.children = [] → u.size.bytes = 0) {cost : Nat}
    (hsize : size ≤ (rootOf l ts cost).size.bytes) :
    Everywhere (Sealed l Bound size) (rootOf l ts cost) := by
  have hwords := wordsAll_unrooted ts fun t ht hx => by
    have hmem : t ∈ ts.filter fun t => !t.info.extra := List.mem_filter.mpr ⟨ht, by simp [hx]⟩
    rw [hstart, List.mem_singleton] at hmem
    rwa [hmem]
  unfold rootOf at hsize ⊢
  simp only [hstart] at hsize ⊢
  rw [if_pos hs] at hsize ⊢
  refine sealed_node (fun c hc => ?_) (by rwa [hwords]) fun _ _ => .inl hsize
  obtain ⟨t, ht, hc⟩ := List.mem_flatMap.mp hc
  split at hc
  · rw [List.mem_singleton.mp hc]
    exact hts t ht
  · exact (hts t ht).child hc

section

variable (hBound : ∀ i, Bound i → i.afterExtra = false)
include hBound

/-- What is accepted is all of the text. -/
theorem Version.Heedful.root (hg : l.Sound g) (hs : v.Sound g l Spans text)
    (h : v.Heedful l Bound text.size) (hl : v.lookahead = some t) (hp : v.pending = [])
    (ha : .accept ∈ actionsFor l v.state t) :
    Everywhere (Sealed l Bound text.size) (rootOf l v.nodes v.errorCost) := by
  obtain ⟨start, hstart, hsymbol, herror⟩ := (hs.fit hg t).accept ha
  have hmem : start ∈ v.nodes.filter fun t => !t.info.extra := by simp [hstart]
  obtain ⟨hmem, hx⟩ := List.mem_filter.mp hmem
  obtain ⟨hstands, -⟩ := hs.stacked.fills.stands start hmem (by simpa using hx)
  have hn : l.isNonterminal start.symbol = true := by
    have ha := mem_actions_of_accept ha
    rw [Version.state, ← hs.stacked.lastState] at ha
    rw [hsymbol, hg.startSymbol]
    exact (hg.accept hs.stacked.path ha).1
  have haccept : Halts l v t [] _ := .accept hp ha
  have hall := haccept.outcome hg hs hl
  have hchain := h.isChain_mid [] v.nodes v.pending rfl
  refine sealed_rootOf (fun u hu => h.nodes u (by simp [hu])) (isChain_words hBound hchain) hstart
    hsymbol (fun hc => ?_) ?_
  · by_contra hsize
    have hterm := hstands.token hc fun hz => hsize (congrArg Length.bytes hz)
    rw [hterm] at hn
    contradiction
  · rcases hall.full with hfull | ⟨he, -⟩
    · exact hfull.ge
    · rw [herror] at he
      contradiction

theorem Halts.heedful (hg : l.Sound g) (hs : v.Sound g l Spans text)
    (h : v.Heedful l Bound text.size) (hl : v.lookahead = some t) {events : List Event}
    {f : Finished} (he : Halts l v t events f) : Everywhere (Sealed l Bound text.size) f.root := by
  cases he with
  | accept hp ha => exact h.root hBound hg hs hl hp ha
  | noRecovery _ => exact h.error hBound _
  | limit _ _ => exact h.error hBound _

theorem Ends.heedful (hg : l.Sound g) (hs : v.Sound g l Spans text) (hp : v.Priced l text.size)
    (h : v.Heedful l Bound text.size) (hl : v.lookahead = some t) {events : List Event}
    {f : Finished} (he : Ends l v t events f) : Everywhere (Sealed l Bound text.size) f.root := by
  cases he with
  | now he => exact he.heedful hBound hg hs h hl
  | flush hpending _ he =>
    obtain ⟨_, _, hflush⟩ := Version.flush_eq (l := l) v
    exact he.heedful hBound hg (hs.flush hg)
      (h.flush hBound hp hl (h.children_eq_nil hl fun hnil => absurd hnil hpending) hpending)
      (by rw [hflush]; exact hl)

theorem sealed_partialTree (h : ∀ v ∈ r.versions, v.halted = false → v.Heedful l Bound size) :
    Everywhere (Sealed l Bound size) (r.partialTree l).root := by
  unfold Run.partialTree
  simp only
  split
  · rename_i v hv
    obtain ⟨hmem, hlive⟩ := List.mem_filter.mp (mem_of_firstBest? hv)
    exact (h v hmem (by simpa using hlive)).error hBound 0
  · exact (sealed_error (by simp) .nil 0 0).1

end

/-! ## Parses -/

/-- No node that begins with such a word is taken from the previous tree behind an extra. -/
def Run.TakesApart (l : Language) (Bound : NodeInfo → Prop) (r : Run) : Prop :=
  ∀ i v, r.next? = some i → r.versions[i]? = some v → v.TakesApart l Bound

theorem heedful_startRun (hold : ∀ t, old = some t → t.language.sameAs l = true →
      Kept (fun _ u => Everywhere (Sealed l Bound t.lenBytes) u) 0 t.root) :
    ∀ v ∈ (l.startRun text old).versions, v.Heedful l Bound text.size := by
  rw [Language.versions_startRun]
  intro v hv
  rw [List.mem_singleton.mp hv]
  refine ⟨by simp [Version.nodes], .nil, fun _ _ => by simp [Version.nodes], .nil, by rintro u ⟨⟩,
    fun o ho => ?_⟩
  simp only [Option.map_eq_some_iff, Option.filter_eq_some_iff] at ho
  obtain ⟨root, ⟨t, ⟨ht, husable⟩, rfl⟩, rfl⟩ := ho
  rw [← Tree.lenBytes_of_isUsable husable]
  exact OldTree.ofRoot_sound (hold t ht (Tree.sameAs_of_isUsable husable))

end Glr.Parse

namespace Glr

open Parse Subtree

variable {g : FlatGrammar} {l : Language} {old : Option Tree} {Bound : NodeInfo → Prop}

/-- A parse that takes nothing over that it should not stands every word where it may. -/
theorem Language.sealed_parse (hg : l.Sound g) (hBound : ∀ i, Bound i → i.afterExtra = false)
    (limits : Limits) (text : Bytes) (hold : ∀ t, old = some t → l.Obtained t)
    (hsealed : ∀ t, old = some t → t.language.sameAs l = true →
      Kept (fun _ u => Everywhere (Sealed l Bound t.lenBytes) u) 0 t.root)
    (hapart : ∀ n, ((Run.turn l text)^[n] (l.startRun text old)).TakesApart l Bound) :
    Everywhere (Sealed l Bound text.size) (l.parse limits text old).1.root := by
  have hturns := Language.invariant_turns hg (covers_anyText text)
    (fun t ht hl => (hold t ht).kept hg hl)
    (P := fun v => v.Priced l text.size ∧ v.Heedful l Bound text.size)
    (Q := fun f => Everywhere (Sealed l Bound text.size) f.root)
    (fun v hv => ⟨priced_startRun (fun t ht hl => ((hold t ht).kept hg hl).of_everywhere
      ((hold t ht).priced hg hl)) v hv, heedful_startRun hsealed v hv⟩)
    (fun n i v t w hn hv _ h hf => ⟨hf.priced hg h.1, hf.heedful hg h.2 (hapart n i v hn hv)⟩)
    (fun v t w hs hl h hn => ⟨hn.priced hg hs h.1 hl, hn.heedful hBound hg hs h.1 h.2 hl⟩)
    fun v t es f hs hl h he => he.heedful hBound hg hs h.1 h.2 hl
  rw [Language.tree_parse]
  obtain ⟨n, htree⟩ := Run.exists_turns l text limits (Run.stepBound text) (l.startRun text old)
  obtain ⟨hversions, hfinished⟩ := hturns n
  rcases htree with ⟨f, hf, htree⟩ | htree
  · rw [htree]
    exact hfinished f hf
  · rw [htree]
    exact sealed_partialTree hBound fun v hv hlive => (hversions v hv hlive).2

end Glr
