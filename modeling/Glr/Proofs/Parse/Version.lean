import Glr.Proofs.Parse.Effect
import Glr.Proofs.Parse.OldTree
import Glr.Proofs.Parse.Stack
import Glr.Proofs.Parse.Token

/-!
# Glr.Proofs.Parse.Version

What holds of a hypothesis at any time, and that every step keeps it:

```
nodes on the stack ++ skipped tokens  =  the text up to the position
```

Nothing that was taken is lost on any way on, also where nodes are given up, tokens
are skipped or put in, or subtrees of the previous tree are taken over.
-/

namespace Glr.Parse

open Subtree Run

variable {g : FlatGrammar} {l : Language} {Spans : Nat → Length → Prop} {text : Bytes}
  {v w : Version} {t : Subtree}

/-- Every part of the text may be the text of a token. -/
def Covers (Spans : Nat → Length → Prop) (text : Bytes) : Prop :=
  ∀ start stop, start < stop → stop ≤ text.size → Spans start (.of (text.extract start stop))

/-- What comes next at a place of the text: its end, or a token or node with text. -/
inductive Incoming (g : FlatGrammar) (l : Language) (Spans : Nat → Length → Prop) (text : Bytes)
    (position : Nat) (t : Subtree) : Prop where
  | atEnd (hleaf : t.children = []) (hsymbol : t.symbol = endSymbol) (hsize : t.size = Length.zero)
      (hend : text.size ≤ position)
  | text (hpos : 0 < t.size.bytes) (hstop : position + t.size.bytes ≤ text.size)
      (hsymbol : t.symbol ≠ endSymbol) (hlaid : Laid (LeafOf g l Spans) position t)
      (hleaf : t.children = [] → l.isNonterminal t.symbol = false)
      (hinner : t.children ≠ [] → l.isNonterminal t.symbol = true)

/-- What holds of a hypothesis at any time. -/
structure Version.Sound (g : FlatGrammar) (l : Language) (Spans : Nat → Length → Prop)
    (text : Bytes) (v : Version) : Prop where
  stacked : Stacked g l v.stack
  /-- What was taken stands one after another from the start of the text on. -/
  laid : LaidList (LeafOf g l Spans) 0 (v.nodes ++ v.pending)
  span : span (v.nodes ++ v.pending) = v.position
  position : v.position.bytes ≤ text.size
  pending : ∀ t ∈ v.pending, Lasting l t
  lookahead : ∀ t, v.lookahead = some t → Incoming g l Spans text v.position.bytes t
  /-- Only the previous tree has nodes that are no tokens. -/
  inner : ∀ t, v.lookahead = some t → t.children ≠ [] → v.old ≠ none
  old : ∀ o, v.old = some o → o.Sound (Laid (LeafOf g l Spans)) text.size
  reductions : v.reductions ≤ maxReductions

/-! ## Finding the token -/

theorem isNonterminal_of_hasActions {q : StateId} {x : Symbol} (h : l.hasActions q x = true) :
    l.isNonterminal x = false := by
  unfold Language.hasActions Language.actions at h
  split at h
  · simp at h
  · rename_i hn
    simpa using hn

theorem isNonterminal_of_goto? {q : StateId} {x : Symbol} (h : (l.goto? q x).isSome = true) :
    l.isNonterminal x = true := by
  unfold Language.goto? at h
  split at h
  · assumption
  · simp at h

theorem isToken_of_isExtra (hg : l.Sound g) {x : Symbol} (h : l.isExtra x = true) :
    IsToken g.symbols x := by
  rw [Language.isExtra, Bool.and_eq_true, hg.extras] at h
  exact hg.grammar.extras x (by simpa using h.2)

theorem isNonterminal_of_isExtra (hg : l.Sound g) {x : Symbol} (h : l.isExtra x = true) :
    l.isNonterminal x = false :=
  hg.isNonterminal_eq_false (FlatGrammar.isTerminal_of_isToken (isToken_of_isExtra hg h))

theorem incoming_of_tokenAt (hc : Covers Spans text) {position : Nat}
    (h : TokenAt l text position t) : Incoming g l Spans text position t := by
  rcases Nat.lt_or_ge position text.size with hp | hp
  · obtain ⟨hsymbol, stop, hstart, hstop, hsize⟩ := h.inText hp
    have hbytes : t.size.bytes = stop - position := by
      rw [hsize]
      show (text.extract position stop).size = _
      rw [Array.size_extract, Nat.min_eq_left hstop]
    have hleaf := h.leaf
    have hterm := h.terminal
    refine .text (by omega) (by omega) hsymbol ?_ (fun _ => hterm) fun hn => absurd hleaf hn
    obtain ⟨info, cs⟩ := t
    obtain rfl : cs = [] := hleaf
    refine laid_leaf.mpr (.text ?_ ?_ hsymbol (.inr hterm))
    · change info.size.bytes = _ at hbytes
      omega
    · change info.size = _ at hsize
      rw [hsize]
      exact hc position stop hstart hstop
  · obtain ⟨hsymbol, hsize⟩ := h.atEnd hp
    exact .atEnd h.leaf hsymbol hsize hp

theorem incoming_of_reused (hg : l.Sound g) {site : ReuseSite}
    (h : Reused (Laid (LeafOf g l Spans)) text.size l site t) :
    Incoming g l Spans text site.position t := by
  have hinner (hc : t.children ≠ []) : l.isNonterminal t.symbol = true :=
    isNonterminal_of_goto? (h.inner hc)
  have hleaf (hc : t.children = []) : l.isNonterminal t.symbol = false := by
    rcases h.leaf hc with ha | hx
    · exact isNonterminal_of_hasActions ha
    · exact isNonterminal_of_isExtra hg hx
  refine .text h.pos h.stop ?_ h.built hleaf hinner
  -- a leaf with text is not the end, and a nonterminal is not either
  have hlaid := h.built
  have hpos := h.pos
  intro hend
  obtain ⟨info, cs⟩ := t
  cases cs with
  | nil =>
    cases laid_leaf.mp hlaid with
    | text _ _ hne _ => exact hne hend
    | empty hsize _ =>
      change 0 < info.size.bytes at hpos
      rw [hsize] at hpos
      exact Nat.lt_irrefl 0 hpos
  | cons c cs =>
    have := hinner (List.cons_ne_nil c cs)
    rw [hend, isNonterminal_endSymbol hg] at this
    contradiction

/-- Finding the token keeps everything else. -/
theorem Fetched.sound (hg : l.Sound g) (hc : Covers Spans text) (h : v.Sound g l Spans text)
    (hf : Fetched l text v t w) : w.Sound g l Spans text ∧ w.lookahead = some t := by
  cases hf with
  | kept hl => exact ⟨h, hl⟩
  | @reused _ o o' hl ho hp hr =>
    have hspec := OldTree.reuse?_spec l v.reuseSite (h.old o ho)
    rw [hr] at hspec
    refine ⟨⟨h.stacked, h.laid, h.span, h.position, h.pending, ?_, ?_, ?_, h.reductions⟩, rfl⟩
    · rintro u hu
      obtain rfl := Option.some.inj hu
      exact incoming_of_reused hg (hspec.2 _ rfl)
    · rintro u - - hn
      contradiction
    · rintro o hu
      obtain rfl := Option.some.inj hu
      exact hspec.1
  | @lexed old hl ho =>
    have htoken := tokenAt_token text (v.site l) hg
    refine ⟨⟨h.stacked, h.laid, h.span, h.position, h.pending, ?_, ?_, ?_, h.reductions⟩, rfl⟩
    · rintro u hu
      obtain rfl := Option.some.inj hu
      exact incoming_of_tokenAt hc htoken
    · rintro u hu hn
      obtain rfl := Option.some.inj hu
      exact absurd htoken.leaf hn
    · rintro o hu
      cases ho with
      | not => exact h.old o hu
      | inVain ho' hr =>
        obtain rfl := Option.some.inj hu
        have hspec := OldTree.reuse?_spec l v.reuseSite (h.old _ ho')
        rw [hr] at hspec
        exact hspec.1

/-! ## Taking tokens -/

theorem mem_actionsFor_shift {q next : StateId} {t : Subtree}
    (h : .shift next ∈ actionsFor l q t) : l.Edge q t.symbol next := by
  unfold actionsFor at h
  unfold Language.Edge
  split at h
  · rename_i hn
    rw [if_pos hn]
    simpa using h
  · rename_i hn
    rwa [if_neg hn]

theorem mem_actions_of_reduce {q : StateId} {p : ProductionId} {t : Subtree}
    (h : .reduce p ∈ actionsFor l q t) : .reduce p ∈ l.actions q t.symbol := by
  unfold actionsFor at h
  split at h
  · simp at h
  · exact h

theorem mem_actions_of_accept {q : StateId} {t : Subtree}
    (h : .accept ∈ actionsFor l q t) : .accept ∈ l.actions q t.symbol := by
  unfold actionsFor at h
  split at h
  · simp at h
  · exact h

theorem ne_end_of_isShiftableExtra (h : isShiftableExtra l t = true) : t.symbol ≠ endSymbol := by
  simp only [isShiftableExtra, Bool.and_eq_true, bne_iff_ne] at h
  exact h.1.1.2

/-- The end of the text is not shifted. -/
theorem ne_end_of_mem_actionsFor (hg : l.Sound g) {q next : StateId}
    (h : .shift next ∈ actionsFor l q t) : t.symbol ≠ endSymbol := by
  intro hend
  have hedge := mem_actionsFor_shift h
  rw [hend, Language.Edge, if_neg (by simp [isNonterminal_endSymbol hg])] at hedge
  exact hg.ne_end_of_shift hedge rfl

/-- Which state a node was built in and whether it is an extra does not matter for its
text. -/
theorem laid_shifted {start : Nat} (h : Laid (LeafOf g l Spans) start t) (q : StateId) (x : Bool) :
    Laid (LeafOf g l Spans) start ((t.withParseState q).withExtra x) := by
  have hstate : Laid (LeafOf g l Spans) start (t.withParseState q) :=
    h.withInfo (fun _ => rfl) fun _ hi => hi.same rfl rfl rfl rfl
  exact hstate.withInfo (fun _ => rfl) fun _ hi => hi.same rfl rfl rfl rfl

theorem lasting_shifted (h : Lasting l t) (q : StateId) (x : Bool) :
    Lasting l ((t.withParseState q).withExtra x) :=
  lasting_withInfo (lasting_withInfo h (fun _ => rfl) fun _ => rfl) (fun _ => rfl) fun _ => rfl

/-- Something with text comes next. -/
theorem Version.Sound.text_of_ne_end (h : v.Sound g l Spans text) (hl : v.lookahead = some t)
    (hs : t.symbol ≠ endSymbol) :
    0 < t.size.bytes ∧ v.position.bytes + t.size.bytes ≤ text.size ∧
      Laid (LeafOf g l Spans) v.position.bytes t := by
  cases h.lookahead t hl with
  | atEnd _ hsymbol => exact absurd hsymbol hs
  | text hpos hstop _ hlaid => exact ⟨hpos, hstop, hlaid⟩

/-- A node on top of the stack, when nothing is pending. -/
theorem nodes_push_append (v : Version) (next : StateId) (t : Subtree) (hp : v.pending = []) :
    (v.push next t).nodes ++ v.pending = v.nodes ++ v.pending ++ [t] := by
  rw [Version.nodes_push, hp, List.append_nil, List.append_nil]

/-- Taking something with text keeps a hypothesis sound; an extra leaves the state, and
anything else goes over an edge. -/
theorem Version.Sound.shift (h : v.Sound g l Spans text) (hp : v.pending = [])
    (hl : v.lookahead = some t) (hs : t.symbol ≠ endSymbol) {next : StateId} {x : Bool}
    (hx : x = false → l.Edge v.state t.symbol next) :
    (v.shift next t x).Sound g l Spans text := by
  obtain ⟨hpos, hstop, hlaid⟩ := h.text_of_ne_end hl hs
  have hleaf : t.children = [] → l.isNonterminal t.symbol = false := by
    cases h.lookahead t hl with
    | atEnd _ hsymbol => exact absurd hsymbol hs
    | text _ _ _ _ hleaf => exact hleaf
  have hshifted := laid_shifted hlaid v.state x
  have hlasting := lasting_shifted (lasting_of_laid hiddenEmpty_leafOf hlaid hpos) v.state x
  have hspan : (Subtree.span (v.nodes ++ v.pending)).bytes = v.position.bytes := by rw [h.span]
  refine ⟨?_, ?_, ?_, ?_, ?_, ?_, ?_, h.old, Nat.zero_le _⟩
  · cases x with
    | true => exact .extra h.stacked rfl hlasting rfl
    | false =>
      refine .node h.stacked rfl ⟨fun hc _ => hleaf hc, fun hz => ?_⟩ (hx rfl)
      change t.size = Length.zero at hz
      rw [hz] at hpos
      exact absurd hpos (Nat.lt_irrefl 0)
  · show LaidList _ 0 ((Version.push v _ _).nodes ++ v.pending)
    rw [nodes_push_append v _ _ hp, laidList_append, hspan, Nat.zero_add]
    exact ⟨h.laid, laidList_singleton.mpr hshifted⟩
  · show Subtree.span ((Version.push v _ _).nodes ++ v.pending) = _
    rw [nodes_push_append v _ _ hp, span_append, h.span, span_singleton]
    rfl
  · exact hstop
  · intro u hu
    rw [show (v.shift next t x).pending = v.pending from rfl, hp] at hu
    contradiction
  · rintro u ⟨⟩
  · rintro u ⟨⟩

/-! ## Reductions -/

theorem Version.Sound.reduce (hg : l.Sound g) (h : v.Sound g l Spans text) {p : ProductionId}
    (ha : .reduce p ∈ actionsFor l v.state t) :
    ∃ info, l.production? p = some info ∧ ∀ n fragile u, n ≤ maxReductions → ∃ w,
      Version.reduce l { v with reductions := n } info fragile u = .ok w ∧
        w.Sound g l Spans text := by
  obtain ⟨info, hinfo, hok⟩ := reduce_spec hg h.stacked (laidList_append.mp h.laid).1
    (mem_actions_of_reduce ha)
  refine ⟨info, hinfo, fun n fragile u hn => ?_⟩
  obtain ⟨w, hw, hstacked, hlaid, hspan⟩ := hok n fragile u
  refine ⟨w, hw, ?_⟩
  obtain ⟨stack, external, precedence, rfl⟩ := Version.reduce_eq hw
  refine ⟨hstacked, ?_, ?_, h.position, h.pending, h.lookahead, h.inner, h.old, hn⟩
  · rw [laidList_append, hspan]
    exact ⟨hlaid, (laidList_append.mp h.laid).2⟩
  · rw [span_append, hspan, ← span_append]
    exact h.span

theorem Version.Sound.reducible (hg : l.Sound g) (h : v.Sound g l Spans text) (t : Subtree) :
    Reducible l v t := by
  intro p ha
  obtain ⟨info, hinfo, hok⟩ := reduce_spec hg h.stacked (laidList_append.mp h.laid).1
    (mem_actions_of_reduce ha)
  refine ⟨info, hinfo, fun n fragile => ?_⟩
  obtain ⟨w, hw, -⟩ := hok n fragile t
  exact ⟨w, hw⟩

/-! ## Errors -/

/-- An error node as an extra. -/
theorem laid_errorExtra (state : StateId) (cost : Nat) {start : Nat} {ts : List Subtree}
    (h : LaidList (LeafOf g l Spans) start ts) :
    Laid (LeafOf g l Spans) start ((Subtree.error l state cost ts).withExtra true)
      ∧ ((Subtree.error l state cost ts).withExtra true).size = Subtree.span ts := by
  obtain ⟨hlaid, hsize⟩ := laid_errorOf state cost h
  exact ⟨hlaid.withInfo (fun _ => rfl) fun _ hi => hi.same rfl rfl rfl rfl, hsize⟩

/-- A token that is put in has no text and stands for its symbol. -/
theorem Version.Sound.inserted (h : v.Sound g l Spans text) (hp : v.pending = []) {s : Symbol}
    {next : StateId} (ha : .shift next ∈ l.actions v.state s) :
    (v.inserted l s next).Sound g l Spans text := by
  have hterm : l.isNonterminal s = false :=
    isNonterminal_of_hasActions (q := v.state) (by
      unfold Language.hasActions
      cases hl : l.actions v.state s with
      | nil => simp [hl] at ha
      | cons => rfl)
  refine ⟨?_, ?_, ?_, h.position, h.pending, h.lookahead, h.inner, h.old, h.reductions⟩
  · refine .node h.stacked rfl ⟨fun _ hz => absurd rfl hz, fun _ _ => .inl ⟨rfl, hterm⟩⟩ ?_
    show l.Edge v.state s next
    rwa [Language.Edge, if_neg (by simp [hterm])]
  · show LaidList _ 0 ((Version.push v _ _).nodes ++ v.pending)
    rw [nodes_push_append v _ _ hp, laidList_append]
    exact ⟨h.laid, laidList_singleton.mpr (laid_leaf.mpr (.empty rfl (.inl rfl)))⟩
  · show Subtree.span ((Version.push v _ _).nodes ++ v.pending) = _
    rw [nodes_push_append v _ _ hp, span_append, h.span, span_singleton]
    exact Length.add_zero _

/-- Nodes that are given up keep their text, and so do the tokens skipped after them. -/
theorem Version.Sound.reset (hg : l.Sound g) (h : v.Sound g l Spans text)
    {taken stack : List Entry} (hstack : v.stack = taken ++ stack) (cost : Nat) :
    (v.reset l (taken.map Entry.node).reverse stack cost).Sound g l Spans text := by
  have hstacked : Stacked g l stack := by
    have := h.stacked
    rw [hstack] at this
    exact this.of_append
  -- the text of the stack comes in two parts, and the skipped tokens follow
  have hall : v.nodes ++ v.pending = (stack.map Entry.node).reverse
      ++ (((taken.map Entry.node).reverse ++ v.pending) ++ []) := by
    rw [nodes_eq, hstack]
    simp
  have hlaid := h.laid
  have hspan := h.span
  rw [hall] at hlaid hspan
  obtain ⟨-, htail⟩ := laidList_append.mp hlaid
  rw [List.append_nil] at htail
  have herror (state : StateId) (cost : Nat) :
      let error := (Subtree.error l state cost ((taken.map Entry.node).reverse ++ v.pending)).withExtra
        true
      LaidList (LeafOf g l Spans) 0 ((stack.map Entry.node).reverse ++ [error]) ∧
        Subtree.span ((stack.map Entry.node).reverse ++ [error]) = v.position := by
    obtain ⟨herror, hsize⟩ := laid_errorExtra state cost htail
    obtain ⟨h₁, h₂⟩ := laidList_replace hlaid herror hsize
    rw [List.append_nil] at h₁ h₂
    exact ⟨h₁, h₂.trans hspan⟩
  refine ⟨.extra hstacked rfl (lasting_of_terminal (isNonterminal_errorSymbol hg)) rfl, ?_, ?_,
    h.position, by rintro u ⟨⟩, h.lookahead, h.inner, h.old, h.reductions⟩
  · show LaidList _ 0 ((Version.push _ _ _).nodes ++ [])
    rw [Version.nodes_push, List.append_nil]
    exact (herror _ _).1
  · show Subtree.span ((Version.push _ _ _).nodes ++ []) = _
    rw [Version.nodes_push, List.append_nil]
    exact (herror _ _).2

/-- A token joins the skipped ones. -/
theorem Version.Sound.skipped (h : v.Sound g l Spans text) (hl : v.lookahead = some t)
    (hs : t.symbol ≠ endSymbol) {u : Subtree} (hsize : u.size = t.size)
    (hlaid : ∀ start, Laid (LeafOf g l Spans) start t → Laid (LeafOf g l Spans) start u)
    (hlasting : Lasting l t → Lasting l u) :
    LaidList (LeafOf g l Spans) 0 (v.nodes ++ (v.pending ++ [u])) ∧
      Subtree.span (v.nodes ++ (v.pending ++ [u])) = v.position + t.size ∧
      (v.position + t.size).bytes ≤ text.size ∧ ∀ x ∈ v.pending ++ [u], Lasting l x := by
  obtain ⟨hpos, hstop, hlaidt⟩ := h.text_of_ne_end hl hs
  rw [← List.append_assoc, laidList_append, h.span, Nat.zero_add, laidList_singleton,
    span_append (v.nodes ++ v.pending), h.span, span_singleton, hsize]
  refine ⟨⟨h.laid, hlaid _ hlaidt⟩, rfl, hstop, fun x hx => ?_⟩
  rcases List.mem_append.mp hx with hx | hx
  · exact h.pending x hx
  · rw [List.mem_singleton.mp hx]
    exact hlasting (lasting_of_laid hiddenEmpty_leafOf hlaidt hpos)

theorem Version.Sound.skip (h : v.Sound g l Spans text) (hl : v.lookahead = some t)
    (hs : t.symbol ≠ endSymbol) : (v.skip t).Sound g l Spans text := by
  obtain ⟨hlaid, hspan, hstop, hlasting⟩ :=
    h.skipped hl hs (u := t) rfl (fun _ h => h) fun h => h
  refine ⟨h.stacked, hlaid, hspan, hstop, hlasting, ?_, ?_, h.old, Nat.zero_le _⟩
  · rintro u ⟨⟩
  · rintro u ⟨⟩

theorem Version.Sound.skipExtra (h : v.Sound g l Spans text) (hl : v.lookahead = some t)
    (hs : t.symbol ≠ endSymbol) : (v.skipExtra t).Sound g l Spans text := by
  obtain ⟨hlaid, hspan, hstop, hlasting⟩ :=
    h.skipped hl hs (u := t.withExtra true) rfl
      (fun _ h => h.withInfo (fun _ => rfl) fun _ hi => hi.same rfl rfl rfl rfl)
      fun h => lasting_withInfo h (fun _ => rfl) fun _ => rfl
  refine ⟨h.stacked, hlaid, hspan, hstop, hlasting, ?_, ?_, h.old, Nat.zero_le _⟩
  · rintro u ⟨⟩
  · rintro u ⟨⟩

/-- Every way on from an error keeps a hypothesis sound. -/
theorem Version.Sound.recoveries (hg : l.Sound g) (h : v.Sound g l Spans text)
    (hl : v.lookahead = some t) (hw : w ∈ v.recoveries l t) : w.Sound g l Spans text := by
  cases Recovers.of_mem hw with
  | insert _ hp _ ha => exact h.inserted hp ha
  | reset _ hstack _ => exact h.reset hg hstack _
  | skip hs => exact h.skip hl hs

/-- What comes after the last element with a property does not have it. -/
theorem eq_false_of_mem_splitAfterLast {α : Type} {p : α → Bool} {xs : List α} {x : α}
    (h : x ∈ (Version.splitAfterLast p xs).2) : p x = false := by
  have := List.mem_takeWhile_imp (List.mem_reverse.mp h)
  simpa using this

/-- The skipped tokens as nodes: an error node and the extras after it. -/
theorem Version.Sound.flushed (hg : l.Sound g) (h : v.Sound g l Spans text)
    {skipped trailing : List Subtree} (hparts : skipped ++ trailing = v.pending)
    (hextra : ∀ u ∈ trailing, u.info.extra = true) (state : StateId) (cost : Nat) :
    let ts := (if skipped.isEmpty then [] else [(Subtree.error l state cost skipped).withExtra true])
      ++ trailing
    (∀ u ∈ ts, u.info.extra = true ∧ Lasting l u) ∧
      LaidList (LeafOf g l Spans) 0 (v.nodes ++ ts) ∧ Subtree.span (v.nodes ++ ts) = v.position := by
  have hlaid := h.laid
  have hspan := h.span
  have htrailing (u : Subtree) (hu : u ∈ trailing) : u.info.extra = true ∧ Lasting l u :=
    ⟨hextra u hu, h.pending u (by rw [← hparts]; simp [hu])⟩
  rw [← hparts] at hlaid hspan
  cases skipped with
  | nil => exact ⟨htrailing, hlaid, hspan⟩
  | cons s rest =>
    rw [List.isEmpty_cons, if_neg Bool.false_ne_true]
    have hskipped := (laidList_append.mp (laidList_append.mp hlaid).2).1
    obtain ⟨herror, hsize⟩ := laid_errorExtra state cost hskipped
    obtain ⟨h₁, h₂⟩ := laidList_replace hlaid herror hsize
    rw [List.append_assoc] at h₁ h₂
    refine ⟨fun u hu => ?_, h₁, h₂.trans hspan⟩
    rcases List.mem_append.mp hu with hu | hu
    · rw [List.mem_singleton.mp hu]
      exact ⟨rfl, lasting_of_terminal (isNonterminal_errorSymbol hg)⟩
    · exact htrailing u hu

/-- Ending an error keeps a hypothesis sound. -/
theorem Version.Sound.flush (hg : l.Sound g) (h : v.Sound g l Spans text) :
    (v.flush l).Sound g l Spans text := by
  have hparts := splitAfterLast_append (fun t : Subtree => !t.info.extra) v.pending
  have hextra (u : Subtree) (hu : u ∈ (splitAfterLast (fun t : Subtree => !t.info.extra)
      v.pending).2) : u.info.extra = true := by
    simpa using eq_false_of_mem_splitAfterLast hu
  obtain ⟨hts, hlaid, hspan⟩ := h.flushed hg hparts hextra v.state v.pendingCost
  unfold Version.flush
  simp only
  generalize (if (splitAfterLast (fun t : Subtree => !t.info.extra) v.pending).1.isEmpty = true
    then [] else _) ++ _ = ts at hts hlaid hspan ⊢
  have hstacked := stacked_pushAll (v := { v with pending := [], pendingCost := 0 }) h.stacked hts
  have hnodes := Version.nodes_pushAll { v with pending := [], pendingCost := 0 } v.state ts
  obtain ⟨stack, external, hpush⟩ :=
    Version.pushAll_eq { v with pending := [], pendingCost := 0 } v.state ts
  rw [show ({ v with pending := [], pendingCost := 0 } : Version).state = v.state from rfl] at hstacked
  rw [hpush] at hstacked hnodes ⊢
  refine ⟨hstacked, ?_, ?_, h.position, by simp, h.lookahead, h.inner, h.old, h.reductions⟩
  · rw [List.append_nil]
    exact hnodes ▸ hlaid
  · rw [List.append_nil]
    exact hnodes ▸ hspan

/-- An action of the automaton keeps a hypothesis sound. -/
theorem Acts.sound (hg : l.Sound g) (h : v.Sound g l Spans text) (hp : v.pending = [])
    (hl : v.lookahead = some t) (ha : Acts l v t w) : w.Sound g l Spans text := by
  cases ha with
  | shift ha =>
    exact h.shift hp hl (ne_end_of_mem_actionsFor hg ha) fun _ => mem_actionsFor_shift ha
  | reduce ha hinfo hn hw =>
    obtain ⟨info, hinfo', hok⟩ := h.reduce hg ha
    obtain rfl := Option.some.inj (hinfo.symm.trans hinfo')
    obtain ⟨w', hw', hsound⟩ := hok (v.reductions + 1) _ t hn
    obtain rfl := Except.ok.inj (hw.symm.trans hw')
    exact hsound
  | shiftExtra _ he =>
    exact h.shift hp hl (ne_end_of_isShiftableExtra he) fun hx => by contradiction
  | drop _ ht =>
    refine ⟨h.stacked, h.laid, h.span, h.position, h.pending, ?_, ?_, ?_, h.reductions⟩
    · rintro u ⟨⟩
    · rintro u ⟨⟩
    · rintro o ⟨⟩
  | recover _ hw => exact h.recoveries hg hl hw

/-- Every way on keeps a hypothesis sound. -/
theorem Next.sound (hg : l.Sound g) (h : v.Sound g l Spans text) (hl : v.lookahead = some t)
    (hn : Next l v t w) : w.Sound g l Spans text := by
  cases hn with
  | act hp ha => exact ha.sound hg h hp hl
  | flush _ _ ha =>
    obtain ⟨_, _, hflush⟩ := Version.flush_eq (l := l) v
    exact ha.sound hg (h.flush hg) (by rw [hflush]) (by rw [hflush]; exact hl)
  | skipExtra _ he => exact h.skipExtra hl (ne_end_of_isShiftableExtra he)
  | recover _ hw => exact h.recoveries hg hl hw

end Glr.Parse
