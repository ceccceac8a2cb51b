import Glr.Proofs.Parse.Heedful
import Glr.Proofs.Reparse

/-!
# Glr.Proofs.Immediate

Immediate tokens follow no extra, unless a node that begins with one was taken from a previous
tree from where no extra stood before it:

```
#   extra
i   immediate            (… x(i …))   ↦   (… # x(i …))
```

A parse finds no immediate token behind an extra, and takes none from the previous tree.  A node
with children is taken without regard to what its first word is, and that is the only way.

* `Language.immediate_apart`: the words of a tree, extra and immediate.
-/

namespace Glr

open Parse Subtree

variable {g : FlatGrammar} {l : Language} {text : Bytes} {t : Tree} {old : Option Tree}
  {i : NodeInfo}

/-! ## Immediate tokens -/

/-- What is stored of a token that an immediate rule found.  It may have been taken in any state, as
an extra or as none, and it may be shown under another symbol. -/
inductive Language.Immediate (l : Language) : NodeInfo → Prop where
  | found {text : Bytes} {site : Site} {valid : Option (Array Symbol)} {lexState : Nat}
      {rule : LexRule} {m : Matcher} {c : Candidate} (hrule : (rule, m) ∈ l.rules)
      (himmediate : rule.immediate = true)
      (hc : candidate? l text site.position.bytes valid site.afterExtra
        (l.wordMatcher?.bind fun m => m.length? text site.position.bytes) rule m = some c)
      (hbest : bestMatch? l text site.position.bytes valid site.afterExtra = some c) :
      l.Immediate (tokenAt l text site c.symbol c.length lexState).info
  | taken {i : NodeInfo} (h : l.Immediate i) (parseState : StateId) (extra : Bool) :
      l.Immediate { i with parseState, extra }
  | shown {i : NodeInfo} {p : ProductionId} {info : ProductionInfo} {s : Symbol}
      (h : l.Immediate i) (hp : l.production? p = some info) (hs : some s ∈ info.labels) :
      l.Immediate { i with symbol := s, visible := l.isVisible s, named := l.isNamed s }

/-- No immediate rule matches behind an extra. -/
theorem Language.Immediate.afterExtra (h : l.Immediate i) : i.afterExtra = false := by
  induction h with
  | @found text site valid lexState rule m c _ himmediate hc _ =>
    show site.afterExtra = false
    cases hx : site.afterExtra with
    | false => rfl
    | true => simp [candidate?, himmediate, hx] at hc
  | taken _ _ _ ih => exact ih
  | shown _ _ _ ih => exact ih

/-! ## Trees -/

/-- The trees of a language that a parse may be given, where no node that begins with an immediate
token was taken from behind something else to behind an extra. -/
inductive Language.Heedful (l : Language) : Tree → Prop where
  | foreign {t : Tree} (h : t.language.sameAs l = false) : l.Heedful t
  | parsed {limits : Limits} {text : Bytes} {old : Option Tree}
      (hold : ∀ t, old = some t → l.Heedful t)
      (hapart : ∀ n, ((Run.turn l text)^[n] (l.startRun text old)).TakesApart l l.Immediate) :
      l.Heedful (l.parse limits text old).1
  | edited {t t' : Tree} {e : Edit} (h : l.Heedful t) (he : t.edit e = .ok t') : l.Heedful t'

theorem Language.Heedful.obtained (h : l.Heedful t) : l.Obtained t := by
  induction h with
  | foreign h => exact .foreign h
  | parsed _ _ ih => exact .parsed ih
  | edited _ he ih => exact .edited ih he

theorem Tree.kept_of_sealed {U : NodeRule} {Bound : NodeInfo → Prop} {size : Nat}
    (hkept : Kept U 0 t.root) (h : Everywhere (Sealed l Bound size) t.root)
    (hle : t.root.size.bytes ≤ size) :
    Kept (fun _ u => Everywhere (Sealed l Bound t.lenBytes) u) 0 t.root :=
  hkept.of_everywhere (Sealed.mono h hle)

/-- What no edit touched of a tree is as a parse has built it, and it ends with an extra only where
the whole tree did. -/
theorem Language.Heedful.kept (hg : l.Sound g) (h : l.Heedful t)
    (hl : t.language.sameAs l = true) :
    Kept (fun _ u => Everywhere (Sealed l l.Immediate t.lenBytes) u) 0 t.root := by
  induction h with
  | foreign h =>
    rw [h] at hl
    contradiction
  | @parsed limits text old hold hapart ih =>
    have hheedful : l.Heedful (l.parse limits text old).1 := .parsed hold hapart
    have hobtained := hheedful.obtained
    have hresult := Language.result_parse hg (covers_anyText text)
      (fun t ht hl => (hold t ht).obtained.kept hg hl) (Prod.eta (l.parse limits text old)).symm
    have hsealed := Language.sealed_parse hg (fun _ => Language.Immediate.afterExtra) limits text
      (fun t ht => (hold t ht).obtained) ih hapart
    exact Tree.kept_of_sealed (hobtained.kept hg hl) hsealed hresult.size_le
  | @edited t t' e h he ih =>
    have hedited := h.obtained.edited he
    have hkept := hedited.kept hg hl
    rw [Tree.language_of_edit he] at hl
    have hsteady := h.obtained.steady hg hl
    obtain ⟨-, hwithin, rfl⟩ := Tree.edit_eq_ok he
    refine (framed_within hsteady hwithin).sealed
      (Nat.le_trans hwithin.start_le hwithin.oldEnd_le) hsteady (ih hl) hkept
      (Nat.zero_add _).le fun hc => ?_
    -- every edit marks the root
    generalize t.root = root at hc
    obtain ⟨i, cs⟩ := root
    simp [Subtree.edit, Subtree.info] at hc

/-- A parse without a previous tree takes nothing. -/
theorem Language.takesApart_turns (hg : l.Sound g) (Bound : NodeInfo → Prop) (text : Bytes)
    (n : Nat) : ((Run.turn l text)^[n] (l.startRun text none)).TakesApart l Bound := by
  intro i v hn hv t _ ht
  rw [Version.taken?, Language.old_eq_none_turns hg text n hn hv] at ht
  split at ht <;> contradiction

/-- In the tree of a parse no immediate token stands directly behind an extra, unless a node that
begins with one was taken from a previous tree there. -/
theorem Language.immediate_apart {handle : Nat} {grammar : Grammar} {scanner : Option Scanner}
    (h : Language.ofGrammar handle grammar scanner = .ok l) (limits : Limits) (text : Bytes) :
    (l.parse limits text none).1.root.words.IsChain (MayFollow l.Immediate) ∧
    ∀ old, l.Heedful old →
      (∀ n, ((Run.turn l text)^[n] (l.startRun text (some old))).TakesApart l l.Immediate) →
      (l.parse limits text (some old)).1.root.words.IsChain (MayFollow l.Immediate) := by
  obtain ⟨g, -, hg⟩ := Language.ofGrammar_sound h
  have hchain {old : Option Tree} (hold : ∀ t, old = some t → l.Heedful t)
      (hapart : ∀ n, ((Run.turn l text)^[n] (l.startRun text old)).TakesApart l l.Immediate) :
      (l.parse limits text old).1.root.words.IsChain (MayFollow l.Immediate) := by
    have hsealed := Language.sealed_parse hg (fun _ => Language.Immediate.afterExtra) limits text
      (fun t ht => (hold t ht).obtained) (fun t ht hl => (hold t ht).kept hg hl) hapart
    generalize (l.parse limits text old).1.root = root at hsealed
    obtain ⟨i, cs⟩ := root
    exact hsealed.here.follow
  refine ⟨hchain (by simp) (Language.takesApart_turns hg _ text), fun old hold => ?_⟩
  exact hchain fun t ht => Option.some.inj ht ▸ hold

/-! ## A node behind an extra -/

section

/-- Whether an immediate token may be shown under a symbol. -/
def Language.maybeImmediate (l : Language) (s : Symbol) : Bool :=
  l.rules.any (fun r => r.1.immediate && r.1.symbol == s) ||
    l.table.productions.any fun p => p.labels.contains (some s)

theorem Language.Immediate.maybeImmediate (h : l.Immediate i) :
    l.maybeImmediate i.symbol = true := by
  rw [Language.maybeImmediate, Bool.or_eq_true]
  induction h with
  | @found text site valid lexState rule m c hrule himmediate hc _ =>
    refine .inl (List.any_eq_true.mpr ⟨(rule, m), hrule, ?_⟩)
    have hsymbol : rule.symbol = c.symbol := by
      simp only [candidate?] at hc
      grind
    rw [himmediate, Bool.true_and, beq_iff_eq]
    exact hsymbol
  | taken _ _ _ ih => exact ih
  | shown _ hp hs _ =>
    exact .inr (Array.any_eq_true'.mpr ⟨_, Array.mem_of_getElem? hp, by simpa using hs⟩)

/-- Whether a hypothesis takes nothing behind an extra that may begin with an immediate token. -/
def Parse.Version.standsApart (l : Language) (v : Version) : Bool :=
  !v.afterExtra || (v.taken? l).all fun t =>
    t.isLeaf || t.words.head?.all fun j => !l.maybeImmediate j.symbol

theorem Parse.Version.takesApart_of_standsApart {v : Version} (h : v.standsApart l = true) :
    v.TakesApart l l.Immediate := by
  intro t hx ht hn j hj himmediate
  rw [Version.standsApart, hx, ht, Option.all_some, hj] at h
  simp [Subtree.isLeaf, hn, himmediate.maybeImmediate] at h

/-- Whether a parse ends within some turns, and takes nothing behind an extra that may begin with
an immediate token. -/
def Parse.Run.standsApart (l : Language) (text : Bytes) : Nat → Run → Bool
  | 0, r => r.next?.isNone
  | n + 1, r => r.versions.all (Version.standsApart l) && (r.turn l text).standsApart l text n

theorem Parse.Run.takesApart_of_standsApart {n : Nat} {r : Run}
    (h : r.standsApart l text n = true) (m : Nat) :
    ((Run.turn l text)^[m] r).TakesApart l l.Immediate := by
  induction n generalizing r m with
  | zero =>
    rw [Run.standsApart, Option.isNone_iff_eq_none] at h
    rw [Run.turns_of_next? h]
    intro i v hn
    rw [h] at hn
    contradiction
  | succ n ih =>
    rw [Run.standsApart, Bool.and_eq_true, List.all_eq_true] at h
    obtain ⟨hversions, hrest⟩ := h
    cases m with
    | zero =>
      exact fun i v _ hv => Version.takesApart_of_standsApart
        (hversions v (List.mem_of_getElem? hv))
    | succ m => exact ih hrest m

/-- Units, each with a mark before, and comments between them. -/
def Grammar.units : Grammar :=
  { name := "units", extras := some [.string "#;"] : Grammar }
    |>.addRule "s" (.choice [.seq [.string "u;", .sym "s"], .sym "x"])
    |>.addRule "x" (.seq [.string "k", .immediateToken (.string "i")])

/-- Whether a token is one that an immediate rule finds at a site. -/
def Language.findsImmediate (l : Language) (text : Bytes) (site : Site) (j : NodeInfo) : Bool :=
  let valid := some (l.validTokens j.lexState)
  (bestMatch? l text site.position.bytes valid site.afterExtra).any fun c =>
    (l.rules.any fun r => r.1.immediate && candidate? l text site.position.bytes valid
      site.afterExtra (l.wordMatcher?.bind fun m => m.length? text site.position.bytes) r.1 r.2 ==
        some c) &&
      j == { (tokenAt l text site c.symbol c.length j.lexState).info with
        parseState := j.parseState, extra := j.extra }

theorem Language.Immediate.of_findsImmediate {site : Site}
    (h : l.findsImmediate text site i = true) : l.Immediate i := by
  obtain ⟨c, hbest, h⟩ := (Option.any_eq_true _ _).mp h
  simp only [Bool.and_eq_true, List.any_eq_true, beq_iff_eq] at h
  obtain ⟨⟨⟨rule, m⟩, hrule, himmediate, hc⟩, hi⟩ := h
  rw [hi]
  exact .taken (.found hrule himmediate hc hbest) _ _

set_option maxRecDepth 100000 in
/-- A unit gives way to a comment, and the node behind it, of two tokens of which the second is
immediate, is taken from the tree as a whole. -/
theorem Language.immediate_apart_units : ∃ l edited,
    Language.ofGrammar 0 .units none = .ok l ∧ l.Heedful edited ∧
    (((Run.turn l (Bytes.ofString "u;#;ki"))^[2]
      (l.startRun (Bytes.ofString "u;#;ki") (some edited))).versions.any fun v =>
        v.afterExtra && (v.taken? l).any fun t => !t.isLeaf) = true ∧
    (∀ n, ((Run.turn l (Bytes.ofString "u;#;ki"))^[n]
      (l.startRun (Bytes.ofString "u;#;ki") (some edited))).TakesApart l l.Immediate) ∧
    let words := (l.parse {} (Bytes.ofString "u;#;ki") (some edited)).1.root.words
    words.map NodeInfo.extra = [false, true, false, false] ∧
    (∃ j ∈ words.getLast?, l.Immediate j) ∧ words.IsChain (MayFollow l.Immediate) := by
  let e := Edit.replace (Bytes.ofString "u;u;ki") 2 3 (Bytes.ofString "#")
  let site : Site := { position := ⟨5, 0, 5⟩, lexState := 0, afterExtra := false, external := {} }
  have hrun : (Language.ofGrammar 0 .units none).toOption.any (fun l =>
      ((l.parse {} (Bytes.ofString "u;u;ki") none).1.edit e).toOption.any fun edited =>
        let r := l.startRun (Bytes.ofString "u;#;ki") (some edited)
        let words := (l.parse {} (Bytes.ofString "u;#;ki") (some edited)).1.root.words
        (((Run.turn l (Bytes.ofString "u;#;ki"))^[2] r).versions.any fun v =>
            v.afterExtra && (v.taken? l).any fun t => !t.isLeaf) &&
          r.standsApart l (Bytes.ofString "u;#;ki") 12 &&
          words.map NodeInfo.extra == [false, true, false, false] &&
          words.getLast?.any (l.findsImmediate (Bytes.ofString "u;#;ki") site)) = true := by
    decide +kernel
  obtain ⟨l, hl, hrun⟩ := exists_ok hrun
  obtain ⟨edited, hedited, hrun⟩ := exists_ok hrun
  simp only [Bool.and_eq_true, beq_iff_eq] at hrun
  obtain ⟨⟨⟨htaken, hapart⟩, hextras⟩, hlast⟩ := hrun
  obtain ⟨j, hj, hfinds⟩ := (Option.any_eq_true _ _).mp hlast
  obtain ⟨g, -, hg⟩ := Language.ofGrammar_sound hl
  have hold : l.Heedful edited :=
    .edited (.parsed (by simp) (Language.takesApart_turns hg _ _)) hedited
  have hapart := Run.takesApart_of_standsApart hapart
  exact ⟨l, edited, hl, hold, htaken, hapart, hextras, ⟨j, hj, .of_findsImmediate hfinds⟩,
    (Language.immediate_apart hl {} (Bytes.ofString "u;#;ki")).2 edited hold hapart⟩

end

end Glr
