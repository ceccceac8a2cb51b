import Glr.Parse.Token
import Glr.Proofs.Language

/-!
# Glr.Proofs.Parse.Token

What the token at a place is.  Before the end of the text it has text, all of which
lies in the text; at the end it is the end itself, and nothing else is.  So a parse
that takes token after token comes to the end and knows it there:

```
text     |  a b c  |  d  |  e f  |
tokens      t₁       t₂     t₃      end   end   …
```

* `Advances` — a token takes the next part of the text, whatever the language;
* `tokenAt_token` — what is stored of a token of a sound language;
* `token_tiles` — tokens taken one behind the other tile the text.
-/

namespace Glr

/-! ## Matches -/

namespace Regex

/-- A run answers the best end so far or the offset of a later match. -/
theorem runFrom_eq_some {instrs : Array Instr} {text : Bytes} {base fuel i stop : Nat}
    {threads : Array Thread} {seen : Array Nat} {best : Option Nat}
    (h : runFrom instrs text base fuel i threads seen best = some stop) :
    best = some stop ∨ stop < i + fuel := by
  induction fuel generalizing i threads seen best with
  | zero => exact .inl h
  | succ fuel ih =>
    rw [runFrom] at h
    split at h
    · exact .inl h
    · rcases ih h with h | h
      · split at h
        · obtain rfl := Option.some.inj h
          exact .inr (by omega)
        · exact .inl h
      · exact .inr (by omega)

theorem endFrom?_le {r : Regex} {text : Bytes} {base start stop : Nat} (hs : start ≤ text.size)
    (h : r.endFrom? text base start = some stop) : stop ≤ text.size := by
  rcases runFrom_eq_some h with h | h
  · contradiction
  · omega

theorem findEnd?_le {r : Regex} {text : Bytes} {start stop : Nat} (hs : start ≤ text.size)
    (h : r.findEnd? text start = some stop) : stop ≤ text.size := by
  unfold findEnd? at h
  split at h
  · exact endFrom?_le hs h
  · obtain ⟨k, hk, he⟩ := List.exists_of_findSome?_eq_some h
    rw [List.mem_range] at hk
    exact endFrom?_le (by omega) he

end Regex

/-- A match has text and ends in the text. -/
theorem Matcher.length?_bounds {m : Matcher} {text : Bytes} {start n : Nat}
    (hs : start ≤ text.size) (h : m.length? text start = some n) :
    0 < n ∧ start + n ≤ text.size := by
  unfold Matcher.length? at h
  rw [Option.filter_eq_some_iff] at h
  obtain ⟨h, hn⟩ := h
  have hn : 0 < n := by simpa using hn
  refine ⟨hn, ?_⟩
  cases m with
  | literal part =>
    simp only at h
    split at h
    · rename_i hat
      obtain rfl := Option.some.inj h
      have hlast := Bytes.hasAt_iff.mp hat (part.size - 1) (by omega)
      rw [Array.getElem?_eq_getElem (show part.size - 1 < part.size by omega)] at hlast
      have := (Array.getElem?_eq_some_iff.mp hlast).1
      omega
    · contradiction
  | pattern r =>
    obtain ⟨stop, hstop, rfl⟩ := Option.map_eq_some_iff.mp h
    have := Regex.findEnd?_le hs hstop
    omega

namespace Parse

open Subtree

/-- Nothing but its text and what its symbol says is stored of a token. -/
structure Plain (l : Language) (i : NodeInfo) : Prop where
  extra : i.extra = false
  missing : i.missing = false
  visible : i.visible = l.isVisible i.symbol
  named : i.named = l.isNamed i.symbol

/-- What a token at a place is: text before the end of the text, the end itself at
the end. -/
structure TokenAt (l : Language) (text : Bytes) (start : Nat) (t : Subtree) : Prop where
  leaf : t.children = []
  terminal : l.isNonterminal t.symbol = false
  plain : Plain l t.info
  changed : t.info.changed = false
  /-- By itself it costs nothing, also where it is an error. -/
  cost : t.info.errorCost = 0
  precedence : t.info.dynamicPrecedence = 0
  counts : t.info.visibleCount = 0 ∧ t.info.namedCount = 0
  /-- What comes after it had a say in it. -/
  lookahead : 0 < t.info.lookahead
  /-- It has text, and that is where it stands. -/
  inText : start < text.size → t.symbol ≠ endSymbol ∧
    ∃ stop, start < stop ∧ stop ≤ text.size ∧ t.size = .of (text.extract start stop)
  atEnd : text.size ≤ start → t.symbol = endSymbol ∧ t.size = Length.zero

/-- The token at an offset takes text there, within the text, and measures what it takes.  What
comes behind it had a say in it. -/
structure Advances (text : Bytes) (start : Nat) (t : Subtree) : Prop where
  leaf : t.children = []
  pos : 0 < t.size.bytes
  le : start + t.size.bytes ≤ text.size
  size : t.size = .of (text.extract start (start + t.size.bytes))
  lookahead : 0 < t.info.lookahead

/-- The token at the end of a text. -/
def endToken (l : Language) (lexState : Nat) : Subtree :=
  .mk { tokenInfo l endSymbol Length.zero with lexState } []

variable {g : FlatGrammar} {l : Language} {text : Bytes} {site : Site}

theorem isNonterminal_of_size_le {x : Symbol} (h : l.table.symbols.size ≤ x) :
    l.isNonterminal x = false := by
  rw [Language.isNonterminal, Language.info?, Array.getElem?_eq_none h]
  rfl

/-- The symbol of errors is no nonterminal. -/
theorem isNonterminal_errorSymbol (hg : l.Sound g) : l.isNonterminal errorSymbol = false :=
  isNonterminal_of_size_le (by rw [hg.symbols]; exact hg.grammar.size_le)

theorem ne_errorSymbol_of_isShown {symbols : Array SymbolInfo} (hsize : symbols.size ≤ errorSymbol)
    {x : Symbol} (h : IsShown symbols x) : x ≠ errorSymbol := by
  obtain ⟨info, hi, -⟩ := h
  exact Nat.ne_of_lt (Nat.lt_of_lt_of_le (Array.getElem?_eq_some_iff.mp hi).1 hsize)

theorem isNonterminal_endSymbol (hg : l.Sound g) : l.isNonterminal endSymbol = false := by
  obtain ⟨info, hi, hk⟩ := hg.grammar.first
  exact hg.isNonterminal_eq_false (by simp [FlatGrammar.isTerminal, hi, hk, SymbolKind.isTerminal])

theorem isToken_of_mem_rules (hg : l.Sound g) {r : LexRule × Matcher} (h : r ∈ l.rules) :
    IsToken g.symbols r.1.symbol :=
  hg.grammar.lexRules _ (hg.rules r h)

/-- A match that is chosen is that of some rule. -/
theorem exists_rule_of_bestMatch? {start : Nat} {valid : Option (Array Symbol)} {afterExtra : Bool}
    {c : Candidate} (h : bestMatch? l text start valid afterExtra = some c) :
    ∃ r ∈ l.rules, c.symbol = r.1.symbol ∧ r.2.length? text start = some c.length := by
  obtain ⟨⟨rule, m⟩, hr, hc⟩ := List.mem_filterMap.mp (mem_of_firstBest? h)
  refine ⟨(rule, m), hr, ?_⟩
  simp only [candidate?] at hc
  split at hc
  · contradiction
  · split at hc
    · contradiction
    · split at hc
      · contradiction
      · rename_i n hm
        split at hc
        · contradiction
        · obtain rfl := Option.some.inj hc
          exact ⟨rfl, hm⟩

/-! ## The text of a token -/

theorem Advances.of_stop {start stop : Nat} {t : Subtree} (hleaf : t.children = [])
    (hstart : start < stop) (hstop : stop ≤ text.size)
    (hsize : t.size = .of (text.extract start stop)) (hlookahead : 0 < t.info.lookahead) : Advances text start t := by
  have hbytes : t.size.bytes = stop - start := by
    rw [hsize]
    show (text.extract start stop).size = _
    rw [Array.size_extract, Nat.min_eq_left hstop]
  have hend : start + t.size.bytes = stop := by omega
  exact ⟨hleaf, by omega, by omega, by rw [hend]; exact hsize, hlookahead⟩

/-- A token of the lexical rules, valid there or not. -/
theorem advances_tokenAt {valid : Option (Array Symbol)} {c : Candidate} {lexState : Nat}
    (hs : site.position.bytes ≤ text.size)
    (h : bestMatch? l text site.position.bytes valid site.afterExtra = some c) :
    Advances text site.position.bytes (tokenAt l text site c.symbol c.length lexState) := by
  obtain ⟨r, -, -, hlength⟩ := exists_rule_of_bestMatch? h
  obtain ⟨hpos, hle⟩ := Matcher.length?_bounds hs hlength
  exact .of_stop rfl (Nat.lt_add_of_pos_right hpos) hle rfl (lineLookahead_pos _ _)

theorem unrecognizedEnd_le (l : Language) (fuel : Nat) {stop : Nat} (h : stop ≤ text.size) :
    unrecognizedEnd l text fuel stop ≤ text.size := by
  induction fuel generalizing stop with
  | zero => exact h
  | succ fuel ih =>
    unfold unrecognizedEnd
    split
    · split
      · exact h
      · have := characterWidth_le text stop
        exact ih (by omega)
    · exact h

/-- Text that no rule matches. -/
theorem advances_unrecognized {fuel lexState : Nat} (hs : site.position.bytes < text.size) :
    let start := site.position.bytes
    let stop := unrecognizedEnd l text fuel (start + characterWidth text start)
    Advances text start (tokenAt l text site errorSymbol (stop - start) lexState) := by
  intro start stop
  have hpos : 0 < characterWidth text start := characterWidth_pos hs
  have hwidth : characterWidth text start ≤ text.size - start := characterWidth_le text start
  have hfrom : start + characterWidth text start ≤ stop := le_unrecognizedEnd l text fuel _
  have hstop : stop ≤ text.size := unrecognizedEnd_le l fuel (by omega)
  exact .of_stop rfl (by omega) (show start + (stop - start) ≤ text.size by omega) rfl
    (lineLookahead_pos _ _)

theorem advances_ruleToken (hs : site.position.bytes < text.size) :
    Advances text site.position.bytes (ruleToken l text site).1 := by
  unfold ruleToken
  simp only [ge_iff_le, Nat.not_le.mpr hs, if_false]
  split
  · rename_i c hc
    exact advances_tokenAt (Nat.le_of_lt hs) hc
  · split
    · rename_i c hc
      exact advances_tokenAt (Nat.le_of_lt hs) hc
    · exact advances_unrecognized hs

/-- A scanner may mark what it likes: its token has text, and ends with the text at the latest. -/
theorem advances_foundToken? {flags : List Bool} {start : Nat} {found : Scan} {t : Subtree}
    (h : foundToken? l text site flags start found = some t) : Advances text start t := by
  unfold foundToken? at h
  split at h
  · simp only at h
    split at h
    · contradiction
    · rename_i hstop
      obtain rfl := Option.some.inj h
      exact .of_stop rfl (Nat.lt_of_not_le hstop) (Nat.min_le_right _ _) rfl
        (Nat.lt_of_lt_of_le (lineLookahead_pos _ _) (Nat.le_max_left _ _))
  · contradiction

/-- What a scanner answers is made of what it found. -/
theorem exists_foundToken? {t : Subtree} (h : (externalToken? l text site).1 = some t) :
    ∃ flags found,
      foundToken? l text site flags (min site.position.bytes text.size) found = some t := by
  unfold externalToken? at h
  split at h
  · contradiction
  · simp only at h
    split at h
    · contradiction
    · split at h
      · rename_i ht
        obtain rfl := Option.some.inj h
        obtain ⟨found, -, ht⟩ := Option.bind_eq_some_iff.mp ht
        exact ⟨_, found, ht⟩
      · contradiction

/-- Before the end of a text a token takes some of it. -/
theorem advances_token (hs : site.position.bytes < text.size) :
    Advances text site.position.bytes (token l text site).1 := by
  unfold token
  split
  · rename_i t events h
    obtain ⟨flags, found, ht⟩ := exists_foundToken? (congrArg Prod.fst h)
    rw [Nat.min_eq_left (Nat.le_of_lt hs)] at ht
    exact advances_foundToken? ht
  · exact advances_ruleToken hs

/-- At the end of a text, and behind it, the token is the end. -/
theorem token_of_size_le (hs : text.size ≤ site.position.bytes) :
    (token l text site).1 = endToken l site.lexState := by
  have hnone : (externalToken? l text site).1 = none := by
    by_contra hsome
    obtain ⟨t, ht⟩ := Option.ne_none_iff_exists'.mp hsome
    obtain ⟨flags, found, hfound⟩ := exists_foundToken? ht
    rw [Nat.min_eq_right hs] at hfound
    obtain ⟨-, hpos, hle, -, -⟩ := advances_foundToken? hfound
    omega
  unfold token
  split
  · rename_i t events h
    rw [h] at hnone
    contradiction
  · simp [ruleToken, hs, endToken]

/-- A token is a leaf, whatever the language. -/
theorem children_token (l : Language) (text : Bytes) (site : Site) :
    (token l text site).1.children = [] := by
  rcases Nat.lt_or_ge site.position.bytes text.size with hs | hs
  · exact (advances_token hs).leaf
  · rw [token_of_size_le hs]
    rfl

/-! ## What is stored of a token -/

theorem TokenAt.of_advances {start : Nat} {t : Subtree} (h : Advances text start t)
    (hterm : l.isNonterminal t.symbol = false) (hplain : Plain l t.info)
    (hchanged : t.info.changed = false) (hcost : t.info.errorCost = 0)
    (hprecedence : t.info.dynamicPrecedence = 0)
    (hcounts : t.info.visibleCount = 0 ∧ t.info.namedCount = 0) (hend : t.symbol ≠ endSymbol) :
    TokenAt l text start t := by
  have hpos : start < start + t.size.bytes := Nat.lt_add_of_pos_right h.pos
  exact ⟨h.leaf, hterm, hplain, hchanged, hcost, hprecedence, hcounts, h.lookahead,
    fun _ => ⟨hend, _, hpos, h.le, h.size⟩, fun hs => by have := h.le; omega⟩

theorem tokenAt_endToken (hg : l.Sound g) {start : Nat} (hs : text.size ≤ start) (lexState : Nat) :
    TokenAt l text start (endToken l lexState) :=
  ⟨rfl, isNonterminal_endSymbol hg, ⟨rfl, rfl, rfl, rfl⟩, rfl, rfl, rfl, ⟨rfl, rfl⟩, Nat.one_pos,
    fun h => absurd h (Nat.not_lt.mpr hs), fun _ => ⟨rfl, rfl⟩⟩

/-- The token of a match. -/
theorem tokenAt_of_bestMatch? (hg : l.Sound g) {valid : Option (Array Symbol)} {c : Candidate}
    {lexState : Nat} (hs : site.position.bytes ≤ text.size)
    (h : bestMatch? l text site.position.bytes valid site.afterExtra = some c) :
    TokenAt l text site.position.bytes (tokenAt l text site c.symbol c.length lexState) := by
  obtain ⟨r, hr, hsymbol, -⟩ := exists_rule_of_bestMatch? h
  have htoken := isToken_of_mem_rules hg hr
  rw [← hsymbol] at htoken
  exact .of_advances (advances_tokenAt hs h)
    (hg.isNonterminal_eq_false (FlatGrammar.isTerminal_of_isToken htoken)) ⟨rfl, rfl, rfl, rfl⟩
    rfl rfl rfl ⟨rfl, rfl⟩ (hg.grammar.ne_end_of_usable (.inl htoken))

theorem tokenAt_ruleToken (hg : l.Sound g) (hs : site.position.bytes < text.size) :
    TokenAt l text site.position.bytes (ruleToken l text site).1 := by
  unfold ruleToken
  simp only [ge_iff_le, Nat.not_le.mpr hs, if_false]
  split
  · rename_i c hc
    exact tokenAt_of_bestMatch? hg (Nat.le_of_lt hs) hc
  · split
    · rename_i c hc
      exact tokenAt_of_bestMatch? hg (Nat.le_of_lt hs) hc
    · exact .of_advances (advances_unrecognized hs) (isNonterminal_errorSymbol hg)
        ⟨rfl, rfl, rfl, rfl⟩ rfl rfl rfl ⟨rfl, rfl⟩ (show errorSymbol ≠ endSymbol by decide)

/-- The token of a scanner, whatever the scanner does. -/
theorem tokenAt_of_foundToken? (hg : l.Sound g) {flags : List Bool} {start : Nat} {found : Scan}
    {t : Subtree} (h : foundToken? l text site flags start found = some t) :
    TokenAt l text start t := by
  have hadvances := advances_foundToken? h
  unfold foundToken? at h
  split at h
  · rename_i s hs _
    simp only at h
    split at h
    · contradiction
    · obtain rfl := Option.some.inj h
      rw [hg.externals] at hs
      have htoken := hg.grammar.externals s (List.mem_of_getElem? hs)
      exact .of_advances hadvances
        (hg.isNonterminal_eq_false (FlatGrammar.isTerminal_of_isToken htoken))
        ⟨rfl, rfl, rfl, rfl⟩ rfl rfl rfl ⟨rfl, rfl⟩ (hg.grammar.ne_end_of_usable (.inl htoken))
  · contradiction

/-- Every place has a token, which is the end only at the end of the text. -/
theorem tokenAt_token (text : Bytes) (site : Site) (hg : l.Sound g) :
    TokenAt l text site.position.bytes (token l text site).1 := by
  rcases Nat.lt_or_ge site.position.bytes text.size with hs | hs
  · unfold token
    split
    · rename_i t events h
      obtain ⟨flags, found, ht⟩ := exists_foundToken? (congrArg Prod.fst h)
      rw [Nat.min_eq_left (Nat.le_of_lt hs)] at ht
      exact tokenAt_of_foundToken? hg ht
    · exact tokenAt_ruleToken hg hs
  · rw [token_of_size_le hs]
    exact tokenAt_endToken hg hs site.lexState

/-- A token with text says whether it was found behind an extra. -/
theorem afterExtra_token (l : Language) (text : Bytes) (site : Site)
    (h : (token l text site).1.size.bytes ≠ 0) :
    (token l text site).1.info.afterExtra = site.afterExtra := by
  unfold token at h ⊢
  split
  · rename_i t events ht
    obtain ⟨flags, found, hfound⟩ := exists_foundToken? (congrArg Prod.fst ht)
    unfold foundToken? at hfound
    split at hfound
    · simp only at hfound
      split at hfound
      · contradiction
      · obtain rfl := Option.some.inj hfound
        rfl
    · contradiction
  · rename_i events ht
    rw [ht] at h
    simp only at h ⊢
    unfold ruleToken at h ⊢
    simp only at h ⊢
    split
    · rename_i hend
      rw [if_pos hend] at h
      exact absurd rfl h
    · split
      · rfl
      · split <;> rfl

/-! ## One behind the other -/

/-- What a token is asked for with, besides its place. -/
structure Ask where
  lexState : Nat
  afterExtra : Bool
  external : ScannerState

/-- The request at a place. -/
def Ask.siteAt (a : Ask) (position : Length) : Site :=
  ⟨position, a.lexState, a.afterExtra, a.external⟩

/-- The tokens that are taken from a position on, each where the one before ends. -/
def tokensFrom (l : Language) (text : Bytes) (position : Length) : List Ask → List Subtree
  | [] => []
  | a :: asks =>
    let t := (token l text (a.siteAt position)).1
    t :: tokensFrom l text (position + t.size) asks

/-- The tokens cover a text between two offsets, one behind the other. -/
inductive Tiling (text : Bytes) : Nat → Nat → List Subtree → Prop
  | nil {start : Nat} : Tiling text start start []
  | cons {start stop : Nat} {t : Subtree} {ts : List Subtree} (token : Advances text start t)
      (rest : Tiling text (start + t.size.bytes) stop ts) : Tiling text start stop (t :: ts)

namespace Tiling

variable {start stop : Nat} {ts : List Subtree}

/-- There are no more tokens than bytes. -/
theorem length_le (h : Tiling text start stop ts) : start + ts.length ≤ stop := by
  induction h with
  | nil => exact Nat.le_refl _
  | cons token rest ih =>
    have := token.pos
    rw [List.length_cons]
    omega

theorem le_size (h : Tiling text start stop ts) (hs : start ≤ text.size) : stop ≤ text.size := by
  induction h with
  | nil => exact hs
  | cons token rest ih => exact ih token.le

end Tiling

/-- At the end of a text there is nothing but the end. -/
theorem tokensFrom_of_size_le {position : Length} {t : Subtree} {asks : List Ask}
    (hs : text.size ≤ position.bytes) (ht : t ∈ tokensFrom l text position asks) :
    ∃ lexState, t = endToken l lexState := by
  induction asks with
  | nil => contradiction
  | cons a asks ih =>
    have hend : (token l text (a.siteAt position)).1 = endToken l a.lexState := token_of_size_le hs
    rw [tokensFrom, hend] at ht
    rcases List.mem_cons.mp ht with rfl | ht
    · exact ⟨a.lexState, rfl⟩
    · exact ih ht

/-- Tokens tile the text until it ends, or there are no more requests. -/
theorem tokensFrom_tiling (l : Language) {position : Length} (asks : List Ask)
    (hs : position.bytes ≤ text.size) : ∃ stop tokens ends,
      tokensFrom l text position asks = tokens ++ ends ∧
      Tiling text position.bytes stop tokens ∧
      (stop = text.size ∨ tokens.length = asks.length) ∧
      ∀ t ∈ ends, ∃ lexState, t = endToken l lexState := by
  induction asks generalizing position with
  | nil => exact ⟨_, [], [], rfl, .nil, .inr rfl, by simp⟩
  | cons a asks ih =>
    rcases Nat.eq_or_lt_of_le hs with hend | hlt
    · exact ⟨_, [], tokensFrom l text position (a :: asks), rfl, .nil, .inl hend,
        fun t => tokensFrom_of_size_le (Nat.le_of_eq hend.symm)⟩
    · have hadvances : Advances text (a.siteAt position).position.bytes
          (token l text (a.siteAt position)).1 := advances_token hlt
      have hle : (position + (token l text (a.siteAt position)).1.size).bytes ≤ text.size :=
        hadvances.le
      obtain ⟨stop, tokens, ends, htokens, htiling, hstop, hends⟩ := ih hle
      refine ⟨stop, _ :: tokens, ends, ?_, .cons hadvances htiling, ?_, hends⟩
      · rw [tokensFrom, htokens]
        rfl
      · rwa [List.length_cons, List.length_cons, Nat.add_right_cancel_iff]

/-- At every place there is a token, which is the end at the end of the text and else takes some of
the text.  Tokens taken one behind the other, with whatever lexical states, flags and scanner
states, are at most as many as the text has bytes, then tile it, and all others are the end. -/
theorem token_tiles (l : Language) (text : Bytes) :
    (∀ site : Site, ((token l text site).1 = endToken l site.lexState ↔
        text.size ≤ site.position.bytes) ∧
      (site.position.bytes < text.size →
        Advances text site.position.bytes (token l text site).1)) ∧
    ∀ asks : List Ask, text.size ≤ asks.length → ∃ tokens ends,
      tokensFrom l text Length.zero asks = tokens ++ ends ∧
      tokens.length ≤ text.size ∧
      Tiling text 0 text.size tokens ∧
      ∀ t ∈ ends, ∃ lexState, t = endToken l lexState := by
  refine ⟨fun site => ⟨⟨fun h => ?_, token_of_size_le⟩, advances_token⟩, fun asks hasks => ?_⟩
  · by_contra hs
    have hpos : 0 < (token l text site).1.size.bytes := (advances_token (Nat.lt_of_not_le hs)).pos
    rw [h] at hpos
    exact absurd hpos (Nat.lt_irrefl 0)
  · obtain ⟨stop, tokens, ends, htokens, htiling, hstop, hends⟩ :=
      tokensFrom_tiling l asks (show Length.zero.bytes ≤ text.size from Nat.zero_le _)
    have hlength : 0 + tokens.length ≤ stop := htiling.length_le
    have hle : stop ≤ text.size := htiling.le_size (Nat.zero_le _)
    obtain rfl : stop = text.size := by omega
    exact ⟨tokens, ends, htokens, by omega, htiling, hends⟩

end Parse

end Glr
