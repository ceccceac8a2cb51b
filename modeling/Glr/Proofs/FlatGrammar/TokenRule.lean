import Glr.FlatGrammar.TokenRule
import Glr.Language
import Glr.Proofs.FlatGrammar.Flattened
import Glr.Proofs.Regex.Rendering

/-!
# Glr.Proofs.FlatGrammar.TokenRule

What a token matches whose rule is put together from texts.  Such a rule spells the texts of a
language, and the pattern that it becomes matches these texts and no others.  Of several texts of
the language that a text goes on with, the pattern takes the one that it prefers, which need not be
the longest one; an empty one counts as none.  So

```
length? text start = some n   ⟹   the text goes on with a text of the language of n > 0 bytes
length? text start = none     ⟺   it goes on with none, if the language has no empty text
```
-/

namespace Glr

open Regex (Renders)

/-! ## Languages -/

namespace Rule

mutual

/-- A rule that is put together from texts: sequences, choices of one member at least, and
repetitions. -/
def Composed : Rule → Prop
  | .node k _ c ms =>
    match k with
    | .string | .blank => True
    | .seq => ComposedAll ms
    | .choice => ms ≠ [] ∧ ComposedAll ms
    | .zeroOrMore | .oneOrMore => ComposedContent c
    | _ => False

/-- The wrapped rule is there and put together from texts. -/
def ComposedContent : Option Rule → Prop
  | some r => r.Composed
  | none => False

/-- Rules that are put together from texts. -/
def ComposedAll : List Rule → Prop
  | [] => True
  | r :: rs => r.Composed ∧ ComposedAll rs

end

mutual

/-- The language of a rule that is put together from texts. -/
def Spells : Rule → List UInt8 → Prop
  | .node k a c ms =>
    match k with
    | .string => fun w => ∃ s, (Rule.node k a c ms).text? = some s ∧ w = (Bytes.ofString s).toList
    | .blank => fun w => w = []
    | .seq => SpellsAll ms
    | .choice => SpellsAny ms
    | .zeroOrMore => fun w => ∃ ws : List (List UInt8), w = ws.flatten ∧ ∀ v ∈ ws, SpellsContent c v
    | .oneOrMore => fun w =>
      ∃ ws : List (List UInt8), ws ≠ [] ∧ w = ws.flatten ∧ ∀ v ∈ ws, SpellsContent c v
    | _ => fun _ => False

/-- The language of the wrapped rule. -/
def SpellsContent : Option Rule → List UInt8 → Prop
  | some r => r.Spells
  | none => fun _ => False

/-- The texts of some rules one after another. -/
def SpellsAll : List Rule → List UInt8 → Prop
  | [] => fun w => w = []
  | r :: rs => fun w => ∃ u v, w = u ++ v ∧ r.Spells u ∧ SpellsAll rs v

/-- The texts of any of some rules. -/
def SpellsAny : List Rule → List UInt8 → Prop
  | [] => fun _ => False
  | r :: rs => fun w => r.Spells w ∨ SpellsAny rs w

end

end Rule

/-! ## Patterns of rules -/

theorem exists_of_map_eq_ok {α β ε : Type} {f : α → β} {x : Except ε α} {y : β}
    (h : x.map f = .ok y) : ∃ a, x = .ok a ∧ f a = y := by
  cases x with
  | error e => contradiction
  | ok a => exact ⟨a, rfl, Except.ok.inj h⟩

theorem toList_join (sources : List String) :
    (String.join sources).toList = (sources.map String.toList).flatten := by
  induction sources with
  | nil => rfl
  | cons s sources ih => simp [ih]

namespace Rule

theorem text?_of_requireText {r : Rule} {s : String} (h : r.requireText = .ok s) :
    r.text? = some s := by
  unfold requireText at h
  split at h
  · rename_i s' hs'
    rw [hs', Except.ok.inj h]
  · contradiction

theorem eq_nil_of_regexList {precedence precedence' : Int} {ms : List Rule}
    (h : regexList precedence ms = .ok ([], precedence')) : ms = [] := by
  cases ms with
  | nil => rfl
  | cons r rs =>
    rw [regexList] at h
    split at h
    · contradiction
    · obtain ⟨_, -, heq⟩ := exists_of_map_eq_ok h
      exact absurd (Prod.mk.inj heq).1 (List.cons_ne_nil _ _)

mutual

/-- The pattern of a rule renders its language. -/
theorem renders_toRegex {precedence precedence' : Int} {source : String} :
    ∀ {r : Rule}, r.Composed → r.toRegex precedence = .ok (source, precedence') →
      Renders source.toList r.Spells
  | .node k a c ms, hr, h => by
    cases k
    case string =>
      obtain ⟨s, hs, heq⟩ := exists_of_map_eq_ok h
      obtain ⟨rfl, -⟩ := Prod.mk.inj heq
      refine (Regex.renders_quote s).congr fun w => ?_
      simp [Spells, text?_of_requireText hs]
    case blank =>
      obtain ⟨rfl, -⟩ := Prod.mk.inj (Except.ok.inj h)
      exact Regex.renders_nil
    case seq =>
      obtain ⟨⟨sources, _⟩, hs, heq⟩ := exists_of_map_eq_ok h
      obtain ⟨rfl, -⟩ := Prod.mk.inj heq
      rw [toList_join]
      exact (renders_regexList hr hs).1
    case choice =>
      obtain ⟨⟨sources, _⟩, hs, heq⟩ := exists_of_map_eq_ok h
      obtain ⟨rfl, -⟩ := Prod.mk.inj heq
      obtain ⟨-, options, hsources, hrenders, hspells⟩ := renders_regexList hr.2 hs
      have hne : options ≠ [] := by
        rintro rfl
        obtain rfl : sources = [] := List.map_eq_nil_iff.mp hsources.symm
        exact hr.1 (eq_nil_of_regexList hs)
      have hgroup := (Regex.renders_group hrenders hne).congr hspells
      rw [hsources] at hgroup
      have hsource : ("(?:" ++ String.intercalate "|" sources ++ ")").toList =
          '(' :: '?' :: ':' :: (List.intercalate ['|'] (sources.map String.toList) ++ [')']) := by
        simp [String.toList_append]
      rw [hsource]
      exact hgroup
    case zeroOrMore =>
      obtain ⟨⟨source, _⟩, hs, heq⟩ := exists_of_map_eq_ok h
      obtain ⟨rfl, -⟩ := Prod.mk.inj heq
      have hsource : ("(?:" ++ source ++ ")*").toList =
          '(' :: '?' :: ':' :: (source.toList ++ [')', '*']) := by
        simp [String.toList_append]
      rw [hsource]
      exact ((renders_regexContent hr hs).repeated (.inl ⟨rfl, rfl⟩)).congr fun w => by
        simp [Spells]
    case oneOrMore =>
      obtain ⟨⟨source, _⟩, hs, heq⟩ := exists_of_map_eq_ok h
      obtain ⟨rfl, -⟩ := Prod.mk.inj heq
      have hsource : ("(?:" ++ source ++ ")+").toList =
          '(' :: '?' :: ':' :: (source.toList ++ [')', '+']) := by
        simp [String.toList_append]
      rw [hsource]
      exact ((renders_regexContent hr hs).repeated (.inr ⟨rfl, rfl⟩)).congr fun w => by
        simp [Spells, Nat.one_le_iff_ne_zero]
    all_goals contradiction

theorem renders_regexContent {precedence precedence' : Int} {source : String} {k : RuleKind} :
    ∀ {c : Option Rule}, ComposedContent c →
      regexContent precedence k c = .ok (source, precedence') →
        Renders source.toList (SpellsContent c)
  | some r, hr, h => renders_toRegex (r := r) hr h
  | none, hr, _ => hr.elim

/-- The patterns of rules render their languages, one after another and to choose from. -/
theorem renders_regexList {precedence precedence' : Int} {sources : List String} :
    ∀ {ms : List Rule}, ComposedAll ms → regexList precedence ms = .ok (sources, precedence') →
      Renders (sources.map String.toList).flatten (SpellsAll ms) ∧
        ∃ options : List (List Char × (List UInt8 → Prop)),
          options.map Prod.fst = sources.map String.toList ∧ (∀ o ∈ options, Renders o.1 o.2) ∧
            ∀ w, (∃ o ∈ options, o.2 w) ↔ SpellsAny ms w
  | [], _, h => by
    obtain ⟨rfl, -⟩ := Prod.mk.inj (Except.ok.inj h)
    exact ⟨Regex.renders_nil, [], rfl, by simp, by simp [SpellsAny]⟩
  | r :: rs, hr, h => by
    rw [regexList] at h
    split at h
    · contradiction
    rename_i source precedence' hsource
    obtain ⟨⟨sources, _⟩, hs, heq⟩ := exists_of_map_eq_ok h
    obtain ⟨rfl, -⟩ := Prod.mk.inj heq
    have hfirst := renders_toRegex hr.1 hsource
    obtain ⟨hrest, options, hoptions, hrenders, hspells⟩ := renders_regexList hr.2 hs
    refine ⟨hfirst.append hrest, (source.toList, r.Spells) :: options, ?_, ?_, fun w => ?_⟩
    · simp [hoptions]
    · simpa using ⟨hfirst, fun a b hab => hrenders (a, b) hab⟩
    · simp [SpellsAny, ← hspells]

end

end Rule

/-! ## Tokens -/

namespace Matcher

variable {m : Matcher} {L : List UInt8 → Prop} {text : Bytes} {start n : Nat}

/-- A matcher that recognizes a language: what it finds is one of its texts, and it finds one if
there is one, unless the empty one stands in the way. -/
structure Recognizes (m : Matcher) (L : List UInt8 → Prop) : Prop where
  found : ∀ {text : Bytes} {start n : Nat}, m.length? text start = some n →
    0 < n ∧ ∃ w, L w ∧ w <+: text.toList.drop start ∧ w.length = n
  missed : ∀ {text : Bytes} {start : Nat}, m.length? text start = none → ¬L [] →
    ∀ w, L w → ¬w <+: text.toList.drop start

theorem Recognizes.congr {M : List UInt8 → Prop} (h : m.Recognizes L) (hLM : ∀ w, L w ↔ M w) :
    m.Recognizes M := by
  rwa [← show L = M from funext fun w => propext (hLM w)]

theorem hasAt_iff_prefix {part : Bytes} :
    text.hasAt part start = true ↔ part.toList <+: text.toList.drop start := by
  rw [Bytes.hasAt_iff, List.prefix_iff_getElem?]
  simp only [List.getElem?_drop, Array.getElem?_toList, Array.length_toList, Array.getElem_toList]
  refine forall_congr' fun i => forall_congr' fun hi => ?_
  rw [Array.getElem?_eq_getElem hi]

theorem length?_literal (part : Bytes) : (literal part).length? text start =
    if part ≠ #[] ∧ part.toList <+: text.toList.drop start then some part.size else none := by
  rw [length?]
  simp only [← hasAt_iff_prefix]
  by_cases hat : text.hasAt part start = true <;> simp [hat, Option.filter_some, Array.size_pos_iff]

theorem recognizes_literal (part : Bytes) :
    Recognizes (.literal part) fun w => w = part.toList where
  found h := by
    rw [length?_literal] at h
    split_ifs at h with hpart
    obtain rfl := Option.some.inj h
    exact ⟨Array.size_pos_iff.mpr hpart.1, _, rfl, hpart.2, Array.length_toList⟩
  missed h hempty := by
    rintro w rfl hstands
    rw [length?_literal] at h
    split_ifs at h with hpart
    refine hpart ⟨fun hnil => hempty ?_, hstands⟩
    rw [hnil]

theorem recognizes_pattern {source : String} {r : Regex} (h : Renders source.toList L)
    (hr : Regex.compileToken source = .ok r) : Recognizes (.pattern r) L := by
  obtain ⟨hpinned, node, hprogram, hspans⟩ := Regex.compileToken_spec h hr
  have hfind (text : Bytes) (start : Nat) :
      r.findEnd? text start = r.endFrom? text start start := by
    rw [Regex.findEnd?, if_pos hpinned, Regex.matchEnd?]
  constructor
  · intro text start n hn
    obtain ⟨hfound, hpos⟩ := Option.filter_eq_some_iff.mp hn
    obtain ⟨stop, hstop, rfl⟩ := Option.map_eq_some_iff.mp hfound
    rw [hfind] at hstop
    obtain ⟨w, hw, hread⟩ := (hspans text start stop).mp (Regex.spans_of_endFrom? hprogram hstop)
    obtain ⟨hstands, rfl⟩ := Bytes.reads_iff.mp hread
    exact ⟨by simpa using hpos, w, hw, hstands, by omega⟩
  · intro text start hnone hempty w hw hstands
    have hlength : w.length ≠ 0 := fun h => hempty (List.length_eq_zero_iff.mp h ▸ hw)
    have hread : text.Reads (w.map UInt8.toNat) start (start + w.length) :=
      Bytes.reads_iff.mpr ⟨hstands, rfl⟩
    have hstart : start ≤ text.size := by
      have hle := hstands.length_le
      rw [List.length_drop] at hle
      have hsize : text.toList.length = text.size := Array.length_toList
      omega
    rw [length?, hfind] at hnone
    cases hend : r.endFrom? text start start with
    | none =>
      exact Regex.not_spans_of_endFrom? hprogram hstart hend _
        ((hspans text start _).mpr ⟨w, hw, hread⟩)
    | some stop =>
      -- what is found is empty
      obtain ⟨v, hv, hread⟩ :=
        (hspans text start stop).mp (Regex.spans_of_endFrom? hprogram hend)
      obtain ⟨-, rfl⟩ := Bytes.reads_iff.mp hread
      have hzero : v.length = 0 := by simpa [hend, Option.filter_some] using hnone
      exact hempty (List.length_eq_zero_iff.mp hzero ▸ hv)

/-- Where the text goes on with one text of the language only, that one is matched. -/
theorem Recognizes.eq_some_iff (h : m.Recognizes L)
    (hunique : ∀ v w, L v → L w → v <+: text.toList.drop start → w <+: text.toList.drop start →
      v = w) :
    m.length? text start = some n ↔
      0 < n ∧ ∃ w, L w ∧ w <+: text.toList.drop start ∧ w.length = n := by
  refine ⟨h.found, ?_⟩
  rintro ⟨hpos, w, hw, hstands, rfl⟩
  cases hlength : m.length? text start with
  | some n =>
    obtain ⟨-, v, hv, hstands', rfl⟩ := h.found hlength
    rw [hunique v w hv hw hstands' hstands]
  | none =>
    refine absurd hstands (h.missed hlength (fun hempty => ?_) w hw)
    obtain rfl := hunique [] w hempty hw List.nil_prefix hstands
    exact absurd hpos (lt_irrefl 0)

theorem Recognizes.eq_none_iff (h : m.Recognizes L) (hempty : ¬L []) :
    m.length? text start = none ↔ ∀ w, L w → ¬w <+: text.toList.drop start := by
  refine ⟨fun hnone => h.missed hnone hempty, fun hall => ?_⟩
  rw [Option.eq_none_iff_forall_ne_some]
  intro n hn
  obtain ⟨-, w, hw, hstands, -⟩ := h.found hn
  exact hall w hw hstands

end Matcher

namespace Language

/-- The matcher of a token whose rule is put together from texts recognizes its language. -/
theorem recognizes_composed {r : Rule} (hr : r.Composed) {a : RuleAttributes} {ms : List Rule}
    {key : TokenKey} (hkey : (Rule.node .token a (some r) ms).tokenKey = .ok key) {t : Table}
    {rule : LexRule} (hrule : rule.matcher = key.matcher) {m : Matcher}
    (hm : compileRule t rule = .ok (rule, m)) : m.Recognizes r.Spells := by
  obtain ⟨⟨matcher, precedence⟩, hmatcher, rfl⟩ := exists_of_map_eq_ok hkey
  have hmatcher : r.toMatcher 0 = .ok (matcher, precedence) := hmatcher
  unfold compileRule at hm
  rw [hrule] at hm
  obtain ⟨k, a', c', ms'⟩ := r
  by_cases hk : k = .string
  · subst hk
    obtain ⟨s, hs, heq⟩ := exists_of_map_eq_ok hmatcher
    obtain ⟨rfl, -⟩ := Prod.mk.inj heq
    obtain ⟨-, rfl⟩ := Prod.mk.inj (Except.ok.inj hm)
    refine (Matcher.recognizes_literal _).congr fun w => ?_
    simp [Rule.Spells, Rule.text?_of_requireText hs]
  · have hregex : ∃ source, matcher = .pattern source ∧
        (Rule.node k a' c' ms').toRegex 0 = .ok (source, precedence) := by
      have hpattern : ((Rule.node k a' c' ms').toRegex 0).map
          (fun p => (TokenMatcher.pattern p.1, p.2)) = .ok (matcher, precedence) := by
        cases k
        all_goals first | contradiction | exact hmatcher
      obtain ⟨⟨source, precedence⟩, hs, heq⟩ := exists_of_map_eq_ok hpattern
      obtain ⟨rfl, rfl⟩ := Prod.mk.inj heq
      exact ⟨source, rfl, hs⟩
    obtain ⟨source, rfl, hsource⟩ := hregex
    dsimp only at hm
    split at hm
    · rename_i r hcompile
      obtain ⟨-, rfl⟩ := Prod.mk.inj (Except.ok.inj hm)
      exact Matcher.recognizes_pattern (Rule.renders_toRegex hr hsource) hcompile
    · contradiction

/-- The length of the match of a token whose rule is put together from texts.  It is that of a
text of the language that the text goes on with.  None is found just if there is none, unless the
language has an empty text; and where the text goes on with one text of the language only, that one
is found. -/
theorem length?_composed {r : Rule} (hr : r.Composed) {a : RuleAttributes} {ms : List Rule}
    {key : TokenKey} (hkey : (Rule.node .token a (some r) ms).tokenKey = .ok key) {t : Table}
    {rule : LexRule} (hrule : rule.matcher = key.matcher) {m : Matcher}
    (hm : compileRule t rule = .ok (rule, m)) (text : Bytes) (start : Nat) :
    (∀ n, m.length? text start = some n →
        0 < n ∧ ∃ w, r.Spells w ∧ w <+: text.toList.drop start ∧ w.length = n) ∧
      (¬r.Spells [] → (m.length? text start = none ↔
        ∀ w, r.Spells w → ¬w <+: text.toList.drop start)) ∧
      ((∀ v w, r.Spells v → r.Spells w → v <+: text.toList.drop start →
          w <+: text.toList.drop start → v = w) →
        ∀ n, m.length? text start = some n ↔
          0 < n ∧ ∃ w, r.Spells w ∧ w <+: text.toList.drop start ∧ w.length = n) := by
  have hrecognizes := recognizes_composed hr hkey hrule hm
  exact ⟨fun n => hrecognizes.found, hrecognizes.eq_none_iff,
    fun hunique n => hrecognizes.eq_some_iff hunique⟩

/-- Of two texts that the text goes on with, the one of the first option is found, though the other
one is longer. -/
example : (Regex.compileToken "(?:a|ab)").toOption.map (fun r =>
    (Matcher.pattern r).length? (Bytes.ofString "abc") 0) = some (some 1) := by decide +kernel

/-- Letters between two others. -/
def letters : Rule := .seq [.string "a", .many (.string "b"), .string "c"]

theorem spells_letters_iff {w : List UInt8} :
    letters.Spells w ↔ ∃ n, w = 97 :: (List.replicate n 98 ++ [99]) := by
  have hletter (s : String) {b : UInt8} (hs : (Bytes.ofString s).toList = [b]) (v : List UInt8) :
      (Rule.string s).Spells v ↔ v = [b] := by
    simp [Rule.Spells, Rule.string, Rule.bare, Rule.text?, Rule.attributes, hs]
  have ha := hletter "a" (b := 97) (by decide +kernel)
  have hb := hletter "b" (b := 98) (by decide +kernel)
  have hc := hletter "c" (b := 99) (by decide +kernel)
  have hmany (v : List UInt8) :
      (Rule.many (.string "b")).Spells v ↔ ∃ n, v = List.replicate n 98 := by
    simp only [Rule.many, Rule.wrap, Rule.Spells, Rule.SpellsContent, hb]
    constructor
    · rintro ⟨ws, rfl, hws⟩
      rw [List.eq_replicate_iff.mpr ⟨rfl, hws⟩]
      exact ⟨ws.length, by simp⟩
    · rintro ⟨n, rfl⟩
      exact ⟨List.replicate n [98], by simp, fun v hv => List.eq_of_mem_replicate hv⟩
  simp only [letters, Rule.seq, Rule.Spells, Rule.SpellsAll, ha, hmany, hc]
  constructor
  · rintro ⟨_, _, rfl, rfl, _, _, rfl, ⟨n, rfl⟩, _, _, rfl, rfl, rfl⟩
    exact ⟨n, by simp⟩
  · rintro ⟨n, rfl⟩
    exact ⟨[97], _, rfl, rfl, _, [99], rfl, ⟨n, rfl⟩, [99], [], rfl, rfl, rfl⟩

theorem exists_compileToken_letters : ∃ r, Regex.compileToken "a(?:b)*c" = .ok r := by
  have h : (Regex.compileToken "a(?:b)*c").toOption.any (fun _ => true) = true := by decide +kernel
  obtain ⟨r, hr, -⟩ := exists_ok h
  exact ⟨r, hr⟩

/-- The letters are found in front of another one. -/
theorem length?_composed_letters : ∃ m, compileRule default ⟨1, .pattern "a(?:b)*c", 0, false⟩ =
    .ok (⟨1, .pattern "a(?:b)*c", 0, false⟩, m) ∧
      m.length? (Bytes.ofString "abbcc") 0 = some 4 := by
  obtain ⟨r, hr⟩ := exists_compileToken_letters
  have hm : compileRule default ⟨1, .pattern "a(?:b)*c", 0, false⟩ =
      .ok (⟨1, .pattern "a(?:b)*c", 0, false⟩, .pattern r) := by
    simp only [compileRule, hr]
  have hkey : (Rule.token letters).tokenKey = .ok ⟨.pattern "a(?:b)*c", 0, false⟩ := by
    decide +kernel
  have htext : (Bytes.ofString "abbcc").toList.drop 0 = [97, 98, 98, 99, 99] := by decide +kernel
  have honly {w : List UInt8} (hw : letters.Spells w) (h : w <+: [97, 98, 98, 99, 99]) :
      w = [97, 98, 98, 99] := by
    obtain ⟨n, rfl⟩ := spells_letters_iff.mp hw
    rcases n with _ | _ | _ | n <;> simp [List.replicate_succ] at h ⊢
  refine ⟨_, hm, ((length?_composed (r := letters) ?_ hkey rfl hm _ _).2.2 ?_ 4).mpr ?_⟩
  · simp [letters, Rule.seq, Rule.string, Rule.bare, Rule.many, Rule.wrap, Rule.Composed,
      Rule.ComposedAll, Rule.ComposedContent]
  · rw [htext]
    intro v w hv hw hv' hw'
    rw [honly hv hv', honly hw hw']
  · rw [htext]
    exact ⟨by decide, _, spells_letters_iff.mpr ⟨2, rfl⟩, by decide, rfl⟩

end Language

end Glr
