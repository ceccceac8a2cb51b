import Glr.Proofs.Parse.Token
import Mathlib.Data.List.Nodup
import Mathlib.Data.Prod.Lex
import Mathlib.Order.BoundedOrder.Basic

/-!
# Glr.Proofs.Parse.BestMatch

Which rule gives the token at a place.  Of the rules that count there, each with the bytes that
it matches, it is the one of the highest rank,

```
rank  =  (length, precedence, literal before pattern, smaller symbol)
```

read from left to right.  As no two rules have one symbol, no two have one rank, so there is
just one such rule, and the order of the rules has no say in it.
-/

namespace Glr

open Parse

/-! ## Matches -/

/-- What a matcher matches of a text from an offset on, as a number of bytes. -/
inductive Matcher.Matches (text : Bytes) (start : Nat) : Matcher → Nat → Prop where
  | literal {part : Bytes} (h : text.hasAt part start = true) :
      Matches text start (.literal part) part.size
  | pattern {r : Regex} {n : Nat} (h : r.findEnd? text start = some (start + n)) :
      Matches text start (.pattern r) n

theorem Matcher.length?_eq_some_iff {m : Matcher} {text : Bytes} {start n : Nat} :
    m.length? text start = some n ↔ m.Matches text start n ∧ 0 < n := by
  unfold length?
  rw [Option.filter_eq_some_iff, decide_eq_true_eq]
  refine and_congr_left fun hn => ?_
  cases m with
  | literal part =>
    constructor
    · intro h
      simp only [Option.ite_none_right_eq_some, Option.some.injEq] at h
      obtain ⟨hat, rfl⟩ := h
      exact .literal hat
    · rintro ⟨hat⟩
      simp [hat]
  | pattern r =>
    constructor
    · intro h
      obtain ⟨stop, hstop, rfl⟩ := Option.map_eq_some_iff.mp h
      -- a match with text ends behind its start
      have hadd : start + (stop - start) = stop := by omega
      exact .pattern (by rw [hadd]; exact hstop)
    · rintro ⟨⟩
      rename_i h
      simp [h]

/-- A keyword: the word token matches all of it. -/
def Language.IsKeyword (l : Language) (part : Bytes) : Prop :=
  ∃ m, l.wordMatcher? = some m ∧ m.Matches part 0 part.size

namespace Parse

/-! ## Ranks -/

/-- The match of a rule. -/
def Candidate.of (r : LexRule × Matcher) (n : Nat) : Candidate :=
  ⟨r.1.symbol, n, r.1.precedence, r.2.isLiteral⟩

/-- Longer matches come first, then those of a higher precedence, then literals, then smaller
symbols. -/
def Candidate.rank (c : Candidate) : ℕ ×ₗ ℤ ×ₗ Bool ×ₗ ℕᵒᵈ :=
  toLex (c.length, toLex (c.precedence, toLex (c.literal, OrderDual.toDual c.symbol)))

variable {a b c : Candidate}

theorem Candidate.beats_iff : a.beats b = true ↔ b.rank < a.rank := by
  have hliteral (x y : Bool) : x < y ↔ y = true ∧ x = false := by
    cases x <;> cases y <;> decide
  simp only [beats, rank, Prod.Lex.toLex_lt_toLex, OrderDual.toDual_lt_toDual, hliteral,
    Bool.or_eq_true, Bool.and_eq_true, decide_eq_true_eq, beq_iff_eq, Bool.not_eq_true',
    eq_comm (a := b.length), eq_comm (a := b.precedence), eq_comm (a := b.literal)]

theorem Candidate.symbol_eq_of_rank_eq (h : a.rank = b.rank) : a.symbol = b.symbol := by
  simp only [rank, EmbeddingLike.apply_eq_iff_eq, Prod.mk.injEq] at h
  exact h.2.2.2

/-! ## Rules that count -/

/-- What a literal matches is a keyword, and the word token matches more than it. -/
def PartOfWord (l : Language) (text : Bytes) (start : Nat) (m : Matcher) (n : Nat) : Prop :=
  (∃ part, m = .literal part ∧ l.IsKeyword part) ∧
    ∃ word k, l.wordMatcher? = some word ∧ word.Matches text start k ∧ n < k

/-- A rule counts at a place, with the `n` bytes that it matches there. -/
structure Eligible (l : Language) (text : Bytes) (start : Nat) (valid : Option (Array Symbol))
    (afterExtra : Bool) (r : LexRule × Matcher) (n : Nat) : Prop where
  rule : r ∈ l.rules
  /-- It is valid or an extra, unless all rules are admitted. -/
  admitted : ∀ v, valid = some v → r.1.symbol ∈ v ∨ l.isExtra r.1.symbol = true
  found : r.2.Matches text start n
  nonempty : 0 < n
  /-- An immediate token follows no extra. -/
  apart : ¬(r.1.immediate = true ∧ afterExtra = true)
  /-- A keyword is no part of a longer word. -/
  whole : ¬PartOfWord l text start r.2 n

variable {l l' : Language} {text : Bytes} {start n : Nat} {valid : Option (Array Symbol)}
  {afterExtra : Bool} {r : LexRule × Matcher}

theorem isKeyword_iff {part : Bytes} (hpart : 0 < part.size) :
    isKeyword l part = true ↔ l.IsKeyword part := by
  unfold isKeyword Language.IsKeyword
  cases l.wordMatcher? with
  | none => simp
  | some m => simp [Matcher.length?_eq_some_iff, hpart]

/-- A literal matches itself. -/
theorem extract_of_hasAt {part : Bytes} (h : text.hasAt part start = true) (hpart : 0 < part.size) :
    text.extract start (start + part.size) = part := by
  have hat := Bytes.hasAt_iff.mp h
  have hlast := hat (part.size - 1) (by omega)
  rw [Array.getElem?_eq_getElem (show part.size - 1 < part.size by omega)] at hlast
  have hsize := (Array.getElem?_eq_some_iff.mp hlast).1
  apply Array.ext
  · rw [Array.size_extract]
    omega
  · intro i _ hi
    have := hat i hi
    rw [Array.getElem?_eq_getElem hi, Array.getElem?_eq_getElem (by omega)] at this
    simpa using this

theorem partOfWord_iff (hfound : r.2.Matches text start n) (hn : 0 < n) :
    (r.2.isLiteral && (l.wordMatcher?.bind fun m => m.length? text start).any (· > n) &&
      isKeyword l (text.extract start (start + n))) = true ↔ PartOfWord l text start r.2 n := by
  obtain ⟨rule, m⟩ := r
  have hword : (l.wordMatcher?.bind fun m => m.length? text start).any (· > n) = true ↔
      ∃ word k, l.wordMatcher? = some word ∧ word.Matches text start k ∧ n < k := by
    simp only [Option.any_eq_true, Option.bind_eq_some_iff, Matcher.length?_eq_some_iff,
      decide_eq_true_eq]
    constructor
    · rintro ⟨k, ⟨word, hword, hk, -⟩, hlt⟩
      exact ⟨word, k, hword, hk, hlt⟩
    · rintro ⟨word, k, hword, hk, hlt⟩
      exact ⟨k, ⟨word, hword, hk, by omega⟩, hlt⟩
  rw [Bool.and_right_comm, Bool.and_eq_true, hword, PartOfWord]
  refine and_congr_left' ?_
  cases hfound with
  | literal h => simp [Matcher.isLiteral, extract_of_hasAt h hn, isKeyword_iff hn]
  | pattern h => simp [Matcher.isLiteral]

theorem admitted_iff (hvalid : ∀ v, valid = some v → v.toList.Pairwise (· ≤ ·)) {s : Symbol} :
    (valid.any fun v => !SortedArray.contains v s && !l.isExtra s) = false ↔
      ∀ v, valid = some v → s ∈ v ∨ l.isExtra s = true := by
  cases valid with
  | none => simp
  | some v =>
    have := SortedArray.contains_iff (hvalid v rfl) (x := s)
    grind

/-- The matches that are compared are those of the rules that count. -/
theorem candidate?_eq_some_iff (hvalid : ∀ v, valid = some v → v.toList.Pairwise (· ≤ ·))
    (hr : r ∈ l.rules) :
    candidate? l text start valid afterExtra (l.wordMatcher?.bind fun m => m.length? text start)
        r.1 r.2 = some c ↔
      ∃ n, Eligible l text start valid afterExtra r n ∧ c = Candidate.of r n := by
  unfold candidate?
  constructor
  · intro h
    split at h
    · contradiction
    · rename_i hapart
      split at h
      · contradiction
      · rename_i hadmitted
        split at h
        · contradiction
        · rename_i n hfound
          obtain ⟨hfound, hn⟩ := Matcher.length?_eq_some_iff.mp hfound
          split at h
          · contradiction
          · rename_i hwhole
            rw [partOfWord_iff hfound hn] at hwhole
            refine ⟨n, ⟨hr, (admitted_iff hvalid).mp (by simpa using hadmitted), hfound, hn, ?_,
              hwhole⟩, (Option.some.inj h).symm⟩
            simpa using hapart
  · rintro ⟨n, h, rfl⟩
    rw [if_neg (by simpa using h.apart), if_neg (by simp [(admitted_iff hvalid).mpr h.admitted]),
      Matcher.length?_eq_some_iff.mpr ⟨h.found, h.nonempty⟩]
    simp only
    rw [if_neg (by rw [partOfWord_iff h.found h.nonempty]; exact h.whole)]
    rfl

/-! ## The best match -/

/-- No two matches of a rule at a place differ. -/
theorem Eligible.length_eq {k : Nat} (h : Eligible l text start valid afterExtra r n)
    (h' : Eligible l text start valid afterExtra r k) : n = k := by
  have hn := Matcher.length?_eq_some_iff.mpr ⟨h.found, h.nonempty⟩
  have hk := Matcher.length?_eq_some_iff.mpr ⟨h'.found, h'.nonempty⟩
  exact Option.some.inj (hn.symm.trans hk)

theorem mem_candidates_iff (hvalid : ∀ v, valid = some v → v.toList.Pairwise (· ≤ ·)) :
    (c ∈ l.rules.filterMap fun (rule, m) => candidate? l text start valid afterExtra
        (l.wordMatcher?.bind fun m => m.length? text start) rule m) ↔
      ∃ r n, Eligible l text start valid afterExtra r n ∧ c = Candidate.of r n := by
  rw [List.mem_filterMap]
  constructor
  · rintro ⟨r, hr, hc⟩
    obtain ⟨n, h⟩ := (candidate?_eq_some_iff hvalid hr).mp hc
    exact ⟨r, n, h⟩
  · rintro ⟨r, n, h, hc⟩
    exact ⟨r, h.rule, (candidate?_eq_some_iff hvalid h.rule).mpr ⟨n, h, hc⟩⟩

theorem bestMatch?_eq_none_iff (hvalid : ∀ v, valid = some v → v.toList.Pairwise (· ≤ ·)) :
    bestMatch? l text start valid afterExtra = none ↔
      ∀ r n, ¬Eligible l text start valid afterExtra r n := by
  unfold bestMatch?
  rw [firstBest?_eq_none_iff, List.eq_nil_iff_forall_not_mem]
  simp only [mem_candidates_iff hvalid]
  constructor
  · exact fun h r n hr => h _ ⟨r, n, hr, rfl⟩
  · rintro h _ ⟨r, n, hr, -⟩
    exact h r n hr

/-- Two rules with one symbol are one. -/
theorem eq_of_symbol_eq (hdistinct : (l.rules.map fun r => r.1.symbol).Nodup)
    {r' : LexRule × Matcher} (hr : r ∈ l.rules) (hr' : r' ∈ l.rules)
    (h : r.1.symbol = r'.1.symbol) : r = r' :=
  List.inj_on_of_nodup_map hdistinct hr hr' h

/-- The best match is that of the rule that counts and has a higher rank than all others. -/
theorem bestMatch?_eq_some_iff (hdistinct : (l.rules.map fun r => r.1.symbol).Nodup)
    (hvalid : ∀ v, valid = some v → v.toList.Pairwise (· ≤ ·)) :
    bestMatch? l text start valid afterExtra = some c ↔
      ∃ r n, Eligible l text start valid afterExtra r n ∧ c = Candidate.of r n ∧
        ∀ r' k, Eligible l text start valid afterExtra r' k → r' ≠ r →
          (Candidate.of r' k).rank < c.rank := by
  have hhighest {d : Candidate} (hd : bestMatch? l text start valid afterExtra = some d) :
      ∃ r n, Eligible l text start valid afterExtra r n ∧ d = Candidate.of r n ∧
        ∀ r' k, Eligible l text start valid afterExtra r' k → r' ≠ r →
          (Candidate.of r' k).rank < d.rank := by
    obtain ⟨r, n, hr, rfl⟩ := (mem_candidates_iff hvalid).mp (mem_of_firstBest? hd)
    refine ⟨r, n, hr, rfl, fun r' k hr' hne => ?_⟩
    have hle := not_better_of_firstBest?
      (fun x => by simp [← Bool.not_eq_true, Candidate.beats_iff])
      (fun x y z hxy hyz => by
        rw [Candidate.beats_iff] at hxy hyz ⊢
        exact hyz.trans hxy)
      hd (Candidate.of r' k) ((mem_candidates_iff hvalid).mpr ⟨r', k, hr', rfl⟩)
    rw [ne_eq, Candidate.beats_iff, not_lt] at hle
    refine lt_of_le_of_ne hle fun heq => hne ?_
    exact eq_of_symbol_eq hdistinct hr'.rule hr.rule (Candidate.symbol_eq_of_rank_eq heq)
  refine ⟨hhighest, ?_⟩
  rintro ⟨r, n, hr, rfl, hmax⟩
  cases hd : bestMatch? l text start valid afterExtra with
  | none => exact absurd hr ((bestMatch?_eq_none_iff hvalid).mp hd r n)
  | some d =>
    obtain ⟨r', k, hr', rfl, hmax'⟩ := hhighest hd
    by_cases heq : r' = r
    · subst heq
      rw [hr.length_eq hr']
    · exact absurd (hmax r' k hr' heq) (hmax' r n hr (Ne.symm heq)).asymm

/-! ## Any order of the rules -/

theorem matcher?_eq_some_iff (hdistinct : (l.rules.map fun r => r.1.symbol).Nodup) {s : Symbol}
    {m : Matcher} : l.matcher? s = some m ↔ ∃ r ∈ l.rules, r.1.symbol = s ∧ r.2 = m := by
  rw [Language.matcher?, Option.map_eq_some_iff]
  constructor
  · rintro ⟨r, hr, rfl⟩
    exact ⟨r, List.mem_of_find?_eq_some hr, by simpa using List.find?_some hr, rfl⟩
  · rintro ⟨r, hr, rfl, rfl⟩
    cases hfind : l.rules.find? fun x => x.1.symbol == r.1.symbol with
    | none => simpa using List.find?_eq_none.mp hfind r hr
    | some x =>
      have hx : x.1.symbol = r.1.symbol := by simpa using List.find?_some hfind
      exact ⟨x, rfl, by rw [eq_of_symbol_eq hdistinct (List.mem_of_find?_eq_some hfind) hr hx]⟩

variable {rules : List (LexRule × Matcher)}

/-- The word token is found in any order of the rules. -/
theorem wordMatcher?_perm (hdistinct : (l.rules.map fun r => r.1.symbol).Nodup)
    (h : rules.Perm l.rules) : { l with rules : Language }.wordMatcher? = l.wordMatcher? := by
  have hrules : (rules.map fun r => r.1.symbol).Nodup := (h.map _).nodup_iff.mpr hdistinct
  refine congrArg (l.table.word.bind ·) (funext fun s => Option.ext fun m => ?_)
  rw [matcher?_eq_some_iff hdistinct, matcher?_eq_some_iff (l := { l with rules }) hrules]
  simp only [h.mem_iff]

theorem eligible_perm_iff (hdistinct : (l.rules.map fun r => r.1.symbol).Nodup)
    (h : rules.Perm l.rules) :
    Eligible { l with rules } text start valid afterExtra r n ↔
      Eligible l text start valid afterExtra r n := by
  have hword := wordMatcher?_perm hdistinct h
  have hpart (m : Matcher) (n : Nat) :
      PartOfWord { l with rules } text start m n ↔ PartOfWord l text start m n := by
    simp only [PartOfWord, Language.IsKeyword, hword]
  constructor
  · rintro ⟨hrule, hadmitted, hfound, hn, hapart, hwhole⟩
    exact ⟨h.mem_iff.mp hrule, hadmitted, hfound, hn, hapart, (hpart _ _).not.mp hwhole⟩
  · rintro ⟨hrule, hadmitted, hfound, hn, hapart, hwhole⟩
    exact ⟨h.mem_iff.mpr hrule, hadmitted, hfound, hn, hapart, (hpart _ _).not.mpr hwhole⟩

theorem bestMatch?_perm (hdistinct : (l.rules.map fun r => r.1.symbol).Nodup)
    (hvalid : ∀ v, valid = some v → v.toList.Pairwise (· ≤ ·)) (h : rules.Perm l.rules) :
    bestMatch? { l with rules } text start valid afterExtra =
      bestMatch? l text start valid afterExtra := by
  have hrules : (rules.map fun r => r.1.symbol).Nodup := (h.map _).nodup_iff.mpr hdistinct
  refine Option.ext fun c => ?_
  rw [bestMatch?_eq_some_iff hdistinct hvalid,
    bestMatch?_eq_some_iff (l := { l with rules }) hrules hvalid]
  simp only [eligible_perm_iff hdistinct h]

end Parse

/-- The lexer's choice is a maximum.  Where no two rules have one symbol, there is no best match at
a place exactly if no rule counts there; otherwise it is that of the one rule that counts and has a
higher rank than all others that do, whatever the order of the rules. -/
theorem Language.bestMatch?_greatest (l : Language)
    (hdistinct : (l.rules.map fun r => r.1.symbol).Nodup) (text : Bytes) (start : Nat)
    {valid : Option (Array Symbol)} (hvalid : ∀ v, valid = some v → v.toList.Pairwise (· ≤ ·))
    (afterExtra : Bool) :
    (bestMatch? l text start valid afterExtra = none ↔
      ∀ r n, ¬Eligible l text start valid afterExtra r n) ∧
    (∀ c, bestMatch? l text start valid afterExtra = some c ↔
      ∃ r n, Eligible l text start valid afterExtra r n ∧ c = Candidate.of r n ∧
        ∀ r' k, Eligible l text start valid afterExtra r' k → r' ≠ r →
          (Candidate.of r' k).rank < c.rank) ∧
    ∀ rules : List (LexRule × Matcher), rules.Perm l.rules →
      bestMatch? { l with rules } text start valid afterExtra =
        bestMatch? l text start valid afterExtra :=
  ⟨bestMatch?_eq_none_iff hvalid, fun _ => bestMatch?_eq_some_iff hdistinct hvalid,
    fun _ h => bestMatch?_perm hdistinct hvalid h⟩

/-- Some names, before which a keyword stands. -/
def Grammar.words : Grammar :=
  { name := "words", extras := some [], word := some "name" : Grammar }
    |>.addRule "s" (.seq [.string "if", .sym "name"])
    |>.addRule "name" (.pattern "[a-z]+")

set_option maxRecDepth 100000 in
/-- In `iffy` only the name counts, in either order of the two rules; the keyword would split it. -/
theorem Language.bestMatch?_greatest_words :
    ∃ (l : Language) (c : Candidate) (r : LexRule × Matcher),
    Language.ofGrammar 0 .words none = .ok l ∧ (l.rules.map fun r => r.1.symbol).Nodup ∧
    l.rules.length = 2 ∧ c.length = 4 ∧ c.literal = false ∧
    bestMatch? l (Bytes.ofString "iffy") 0 (some #[1, 2]) false = some c ∧
    bestMatch? { l with rules := l.rules.reverse } (Bytes.ofString "iffy") 0 (some #[1, 2]) false =
      some c ∧
    Eligible l (Bytes.ofString "iffy") 0 (some #[1, 2]) false r 4 ∧ c = Candidate.of r 4 := by
  have h : (Language.ofGrammar 0 .words none).toOption.any (fun l =>
      decide (l.rules.map fun r => r.1.symbol).Nodup && l.rules.length == 2 &&
        (bestMatch? l (Bytes.ofString "iffy") 0 (some #[1, 2]) false).any fun c =>
          c.length == 4 && !c.literal) = true := by
    decide +kernel
  obtain ⟨l, hl, h⟩ := exists_ok h
  simp only [Bool.and_eq_true, decide_eq_true_eq, beq_iff_eq, Option.any_eq_true,
    Bool.not_eq_true'] at h
  obtain ⟨⟨hdistinct, htwo⟩, c, hc, hlength, hliteral⟩ := h
  have hvalid : ∀ v, some #[1, 2] = some v → v.toList.Pairwise (· ≤ ·) := by
    rintro _ ⟨⟩
    decide
  obtain ⟨-, hbest, horder⟩ :=
    l.bestMatch?_greatest hdistinct (Bytes.ofString "iffy") 0 hvalid false
  obtain ⟨r, n, hr, rfl, -⟩ := (hbest c).mp hc
  obtain rfl : n = 4 := hlength
  exact ⟨l, _, r, hl, hdistinct, htwo, rfl, hliteral, hc,
    (horder _ l.rules.reverse_perm).trans hc, hr, rfl⟩

end Glr
