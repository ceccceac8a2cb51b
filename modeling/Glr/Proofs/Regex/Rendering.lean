import Glr.Proofs.Regex.Normal
import Glr.Proofs.Text.Buffer
import Glr.Regex.Parser
import Mathlib.Tactic.SplitIfs

/-!
# Glr.Proofs.Regex.Rendering

Patterns that are put together from texts.  A source yields some parts if the reader, wherever it
stands, comes to the end of the source with these parts added to its sequence.  It renders a
language if it is read as an expression that matches the texts of the language and no others:

```
quote s         yields  the characters of s            renders  s
u v             yields  the parts of u, then of v      renders  a text of u and one of v
(?:u|…|v)       yields  one alternation                renders  a text of any of them
(?:u)*, (?:u)+  yield   one repetition                 render   some texts of u
```

Nothing that is put behind a source changes what it yields, but for a question mark: that makes a
repetition lazy.

With the source in a group at the start of the text, as a token has it, the end of a match that is
found is the end of a text of the language, and one is found if the text goes on with one.
-/

namespace Glr.Regex.Parse

/-! ## From state to state -/

/-- The reader gets from one state and what is left of the pattern to others. -/
def Reaches (s : State) (cs : List Char) (s' : State) (cs' : List Char) : Prop :=
  ∀ fuel, cs.length < fuel → ∃ fuel', cs'.length < fuel' ∧ run fuel s cs = run fuel' s' cs'

variable {s s' s'' : State} {c : Char} {cs cs' cs'' rest source source' : List Char}
  {parts parts' : List (Node × Nat)} {n : Node} {ns ns' : List Node}

theorem Reaches.refl (s : State) (cs : List Char) : Reaches s cs s cs :=
  fun fuel h => ⟨fuel, h, rfl⟩

theorem Reaches.trans (h : Reaches s cs s' cs') (h' : Reaches s' cs' s'' cs'') :
    Reaches s cs s'' cs'' := fun fuel hfuel => by
  obtain ⟨fuel', hfuel', heq⟩ := h fuel hfuel
  obtain ⟨fuel'', hfuel'', heq'⟩ := h' fuel' hfuel'
  exact ⟨fuel'', hfuel'', heq.trans heq'⟩

theorem skip_default (cs : List Char) : skip {} cs = cs := by
  cases cs <;> simp [skip, skipBlanks]

theorem reaches_step (hs : s.flags = {}) (h : step s c cs = .ok (s', cs'))
    (hle : cs'.length ≤ cs.length) : Reaches s (c :: cs) s' cs' := by
  intro fuel hfuel
  rw [List.length_cons] at hfuel
  obtain ⟨fuel, rfl⟩ : ∃ k, fuel = k + 1 := ⟨fuel - 1, by omega⟩
  exact ⟨fuel, by omega, by simp only [run, hs, skip_default, h]⟩

/-- A state with more parts in its sequence. -/
def after (s : State) (parts : List (Node × Nat)) : State :=
  { s with items := (parts.map fun p => .node p.1 p.2).reverse ++ s.items }

@[simp]
theorem after_flags (s : State) (parts : List (Node × Nat)) : (after s parts).flags = s.flags := rfl

theorem after_append : after s (parts ++ parts') = after (after s parts) parts' := by
  simp [after]

/-! ## What a source yields -/

/-- A source that is read as some parts of a sequence, however deeply they are nested. -/
structure Yields (source : List Char) (ns : List Node) : Prop where
  unmarked : source.head? ≠ some '?'
  reaches : ∀ (s : State) (rest : List Char), s.flags = {} → rest.head? ≠ some '?' →
    ∃ parts, parts.map Prod.fst = ns ∧ Reaches s (source ++ rest) (after s parts) rest

theorem yields_nil : Yields [] [] := ⟨by simp, fun s rest _ _ => ⟨[], rfl, .refl s rest⟩⟩

theorem head?_append_ne (h : source.head? ≠ some '?') (hrest : rest.head? ≠ some '?') :
    (source ++ rest).head? ≠ some '?' := by
  cases source with
  | nil => exact hrest
  | cons c source => exact h

theorem Yields.append (h : Yields source ns) (h' : Yields source' ns') :
    Yields (source ++ source') (ns ++ ns') := by
  refine ⟨head?_append_ne h.unmarked h'.unmarked, fun s rest hs hrest => ?_⟩
  obtain ⟨parts, hparts, hreaches⟩ :=
    h.reaches s (source' ++ rest) hs (head?_append_ne h'.unmarked hrest)
  obtain ⟨parts', hparts', hreaches'⟩ := h'.reaches (after s parts) rest hs hrest
  refine ⟨parts ++ parts', by rw [List.map_append, hparts, hparts'], ?_⟩
  rw [List.append_assoc, after_append]
  exact hreaches.trans hreaches'

/-! ### Quoted text -/

theorem escape_of_isMeta (h : isMeta c = true) :
    escape {} (c :: rest) = .ok (.char c.toNat false, rest) := by
  have hmem : c ∈ ['\\', '.', '+', '*', '?', '(', ')', '|', '[', ']', '\x7b', '\x7d', '^', '$', '#',
      '&', '-', '~'] := by
    simpa [isMeta] using h
  simp only [List.mem_cons, List.not_mem_nil, or_false] at hmem
  rcases hmem with rfl | rfl | rfl | rfl | rfl | rfl | rfl | rfl | rfl | rfl | rfl | rfl | rfl |
    rfl | rfl | rfl | rfl | rfl <;> rfl

/-- What a quoted character is read as. -/
def quoted (c : Char) : Node := .literal (Utf8.encode c.toNat)

theorem ofChars_singleton (c : Nat) : Node.ofChars (.singleton c) = .literal (Utf8.encode c) := by
  rw [Node.ofChars, Unicode.CharSet.single?_singleton]
  rfl

theorem push_literal (hs : s.flags = {}) (c : Char) :
    push s (literal s.flags c.toNat false) 0 = after s [(quoted c, 0)] := by
  rw [hs, literal, foldIf, quoted]
  simp only [if_true, Bool.false_eq_true, if_false, ofChars_singleton]
  rfl

theorem step_of_not_isMeta (hs : s.flags = {}) (h : isMeta c = false) :
    step s c rest = .ok (after s [(quoted c, 0)], rest) := by
  have hne : ∀ d, isMeta d = true → c ≠ d := by
    rintro d hd rfl
    rw [h] at hd
    contradiction
  have hsingle : single s c = literal s.flags c.toNat false := by
    rw [single, if_neg (hne _ (by decide)), if_neg (hne _ (by decide)), if_neg (hne _ (by decide))]
  unfold step
  split
  dsimp only
  split
  all_goals first | exact absurd rfl (hne _ (by decide)) | skip
  rw [hsingle, push_literal hs]

theorem step_backslash (hs : s.flags = {}) (h : isMeta c = true) :
    step s '\\' (c :: rest) = .ok (after s [(quoted c, 0)], rest) := by
  have hescape : escape s.flags (c :: rest) = .ok (.char c.toNat false, rest) := by
    rw [hs, escape_of_isMeta h]
  simp only [step, hescape, escaped, push_literal hs]

theorem yields_quotedChar (c : Char) :
    Yields (if isMeta c then ['\\', c] else [c]) [quoted c] := by
  cases h : isMeta c with
  | true =>
    exact ⟨by simp, fun s rest hs _ =>
      ⟨_, rfl, reaches_step hs (step_backslash hs h) (Nat.le_succ _)⟩⟩
  | false =>
    refine ⟨?_, fun s rest hs _ =>
      ⟨_, rfl, reaches_step hs (step_of_not_isMeta hs h) (Nat.le_refl _)⟩⟩
    rintro ⟨⟩
    contradiction

/-- A text that is quoted yields its characters. -/
theorem yields_quote (text : String) :
    Yields (quote text).toList (text.toList.map quoted) := by
  rw [quote, String.toList_ofList]
  induction text.toList with
  | nil => exact yields_nil
  | cons c cs ih =>
    rw [List.flatMap_cons, List.map_cons]
    exact (yields_quotedChar c).append ih

/-! ### Groups -/

theorem sequence_fst (parts : List (Node × Nat)) :
    (sequence (parts.map fun p => .node p.1 p.2).reverse).1 =
      Node.sequence (parts.map Prod.fst) := by
  simp [sequence, List.filterMap_map]

/-- The options of a group that is open are read up to its end. -/
theorem reaches_close {options : List (List Char × List Node)}
    (h : ∀ o ∈ options, Yields o.1 o.2) (hne : options ≠ []) {t : State} (ht : t.flags = {})
    (hitems : t.items = []) (rest : List Char) :
    ∃ (alternatives : List (Node × Nat)) (items : List Item),
      (alternation { t with alternatives, items }).1 =
        Node.alternation (t.alternatives.reverse.map Prod.fst ++
          options.map fun o => Node.sequence o.2) ∧
      Reaches t (List.intercalate ['|'] (options.map Prod.fst) ++ ')' :: rest)
        { t with alternatives, items } (')' :: rest) := by
  induction options generalizing t with
  | nil => contradiction
  | cons o options ih =>
    obtain ⟨source, ns⟩ := o
    have ho : Yields source ns := h _ List.mem_cons_self
    cases options with
    | nil =>
      obtain ⟨parts, rfl, hreaches⟩ := ho.reaches t (')' :: rest) ht (by simp)
      refine ⟨t.alternatives, (after t parts).items, ?_, ?_⟩
      · simp [alternation, after, hitems, sequence_fst]
      · rw [List.map_singleton, List.intercalate_singleton]
        exact hreaches
    | cons o' options =>
      -- the bar puts the option away
      obtain ⟨parts, rfl, hreaches⟩ := ho.reaches t
        ('|' :: (List.intercalate ['|'] ((o' :: options).map Prod.fst) ++ ')' :: rest)) ht (by simp)
      obtain ⟨alternatives, items, halternation, hclose⟩ :=
        ih (fun o ho => h o (List.mem_cons_of_mem _ ho)) (by simp) (t := { t with
          alternatives := sequence (after t parts).items :: t.alternatives }) ht hitems
      refine ⟨alternatives, items, ?_, ?_⟩
      · rw [halternation]
        simp [after, hitems, sequence_fst]
      · rw [List.map_cons, List.map_cons, List.intercalate_cons_cons, List.append_assoc,
          List.append_assoc]
        refine hreaches.trans (.trans ?_ hclose)
        refine reaches_step ht (Eq.trans rfl ?_) (Nat.le_refl _)
        rw [hitems]
        rfl

theorem step_open (hs : s.flags = {}) (cs : List Char) :
    step s '(' ('?' :: ':' :: cs) = .ok (openGroup s none {}, cs) := by
  simp only [step, group, hs, skip_default]
  rfl

/-- A group yields the alternation of its options. -/
theorem yields_group (options : List (List Char × List Node))
    (h : ∀ o ∈ options, Yields o.1 o.2) (hne : options ≠ []) :
    Yields ('(' :: '?' :: ':' :: (List.intercalate ['|'] (options.map Prod.fst) ++ [')']))
      [Node.alternation (options.map fun o => Node.sequence o.2)] := by
  refine ⟨by simp, fun s rest hs _ => ?_⟩
  obtain ⟨alternatives, items, halternation, hclose⟩ :=
    reaches_close h hne (t := openGroup s none {}) rfl rfl rest
  obtain ⟨depth, hdepth⟩ : ∃ depth, alternation { openGroup s none {} with alternatives, items } =
      (Node.alternation (options.map fun o => Node.sequence o.2), depth) :=
    ⟨_, Prod.ext halternation rfl⟩
  refine ⟨[(_, depth + 1)], rfl, ?_⟩
  rw [List.cons_append, List.cons_append, List.cons_append, List.append_assoc]
  refine (reaches_step hs (step_open hs _) (by simp; omega)).trans (hclose.trans ?_)
  refine reaches_step rfl ?_ (Nat.le_refl _)
  simp only [step, closeGroup, hdepth]
  rfl

/-! ### Repetition -/

theorem lazyMark_eq (h : rest.head? ≠ some '?') : lazyMark rest = (true, rest) := by
  unfold lazyMark
  split
  · simp at h
  · rfl

/-- A mark that repeats the part before it, `least` times or more. -/
def Repeats (mark : Char) (least : Nat) : Prop := mark = '*' ∧ least = 0 ∨ mark = '+' ∧ least = 1

theorem step_mark {mark : Char} {least depth : Nat} (hmark : Repeats mark least)
    (hs : s.flags = {}) (hrest : rest.head? ≠ some '?') :
    step (after s [(n, depth)]) mark rest =
      .ok (after s [(n.repeated least none true, depth + 1)], rest) := by
  have hquantify : quantify (after s [(n, depth)]) least none true =
      .ok (after s [(n.repeated least none true, depth + 1)]) := by
    obtain ⟨flags, alternatives, items, stack, groups, names⟩ := s
    obtain rfl : flags = {} := hs
    rfl
  rcases hmark with ⟨rfl, rfl⟩ | ⟨rfl, rfl⟩ <;>
    · simp only [step, lazyMark_eq hrest, hquantify]
      rfl

/-- What is repeated at will, or once at least. -/
theorem Yields.repeated (h : Yields source [n]) {mark : Char} {least : Nat}
    (hmark : Repeats mark least) : Yields (source ++ [mark]) [n.repeated least none true] := by
  have hne : mark ≠ '?' := by rcases hmark with ⟨rfl, -⟩ | ⟨rfl, -⟩ <;> decide
  refine ⟨head?_append_ne h.unmarked (by simpa using hne), fun s rest hs hrest => ?_⟩
  obtain ⟨parts, hparts, hreaches⟩ := h.reaches s (mark :: rest) hs (by simpa using hne)
  obtain ⟨⟨m, depth⟩, rfl⟩ : ∃ p, parts = [p] := by
    rw [← List.length_eq_one_iff, ← List.length_map Prod.fst, hparts]
    rfl
  obtain rfl : m = n := by simpa using hparts
  refine ⟨[(_, depth + 1)], rfl, ?_⟩
  rw [List.append_assoc]
  exact hreaches.trans (reaches_step hs (step_mark hmark hs hrest) (Nat.le_refl _))

/-! ### Whole patterns -/

theorem yields_textStart : Yields ['\\', 'A'] [.look .textStart] := by
  refine ⟨by simp, fun s rest hs _ => ⟨[(_, 0)], rfl, reaches_step hs ?_ (Nat.le_succ _)⟩⟩
  have hescape : escape s.flags ('A' :: rest) = .ok (.look .textStart, rest) := by
    rw [hs]
    rfl
  rw [List.append_eq, List.singleton_append]
  simp only [step, hescape]
  rfl

/-- The expression of a pattern is the sequence of its parts. -/
theorem parse_of_yields {pattern : String} (h : Yields pattern.toList ns)
    (hn : Node.parse pattern = .ok n) : n = Node.alternation [Node.sequence ns] := by
  obtain ⟨parts, rfl, hreaches⟩ := h.reaches {} [] rfl (by simp)
  obtain ⟨fuel, hfuel, hrun⟩ := hreaches (pattern.length + 1) (by
    rw [List.append_nil, String.length_toList]
    exact Nat.lt_succ_self _)
  obtain ⟨fuel, rfl⟩ : ∃ k, fuel = k + 1 := ⟨fuel - 1, by simp at hfuel; omega⟩
  rw [Node.parse, ← List.append_nil pattern.toList, hrun] at hn
  simp only [run, after_flags, skip_default] at hn
  rw [if_pos (show (after {} parts).stack.isEmpty = true from rfl)] at hn
  split at hn
  · obtain rfl := Except.ok.inj hn
    simp [alternation, after, sequence_fst]
  · contradiction

end Glr.Regex.Parse

namespace Glr.Regex

open Glr.Regex.Parse (Yields)

/-! ## What a source renders -/

/-- A source that is read as an expression which matches the texts of a language. -/
def Renders (source : List Char) (L : List UInt8 → Prop) : Prop :=
  ∃ ns, Yields source ns ∧ (∀ n ∈ ns, n.Proper) ∧ ∀ (text : Bytes) (base i j : Nat),
    (Node.seqs ns).Spans text base i j ↔ ∃ w, L w ∧ text.Reads (w.map UInt8.toNat) i j

variable {source source' : List Char} {L M : List UInt8 → Prop}

theorem renders_nil : Renders [] fun w => w = [] :=
  ⟨[], Parse.yields_nil, by simp, fun text base i j => by simp [Node.seqs, Node.Spans, Bytes.Reads]⟩

theorem Renders.congr (h : Renders source L) (hLM : ∀ w, L w ↔ M w) : Renders source M := by
  rwa [← show L = M from funext fun w => propext (hLM w)]

theorem Renders.append (h : Renders source L) (h' : Renders source' M) :
    Renders (source ++ source') fun w => ∃ u v, w = u ++ v ∧ L u ∧ M v := by
  obtain ⟨ns, hyields, hproper, hspans⟩ := h
  obtain ⟨ns', hyields', hproper', hspans'⟩ := h'
  refine ⟨ns ++ ns', hyields.append hyields', ?_, fun text base i j => ?_⟩
  · simpa [or_imp, forall_and] using ⟨hproper, hproper'⟩
  rw [Node.spans_seqs_append]
  simp only [hspans, hspans']
  constructor
  · rintro ⟨k, ⟨u, hu, hik⟩, v, hv, hkj⟩
    exact ⟨u ++ v, ⟨u, v, rfl, hu, hv⟩, by
      rw [List.map_append]
      exact Bytes.reads_append.mpr ⟨k, hik, hkj⟩⟩
  · rintro ⟨_, ⟨u, v, rfl, hu, hv⟩, hij⟩
    rw [List.map_append] at hij
    obtain ⟨k, hik, hkj⟩ := Bytes.reads_append.mp hij
    exact ⟨k, ⟨u, hu, hik⟩, v, hv, hkj⟩

/-- Quoted text matches itself. -/
theorem renders_quote (s : String) :
    Renders (quote s).toList fun w => w = (Bytes.ofString s).toList := by
  refine ⟨_, Parse.yields_quote s, ?_, fun text base i j => ?_⟩
  · intro n hn
    obtain ⟨c, -, rfl⟩ := List.mem_map.mp hn
    exact Node.proper_literal fun b => Utf8.lt_of_mem_encode (Node.le_of_isValidChar c.valid)
  · rw [exists_eq_left, Bytes.toList_ofString]
    induction s.toList generalizing i with
    | nil => rfl
    | cons c cs ih =>
      rw [List.map_cons, Node.spans_seqs_cons, List.flatMap_cons, List.map_append,
        Utf8.map_utf8EncodeChar, Bytes.reads_append]
      exact exists_congr fun k => and_congr Node.spans_literal (ih k)

/-- A group matches the texts of its options. -/
theorem exists_renders_group (options : List (List Char × (List UInt8 → Prop)))
    (h : ∀ o ∈ options, Renders o.1 o.2) (hne : options ≠ []) :
    ∃ n : Node, Yields
        ('(' :: '?' :: ':' :: (List.intercalate ['|'] (options.map Prod.fst) ++ [')'])) [n] ∧
      n.Proper ∧ ∀ (text : Bytes) (base i j : Nat), n.Spans text base i j ↔
        ∃ w, (∃ o ∈ options, o.2 w) ∧ text.Reads (w.map UInt8.toNat) i j := by
  choose! parts hyields hproper hspans using h
  have hsources : (options.map fun o => (o.1, parts o)).map Prod.fst = options.map Prod.fst := by
    simp
  have hgroup := Parse.yields_group (options.map fun o => (o.1, parts o))
    (fun _ hoption => by
      obtain ⟨o, ho, rfl⟩ := List.mem_map.mp hoption
      exact hyields o ho) (by simpa using hne)
  rw [hsources] at hgroup
  have hsequences : ∀ n ∈ (options.map fun o => (o.1, parts o)).map fun o => Node.sequence o.2,
      n.Proper := fun n hn => by
    obtain ⟨_, hoption, rfl⟩ := List.mem_map.mp hn
    obtain ⟨o, ho, rfl⟩ := List.mem_map.mp hoption
    exact Node.proper_sequence (hproper o ho)
  have hjoins := Node.joins_alternation hsequences
  refine ⟨_, hgroup, hjoins.proper, fun text base i j => ?_⟩
  rw [hjoins.spans]
  simp only [List.mem_map, exists_exists_and_eq_and, Node.spans_sequence]
  constructor
  · rintro ⟨o, ho, hspan⟩
    obtain ⟨w, hw, hread⟩ := (hspans o ho text base i j).mp hspan
    exact ⟨w, ⟨o, ho, hw⟩, hread⟩
  · rintro ⟨w, ⟨o, ho, hw⟩, hread⟩
    exact ⟨o, ho, (hspans o ho text base i j).mpr ⟨w, hw, hread⟩⟩

theorem renders_group {options : List (List Char × (List UInt8 → Prop))}
    (h : ∀ o ∈ options, Renders o.1 o.2) (hne : options ≠ []) :
    Renders ('(' :: '?' :: ':' :: (List.intercalate ['|'] (options.map Prod.fst) ++ [')']))
      fun w => ∃ o ∈ options, o.2 w := by
  obtain ⟨n, hyields, hproper, hspans⟩ := exists_renders_group options h hne
  exact ⟨[n], hyields, by simpa using hproper, hspans⟩

theorem steps_reads_iff {text : Bytes} {k i j : Nat} :
    Steps (fun i j => ∃ w, L w ∧ text.Reads (w.map UInt8.toNat) i j) k i j ↔
      ∃ ws : List (List UInt8), ws.length = k ∧ (∀ v ∈ ws, L v) ∧
        text.Reads (ws.flatten.map UInt8.toNat) i j := by
  induction k generalizing i with
  | zero =>
    constructor
    · exact fun h => ⟨[], rfl, by simp, h⟩
    · rintro ⟨ws, hlength, -, h⟩
      rwa [List.length_eq_zero_iff.mp hlength] at h
  | succ k ih =>
    constructor
    · rintro ⟨l, ⟨w, hw, hil⟩, hlj⟩
      obtain ⟨ws, rfl, hws, hlj⟩ := ih.mp hlj
      refine ⟨w :: ws, rfl, by simpa using ⟨hw, hws⟩, ?_⟩
      rw [List.flatten_cons, List.map_append]
      exact Bytes.reads_append.mpr ⟨l, hil, hlj⟩
    · rintro ⟨ws, hlength, hws, hread⟩
      obtain ⟨w, ws, rfl⟩ := List.exists_cons_of_length_eq_add_one hlength
      rw [List.flatten_cons, List.map_append] at hread
      obtain ⟨l, hil, hlj⟩ := Bytes.reads_append.mp hread
      exact ⟨l, ⟨w, hws w List.mem_cons_self, hil⟩, ih.mpr ⟨ws, Nat.succ.inj hlength,
        fun v hv => hws v (List.mem_cons_of_mem _ hv), hlj⟩⟩

/-- A group that is repeated matches its texts some times over. -/
theorem Renders.repeated (h : Renders source L) {mark : Char} {least : Nat}
    (hmark : Parse.Repeats mark least) :
    Renders ('(' :: '?' :: ':' :: (source ++ [')', mark])) fun w =>
      ∃ ws : List (List UInt8), least ≤ ws.length ∧ w = ws.flatten ∧ ∀ v ∈ ws, L v := by
  obtain ⟨n, hyields, hproper, hspans⟩ :=
    exists_renders_group [(source, L)] (by simpa using h) (by simp)
  simp only [List.map_singleton, List.intercalate_singleton, List.mem_singleton,
    exists_eq_left] at hyields hspans
  have hrepeated := hyields.repeated hmark
  rw [List.cons_append, List.cons_append, List.cons_append, List.append_assoc,
    List.singleton_append] at hrepeated
  have hbounds : ∀ m, (none : Option Nat) = some m → least ≤ m := by simp
  obtain ⟨hproper', hspans'⟩ := Node.spans_repeated hproper hbounds true
  refine ⟨_, hrepeated, by simpa using hproper', fun text base i j => ?_⟩
  rw [Node.seqs, hspans']
  have hR : n.Spans text base = fun i j => ∃ w, L w ∧ text.Reads (w.map UInt8.toNat) i j := by
    funext i j
    exact propext (hspans text base i j)
  simp only [hR, steps_reads_iff]
  constructor
  · rintro ⟨k, hleast, -, ws, rfl, hws, hread⟩
    exact ⟨_, ⟨ws, hleast, rfl, hws⟩, hread⟩
  · rintro ⟨_, ⟨ws, hleast, rfl, hws⟩, hread⟩
    exact ⟨_, hleast, by simp, ws, rfl, hws, hread⟩

/-! ## Tokens -/

/-- In front of everything else the start of the text stays in front. -/
theorem alternation_textStart (ns : List Node) :
    Node.alternation [Node.sequence (.look .textStart :: ns)] =
      Node.seqs (.look .textStart :: ns.flatMap Node.parts) := by
  have hparts : (Node.look .textStart).parts = [.look .textStart] := rfl
  rw [Node.sequence, List.flatMap_cons, hparts, List.singleton_append]
  cases ns.flatMap Node.parts <;> rfl

theorem pinned_textStart (ns : List Node) : (Node.seqs (.look .textStart :: ns)).pinned = true := by
  cases ns <;> rfl

/-- The pattern of a token is pinned, and its matches at the start are the texts of its
language. -/
theorem compileToken_spec {source : String} {r : Regex} (h : Renders source.toList L)
    (hr : compileToken source = .ok r) : r.pinned = true ∧ ∃ n, r.program = Program.ofNode n ∧
      ∀ (text : Bytes) (start stop : Nat), n.Spans text start start stop ↔
        ∃ w, L w ∧ text.Reads (w.map UInt8.toNat) start stop := by
  obtain ⟨m, hyields, -, hspans⟩ :=
    exists_renders_group [(source.toList, L)] (by simpa using h) (by simp)
  simp only [List.map_singleton, List.intercalate_singleton, List.mem_singleton,
    exists_eq_left] at hyields hspans
  have hpattern : ("\\A(?:" ++ source ++ ")").toList =
      ['\\', 'A'] ++ '(' :: '?' :: ':' :: (source.toList ++ [')']) := by
    simp [String.toList_append]
  have hwhole := Parse.yields_textStart.append hyields
  rw [← hpattern] at hwhole
  unfold compileToken compile at hr
  split at hr
  · contradiction
  rename_i n hn
  split at hr
  · obtain rfl := Except.ok.inj hr
    rw [Parse.parse_of_yields hwhole hn, List.singleton_append, alternation_textStart]
    refine ⟨pinned_textStart _, _, rfl, fun text start stop => ?_⟩
    rw [Node.spans_seqs_cons, ← hspans text start start stop, List.flatMap_singleton]
    constructor
    · rintro ⟨_, ⟨-, rfl⟩, hspan⟩
      exact Node.spans_seqs_parts.mp hspan
    · exact fun hspan => ⟨start, ⟨beq_self_eq_true start, rfl⟩, Node.spans_seqs_parts.mpr hspan⟩
  · contradiction

end Glr.Regex
