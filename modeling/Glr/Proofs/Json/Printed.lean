import Glr.Json.Parser
import Glr.Json.Printer

/-!
# Glr.Proofs.Json.Printed

A value that is printed is parsed again, from the compact text and from the
indented one:

```
parse? v.compact = some v = parse? v.pretty
```

Both texts are the same tokens, `tokens v`, with different blanks between them.
`Json.foreign` stands for texts that no value is printed as, so `v` is `Plain`: it
has none of them inside.

What is scanned from a text depends on the tokens before it and on nothing else,
so a token can be taken off the front:

```
scanFrom tokens (t.text ++ rest)  =  scanFrom (t :: tokens) rest
```

A number or a word ends where the next token begins, so there `rest` must not go
on with a letter or a digit.  Quotes and punctuation end by themselves.
-/

namespace Glr.Json

/-! ## Numbers -/

theorem digitsValue_toDigits (n : Nat) : digitsValue (Nat.toDigits 10 n) = n := by
  have hfold : digitsValue (Nat.toDigits 10 n) = Nat.ofDigitChars 10 (Nat.toDigits 10 n) 0 := by
    simp only [digitsValue, Nat.ofDigitChars_eq_foldl, Nat.mul_comm]
    rfl
  rw [hfold, Nat.ofDigitChars_ten_toDigits]

/-- Only zero is written with a leading zero. -/
theorem head_toDigits {n : Nat} (h : 0 < n) : (Nat.toDigits 10 n).head? ≠ some '0' := by
  induction n using Nat.strongRecOn with
  | _ n ih =>
    rcases Nat.lt_or_ge n 10 with hlt | hge
    · rw [Nat.toDigits_of_lt_base hlt, List.head?_singleton]
      have hdigit : ∀ d : Fin 10, 0 < d.val → d.val.digitChar ≠ '0' := by decide
      simpa using hdigit ⟨n, hlt⟩ h
    · rw [Nat.toDigits_of_base_le (by decide) hge, List.head?_append,
        Option.or_of_isSome (by simp [Option.isSome_iff_ne_none])]
      exact ih (n / 10) (by omega) (by omega)

theorem spanDigits_of_all {ds : List Char} (h : ∀ d ∈ ds, d.isDigit = true) :
    spanDigits ds = (ds, []) := by
  induction ds with
  | nil => rfl
  | cons d ds ih =>
    have hds := ih fun e he => h e (List.mem_cons_of_mem _ he)
    simp_all [spanDigits]

theorem unsigned_toDigits (negative : Bool) (n : Nat) :
    unsigned negative (Nat.toDigits 10 n) =
      if negative then if n = 0 then some .fraction else some (.int (-n)) else some (.int n) := by
  have hspan := spanDigits_of_all fun d (h : d ∈ Nat.toDigits 10 n) =>
    Nat.isDigit_of_mem_toDigits (by decide) (by decide) h
  have hzero : ¬(((Nat.toDigits 10 n).length > 1 && (Nat.toDigits 10 n).head? == some '0') = true) := by
    rcases Nat.eq_zero_or_pos n with rfl | hn
    · simp
    · simp [head_toDigits hn]
  cases hds : Nat.toDigits 10 n with
  | nil => exact absurd hds Nat.toDigits_ne_nil
  | cons d ds =>
    rw [hds] at hspan hzero
    have hvalue := digitsValue_toDigits n
    rw [hds] at hvalue
    rw [unsigned, hspan]
    simp only [hzero, hvalue]
    simp

/-- The characters of an integer. -/
theorem toList_toString_int (n : Int) :
    (toString n).toList =
      if n < 0 then '-' :: Nat.toDigits 10 n.natAbs else Nat.toDigits 10 n.natAbs := by
  cases n with
  | ofNat m =>
    rw [if_neg (by simp)]
    exact Nat.toList_repr
  | negSucc m =>
    rw [if_pos (Int.negSucc_lt_zero m)]
    show ("-" ++ (m + 1).repr).toList = _
    rw [String.toList_append, Nat.toList_repr]
    rfl

/-- What begins with a digit is no word. -/
theorem bareToken_of_isDigit {d : Char} {ds : List Char} (h : d.isDigit = true) :
    bareToken (d :: ds) = unsigned false (d :: ds) := by
  unfold bareToken
  split
  case h_5 => rfl
  all_goals
    rename_i heq
    obtain ⟨rfl, -⟩ := List.cons.inj heq
    exact absurd h (by decide)

theorem bareToken_int (n : Int) : bareToken (toString n).toList = some (.int n) := by
  rw [toList_toString_int]
  split
  · rename_i h
    show unsigned true _ = _
    have hneg : -(n.natAbs : Int) = n := by omega
    rw [unsigned_toDigits, if_pos rfl, if_neg (by omega), hneg]
  · rename_i h
    cases hds : Nat.toDigits 10 n.natAbs with
    | nil => exact absurd hds Nat.toDigits_ne_nil
    | cons d ds =>
      have hd : d.isDigit = true :=
        Nat.isDigit_of_mem_toDigits (by decide) (by decide) (hds ▸ List.mem_cons_self)
      have hpos : (n.natAbs : Int) = n := by omega
      rw [bareToken_of_isDigit hd, ← hds, unsigned_toDigits, if_neg (by decide), hpos]

/-! ## Strings -/

namespace Scan

/-- The scanner between tokens, from some tokens on: what it has read at the end of a text. -/
def scanFrom (tokens : List Token) (cs : List Char) : Option (List Token) :=
  (run ⟨.between, tokens⟩ cs).bind finish

theorem run_append (s : State) (cs ds : List Char) :
    run s (cs ++ ds) = (run s cs).bind fun s' => run s' ds := by
  simp [run, List.foldlM_append]

theorem run_cons (s : State) (c : Char) (cs : List Char) :
    run s (c :: cs) = (step s c).bind fun s' => run s' cs := rfl

/-- The control characters without a letter of their own are read from their digits. -/
theorem run_hex (tokens : List Token) (rev : List Char) {n : Nat} (h : n < 32) :
    run ⟨.text rev none false .plain, tokens⟩
        ['\\', 'u', '0', '0', hexDigit (n / 16), hexDigit (n % 16)] =
      some ⟨.text (Char.ofNat n :: rev) none false .plain, tokens⟩ := by
  have hhex : ∀ i : Fin 16, hexValue? (hexDigit i.val) = some i.val := by decide
  have hhigh : hexValue? (hexDigit (n / 16)) = some (n / 16) := hhex ⟨n / 16, by omega⟩
  have hlow : hexValue? (hexDigit (n % 16)) = some (n % 16) := hhex ⟨n % 16, by omega⟩
  have hzero : hexValue? '0' = some 0 := by decide
  have hunit : ¬(0xDC00 ≤ n ∧ n ≤ 0xDFFF) ∧ ¬(0xD800 ≤ n ∧ n ≤ 0xDBFF) := by omega
  have hvalue : n / 16 * 16 + n % 16 = n := Nat.div_add_mod' n 16
  simp [run, step, inside, hzero, hhigh, hlow, takeUnit, hvalue, hunit]

/-- A character is read as it was written inside quotes. -/
theorem run_escapeChar (tokens : List Token) (rev : List Char) (c : Char) :
    run ⟨.text rev none false .plain, tokens⟩ (escapeChar c) =
      some ⟨.text (c :: rev) none false .plain, tokens⟩ := by
  unfold escapeChar
  split
  · rename_i h
    subst h
    rfl
  split
  · rename_i h
    subst h
    rfl
  split
  · rename_i h
    obtain rfl : c = Char.ofNat 8 := by rw [← h, Char.ofNat_toNat]
    rfl
  split
  · rename_i h
    obtain rfl : c = Char.ofNat 12 := by rw [← h, Char.ofNat_toNat]
    rfl
  split
  · rename_i h
    subst h
    rfl
  split
  · rename_i h
    subst h
    rfl
  split
  · rename_i h
    subst h
    rfl
  split
  · rename_i h
    rw [run_hex tokens rev h, Char.ofNat_toNat]
  · rename_i hquote hslash _ _ _ _ _ hcontrol
    simp [run, step, inside, hquote, hslash, hcontrol]

theorem run_flatMap_escapeChar (tokens : List Token) (rev cs : List Char) :
    run ⟨.text rev none false .plain, tokens⟩ (cs.flatMap escapeChar) =
      some ⟨.text (cs.reverse ++ rev) none false .plain, tokens⟩ := by
  induction cs generalizing rev with
  | nil => rfl
  | cons c cs ih =>
    rw [List.flatMap_cons, run_append, run_escapeChar, Option.bind_some, ih]
    simp

/-- A string in quotes is read. -/
theorem scanFrom_quoted (tokens : List Token) (s : String) (rest : List Char) :
    scanFrom tokens (quoted s ++ rest) = scanFrom (.string s :: tokens) rest := by
  have hopen : step ⟨.between, tokens⟩ '"' = some ⟨.text [] none false .plain, tokens⟩ := rfl
  have hclose : step ⟨.text s.toList.reverse none false .plain, tokens⟩ '"' =
      some ⟨.between, .string s :: tokens⟩ := by
    simp [step, inside]
  rw [scanFrom, quoted, List.cons_append, List.cons_append, run_cons, hopen, Option.bind_some,
    List.append_assoc, run_append, run_flatMap_escapeChar, Option.bind_some, List.append_nil,
    List.singleton_append, run_cons, hclose, Option.bind_some, scanFrom]

/-! ## Words and punctuation -/

/-- A text that does not go on with a letter or a digit. -/
def Apart (cs : List Char) : Prop := ∀ c ∈ cs.head?, isBare c = false

/-- A number or a word. -/
structure IsWord (t : Token) : Prop where
  ne_nil : t.text ≠ []
  bare : t.text.all isBare = true
  bareToken : bareToken t.text = some t

theorem IsWord.null : IsWord .null := ⟨by decide, rfl, rfl⟩

theorem IsWord.bool (b : Bool) : IsWord (.bool b) := by
  cases b
  · exact ⟨by decide, rfl, rfl⟩
  · exact ⟨by decide, rfl, rfl⟩

theorem isBare_of_isDigit {c : Char} (h : c.isDigit = true) : isBare c = true := by
  simp [isBare, Char.isAlphanum, h]

theorem IsWord.int (n : Int) : IsWord (.int n) := by
  have hdigits : (Nat.toDigits 10 n.natAbs).all isBare = true := List.all_eq_true.mpr fun c hc =>
    isBare_of_isDigit (Nat.isDigit_of_mem_toDigits (by decide) (by decide) hc)
  refine ⟨?_, ?_, bareToken_int n⟩
  · rw [Token.text, toList_toString_int]
    split <;> simp
  · rw [Token.text, toList_toString_int]
    split
    · rw [List.all_cons, hdigits]
      rfl
    · exact hdigits

theorem run_bare (tokens : List Token) (rev : List Char) {cs : List Char}
    (h : ∀ c ∈ cs, isBare c = true) :
    run ⟨.bare rev, tokens⟩ cs = some ⟨.bare (cs.reverse ++ rev), tokens⟩ := by
  induction cs generalizing rev with
  | nil => rfl
  | cons c cs ih =>
    have hstep : step ⟨.bare rev, tokens⟩ c = some ⟨.bare (c :: rev), tokens⟩ := by
      simp [step, h c List.mem_cons_self]
    rw [run_cons, hstep, Option.bind_some, ih _ fun d hd => h d (List.mem_cons_of_mem _ hd)]
    simp

/-- A word begins between tokens: no blank and no quote is one of its characters. -/
theorem between_of_isBare (tokens : List Token) {c : Char} (h : isBare c = true) :
    between tokens c = some ⟨.bare [c], tokens⟩ := by
  have hblank : isBlank c = false := by
    rw [Bool.eq_false_iff]
    intro hb
    simp only [isBlank, Bool.or_eq_true, beq_iff_eq] at hb
    rcases hb with ((rfl | rfl) | rfl) | rfl <;> exact absurd h (by decide)
  have hquote : c ≠ '"' := by
    rintro rfl
    exact absurd h (by decide)
  simp [between, hblank, hquote, h]

/-- A word that has ended is a token: what comes next is read as after any other. -/
theorem bind_run_bare (tokens : List Token) {rev : List Char} {t : Token} {rest : List Char}
    (ht : bareToken rev.reverse = some t) (hrest : Apart rest) :
    (run ⟨.bare rev, tokens⟩ rest).bind finish = scanFrom (t :: tokens) rest := by
  cases rest with
  | nil => simp [run, scanFrom, finish, ht]
  | cons c rest =>
    have hc : isBare c = false := hrest c rfl
    have hstep : step ⟨.bare rev, tokens⟩ c = step ⟨.between, t :: tokens⟩ c := by
      simp [step, hc, ht]
    rw [scanFrom, run_cons, run_cons, hstep]

theorem scanFrom_word (tokens : List Token) {t : Token} (ht : IsWord t) {rest : List Char}
    (hrest : Apart rest) : scanFrom tokens (t.text ++ rest) = scanFrom (t :: tokens) rest := by
  obtain ⟨hne, hbare, htoken⟩ := ht
  rw [List.all_eq_true] at hbare
  cases htext : t.text with
  | nil => exact absurd htext hne
  | cons c cs =>
    rw [htext] at hbare htoken
    have hstep : step ⟨.between, tokens⟩ c = some ⟨.bare [c], tokens⟩ :=
      between_of_isBare tokens (hbare c List.mem_cons_self)
    rw [scanFrom, List.cons_append, run_cons, hstep, Option.bind_some, run_append,
      run_bare _ _ fun d hd => hbare d (List.mem_cons_of_mem _ hd), Option.bind_some]
    exact bind_run_bare tokens (by simpa using htoken) hrest

/-- A bracket, a colon or a comma. -/
def isMark : Token → Bool
  | .lbrace | .rbrace | .lbracket | .rbracket | .colon | .comma => true
  | _ => false

theorem scanFrom_mark (tokens : List Token) {t : Token} (h : isMark t = true) (rest : List Char) :
    scanFrom tokens (t.text ++ rest) = scanFrom (t :: tokens) rest := by
  cases t <;> first | rfl | contradiction

theorem scanFrom_blank (tokens : List Token) {c : Char} (h : isBlank c = true)
    (rest : List Char) : scanFrom tokens (c :: rest) = scanFrom tokens rest := by
  have hstep : step ⟨.between, tokens⟩ c = some ⟨.between, tokens⟩ := by
    simp [step, between, h]
  rw [scanFrom, run_cons, hstep, Option.bind_some, scanFrom]

theorem scanFrom_replicate (tokens : List Token) (n : Nat) (rest : List Char) :
    scanFrom tokens (List.replicate n ' ' ++ rest) = scanFrom tokens rest := by
  induction n with
  | zero => rfl
  | succ n ih => rw [List.replicate_succ, List.cons_append, scanFrom_blank tokens rfl, ih]

end Scan

/-! ## Values -/

/-- A value that is written as it is: no part of it is foreign. -/
inductive Plain : Json → Prop where
  | null : Plain .null
  | bool (b : Bool) : Plain (.bool b)
  | int (n : Int) : Plain (.int n)
  | string (s : String) : Plain (.string s)
  | array {items : List Json} (h : ∀ v ∈ items, Plain v) : Plain (.array items)
  | object {members : List (String × Json)} (h : ∀ m ∈ members, Plain m.2) :
      Plain (.object members)

/-! ## The tokens of a value -/

mutual

/-- The tokens of a value. -/
def tokens : Json → List Token
  | .null => [.null]
  | .bool b => [.bool b]
  | .int n => [.int n]
  | .string s => [.string s]
  | .array [] => [.lbracket, .rbracket]
  | .array (v :: vs) => .lbracket :: (tokens v ++ moreItems vs)
  | .object [] => [.lbrace, .rbrace]
  | .object (m :: ms) => .lbrace :: .string m.1 :: .colon :: (tokens m.2 ++ moreMembers ms)
  | .foreign => [.null]

/-- The tokens of the items that follow another, and the end of the array. -/
def moreItems : List Json → List Token
  | [] => [.rbracket]
  | v :: vs => .comma :: (tokens v ++ moreItems vs)

/-- The tokens of the members that follow another, and the end of the object. -/
def moreMembers : List (String × Json) → List Token
  | [] => [.rbrace]
  | m :: ms => .comma :: .string m.1 :: .colon :: (tokens m.2 ++ moreMembers ms)

end

/-! ## Reading the tokens -/

namespace Parse

variable {v : Json} {rev : List Json} {stack : List Frame} {ts : List Token}

theorem run_append (s : State) (ts us : List Token) :
    run s (ts ++ us) = (run s ts).bind fun s' => run s' us := by
  simp [run, List.foldlM_append]

theorem run_cons (s : State) (t : Token) (ts : List Token) :
    run s (t :: ts) = (step s t).bind fun s' => run s' ts := rfl

/-- Where a value is expected, the tokens of `v` are read as `v`. -/
def Reads (v : Json) : Prop :=
  ∀ stack ts, run ⟨.value, stack⟩ (tokens v ++ ts) = run ⟨.more v, stack⟩ ts

theorem run_moreItems {vs : List Json} (h : ∀ v ∈ vs, Reads v) (v : Json) (rev : List Json) :
    run ⟨.more v, .items rev :: stack⟩ (moreItems vs ++ ts) =
      run ⟨.more (.array (rev.reverse ++ v :: vs)), stack⟩ ts := by
  induction vs generalizing v rev with
  | nil =>
    rw [moreItems, List.singleton_append, run_cons]
    simp [step]
  | cons w vs ih =>
    rw [moreItems, List.cons_append, run_cons]
    show run ⟨.value, .items (v :: rev) :: stack⟩ _ = _
    rw [List.append_assoc, h w List.mem_cons_self,
      ih (fun u hu => h u (List.mem_cons_of_mem _ hu))]
    simp

/-- The members of an object as the reader keeps them. -/
def kept (members : List (String × Json)) : List (Key × Json) :=
  members.map fun m => (some m.1, m.2)

theorem closeObject_kept (members : List (String × Json)) :
    closeObject (kept members).reverse = .object members := by
  have hkeys : (kept members).mapM (fun m => m.1.map fun key => (key, m.2)) = some members := by
    induction members with
    | nil => rfl
    | cons m ms ih =>
      rw [kept, List.map_cons, List.mapM_cons]
      rw [kept] at ih
      simp [ih]
  rw [closeObject, List.reverse_reverse, hkeys]

theorem run_moreMembers {ms : List (String × Json)} (h : ∀ m ∈ ms, Reads m.2) (key : String)
    (v : Json) (members : List (String × Json)) :
    run ⟨.more v, .members (kept members).reverse (some key) :: stack⟩ (moreMembers ms ++ ts) =
      run ⟨.more (.object (members ++ (key, v) :: ms)), stack⟩ ts := by
  have hkept : ∀ m : String × Json,
      (some m.1, m.2) :: (kept members).reverse = (kept (members ++ [m])).reverse := by
    simp [kept]
  induction ms generalizing key v members with
  | nil =>
    rw [moreMembers, List.singleton_append, run_cons]
    simp only [step, reduceCtorEq, if_false, if_true, Option.bind_some]
    rw [hkept (key, v), closeObject_kept]
  | cons m ms ih =>
    rw [moreMembers, List.cons_append, List.cons_append, List.cons_append, List.append_assoc]
    show run ⟨.value, .members ((some key, v) :: (kept members).reverse) (some m.1) :: stack⟩ _ = _
    rw [h m List.mem_cons_self, hkept (key, v),
      ih (fun n hn => h n (List.mem_cons_of_mem _ hn)) _ _ _ (by simp [kept])]
    simp

/-- The first token of a value does not end an array. -/
theorem exists_tokens_eq (v : Json) : ∃ t ts, tokens v = t :: ts ∧ t ≠ .rbracket := by
  cases v with
  | array items => cases items <;> exact ⟨_, _, by rw [tokens], by decide⟩
  | object members => cases members <;> exact ⟨_, _, by rw [tokens], by decide⟩
  | _ => exact ⟨_, _, by rw [tokens], by simp⟩

theorem run_valueOrEnd (v : Json) (stack : List Frame) (ts : List Token) :
    run ⟨.valueOrEnd, .items [] :: stack⟩ (tokens v ++ ts) =
      run ⟨.value, .items [] :: stack⟩ (tokens v ++ ts) := by
  obtain ⟨t, us, hv, ht⟩ := exists_tokens_eq v
  rw [hv, List.cons_append, run_cons, run_cons]
  simp [step, ht]

/-- A plain value is read from its tokens. -/
theorem reads_of_plain (h : Plain v) : Reads v := by
  intro stack ts
  induction h generalizing stack ts with
  | null | bool _ | int _ | string _ => rfl
  | @array items _ ih =>
    cases items with
    | nil => rfl
    | cons v vs =>
      rw [tokens, List.cons_append, List.append_assoc]
      show run ⟨.valueOrEnd, .items [] :: stack⟩ _ = _
      rw [run_valueOrEnd, ih v List.mem_cons_self,
        run_moreItems fun w hw => ih w (List.mem_cons_of_mem _ hw)]
      rfl
  | @object members _ ih =>
    cases members with
    | nil => rfl
    | cons m ms =>
      rw [tokens, List.cons_append, List.cons_append, List.cons_append, List.append_assoc]
      show run ⟨.value, .members (kept []).reverse (some m.1) :: stack⟩ _ = _
      rw [ih m List.mem_cons_self, run_moreMembers fun n hn => ih n (List.mem_cons_of_mem _ hn)]
      rfl

end Parse

theorem ofTokens?_tokens {v : Json} (h : Plain v) : ofTokens? (tokens v) = some v := by
  have hrun := Parse.reads_of_plain h [] []
  rw [List.append_nil] at hrun
  rw [ofTokens?, hrun]
  rfl

/-! ## Scanning the pieces -/

/-- The characters of some pieces. -/
def written (pieces : List Piece) : List Char := pieces.flatMap Piece.text

theorem toList_render (pieces : List Piece) : (render pieces).toList = written pieces := by
  have hpush : ∀ (cs : List Char) (acc : String),
      (cs.foldl String.push acc).toList = acc.toList ++ cs := by
    intro cs
    induction cs with
    | nil => simp
    | cons c cs ih => simp [ih]
  have hrender : ∀ acc : String,
      (pieces.foldl (fun acc p => p.text.foldl String.push acc) acc).toList =
        acc.toList ++ written pieces := by
    induction pieces with
    | nil => simp [written]
    | cons p ps ih => simp [written] at ih ⊢; simp [ih, hpush]
  rw [render, hrender, String.toList_empty, List.nil_append]

open Scan

variable {toks : List Token} {rest : List Piece}

theorem written_token (t : Token) (rest : List Piece) :
    written (.token t :: rest) = t.text ++ written rest := rfl

theorem scanFrom_piece (toks : List Token) {t : Token} (h : isMark t = true) (rest : List Piece) :
    scanFrom toks (written (.token t :: rest)) = scanFrom (t :: toks) (written rest) :=
  scanFrom_mark toks h (written rest)

theorem apart_piece {t : Token} (h : isMark t = true) (rest : List Piece) :
    Apart (written (.token t :: rest)) := by
  intro c hc
  cases t <;> first | contradiction | (obtain rfl := Option.some.inj hc; decide)

theorem scanFrom_newline (toks : List Token) (depth : Nat) (rest : List Piece) :
    scanFrom toks (written (.newline depth :: rest)) = scanFrom toks (written rest) := by
  show scanFrom toks ('\n' :: (List.replicate (2 * depth) ' ' ++ written rest)) = _
  rw [scanFrom_blank toks rfl, scanFrom_replicate]

theorem scanFrom_space (toks : List Token) (rest : List Piece) :
    scanFrom toks (written (.space :: rest)) = scanFrom toks (written rest) :=
  scanFrom_blank toks rfl (written rest)

theorem apart_newline (depth : Nat) (rest : List Piece) :
    Apart (written (.newline depth :: rest)) := by
  intro c hc
  obtain rfl := Option.some.inj hc
  decide

/-- The key of a member and the colon behind it. -/
theorem scanFrom_key (toks : List Token) (key : String) (rest : List Piece) :
    scanFrom toks (written (.token (.string key) :: .token .colon :: rest)) =
      scanFrom (.colon :: .string key :: toks) (written rest) := by
  rw [written_token, Token.text, scanFrom_quoted, scanFrom_piece _ rfl]

/-- What stands for a value, before anything that no word goes on with, is scanned as
the tokens of the value. -/
def Spells (pieces : List Piece → List Piece) (v : Json) : Prop :=
  ∀ toks rest, Apart (written rest) →
    scanFrom toks (written (pieces rest)) = scanFrom ((tokens v).reverse ++ toks) (written rest)

theorem spells_word {t : Token} (ht : IsWord t) {v : Json} (h : tokens v = [t]) :
    Spells (.token t :: ·) v := by
  intro toks rest hrest
  rw [written_token, scanFrom_word toks ht hrest, h]
  rfl

theorem spells_string (s : String) : Spells (.token (.string s) :: ·) (.string s) := by
  intro toks rest _
  rw [written_token, Token.text, scanFrom_quoted, tokens]
  rfl

/-! ### The compact form -/

theorem scanFrom_compactItems {vs : List Json} (h : ∀ v ∈ vs, Spells (compactPieces v) v)
    {v : Json} (hv : Spells (compactPieces v) v) (toks : List Token) (rest : List Piece) :
    scanFrom toks (written (compactItems (v :: vs) (.token .rbracket :: rest))) =
      scanFrom ((tokens v ++ moreItems vs).reverse ++ toks) (written rest) := by
  induction vs generalizing v toks with
  | nil =>
    rw [compactItems, List.isEmpty_nil, if_pos rfl, hv toks _ (apart_piece rfl _), written_token,
      scanFrom_mark _ rfl, moreItems]
    simp
  | cons w ws ih =>
    rw [compactItems, List.isEmpty_cons, if_neg (by decide), hv toks _ (apart_piece rfl _),
      scanFrom_piece _ rfl,
      ih (fun u hu => h u (List.mem_cons_of_mem _ hu)) (h w List.mem_cons_self), moreItems]
    simp

theorem scanFrom_compactMembers {ms : List (String × Json)}
    (h : ∀ m ∈ ms, Spells (compactPieces m.2) m.2) {m : String × Json}
    (hm : Spells (compactPieces m.2) m.2) (toks : List Token) (rest : List Piece) :
    scanFrom toks (written (compactMembers (m :: ms) (.token .rbrace :: rest))) =
      scanFrom ((.string m.1 :: .colon :: (tokens m.2 ++ moreMembers ms)).reverse ++ toks)
        (written rest) := by
  induction ms generalizing m toks with
  | nil =>
    rw [compactMembers, scanFrom_key, List.isEmpty_nil, if_pos rfl, hm _ _ (apart_piece rfl _),
      scanFrom_piece _ rfl, moreMembers]
    simp
  | cons n ns ih =>
    rw [compactMembers, scanFrom_key, List.isEmpty_cons, if_neg (by decide),
      hm _ _ (apart_piece rfl _), scanFrom_piece _ rfl,
      ih (fun u hu => h u (List.mem_cons_of_mem _ hu)) (h n List.mem_cons_self), moreMembers]
    simp

theorem spells_compactPieces {v : Json} (h : Plain v) : Spells (compactPieces v) v := by
  induction h with
  | null => exact spells_word .null (by rw [tokens])
  | bool b => exact spells_word (.bool b) (by rw [tokens])
  | int n => exact spells_word (.int n) (by rw [tokens])
  | string s => exact spells_string s
  | @array items _ ih =>
    intro toks rest _
    rw [compactPieces, scanFrom_piece _ rfl]
    cases items with
    | nil =>
      rw [compactItems, scanFrom_piece _ rfl, tokens]
      rfl
    | cons v vs =>
      rw [scanFrom_compactItems (fun w hw => ih w (List.mem_cons_of_mem _ hw))
        (ih v List.mem_cons_self), tokens]
      simp
  | @object members _ ih =>
    intro toks rest _
    rw [compactPieces, scanFrom_piece _ rfl]
    cases members with
    | nil =>
      rw [compactMembers, scanFrom_piece _ rfl, tokens]
      rfl
    | cons m ms =>
      rw [scanFrom_compactMembers (fun n hn => ih n (List.mem_cons_of_mem _ hn))
        (ih m List.mem_cons_self), tokens]
      simp

/-! ### The indented form -/

theorem scanFrom_prettyItems {vs : List Json} {depth : Nat}
    (h : ∀ v ∈ vs, Spells (prettyPieces depth v) v) {v : Json} (hv : Spells (prettyPieces depth v) v)
    (toks : List Token) (outer : Nat) (rest : List Piece) :
    scanFrom toks
        (written (prettyItems depth (v :: vs) (.newline outer :: .token .rbracket :: rest))) =
      scanFrom ((tokens v ++ moreItems vs).reverse ++ toks) (written rest) := by
  induction vs generalizing v toks with
  | nil =>
    rw [prettyItems, scanFrom_newline, List.isEmpty_nil, if_pos rfl, hv _ _ (apart_newline _ _),
      scanFrom_newline, scanFrom_piece _ rfl, moreItems]
    simp
  | cons w ws ih =>
    rw [prettyItems, scanFrom_newline, List.isEmpty_cons, if_neg (by decide),
      hv _ _ (apart_piece rfl _), scanFrom_piece _ rfl,
      ih (fun u hu => h u (List.mem_cons_of_mem _ hu)) (h w List.mem_cons_self), moreItems]
    simp

theorem scanFrom_prettyMembers {ms : List (String × Json)} {depth : Nat}
    (h : ∀ m ∈ ms, Spells (prettyPieces depth m.2) m.2) {m : String × Json}
    (hm : Spells (prettyPieces depth m.2) m.2) (toks : List Token) (outer : Nat)
    (rest : List Piece) :
    scanFrom toks
        (written (prettyMembers depth (m :: ms) (.newline outer :: .token .rbrace :: rest))) =
      scanFrom ((.string m.1 :: .colon :: (tokens m.2 ++ moreMembers ms)).reverse ++ toks)
        (written rest) := by
  induction ms generalizing m toks with
  | nil =>
    rw [prettyMembers, scanFrom_newline, scanFrom_key, scanFrom_space, List.isEmpty_nil,
      if_pos rfl, hm _ _ (apart_newline _ _), scanFrom_newline, scanFrom_piece _ rfl, moreMembers]
    simp
  | cons n ns ih =>
    rw [prettyMembers, scanFrom_newline, scanFrom_key, scanFrom_space, List.isEmpty_cons,
      if_neg (by decide), hm _ _ (apart_piece rfl _), scanFrom_piece _ rfl,
      ih (fun u hu => h u (List.mem_cons_of_mem _ hu)) (h n List.mem_cons_self), moreMembers]
    simp

theorem spells_prettyPieces {v : Json} (h : Plain v) (depth : Nat) :
    Spells (prettyPieces depth v) v := by
  induction h generalizing depth with
  | null => exact spells_word .null (by rw [tokens])
  | bool b => exact spells_word (.bool b) (by rw [tokens])
  | int n => exact spells_word (.int n) (by rw [tokens])
  | string s => exact spells_string s
  | @array items _ ih =>
    intro toks rest _
    cases items with
    | nil =>
      rw [prettyPieces, scanFrom_piece _ rfl, scanFrom_piece _ rfl, tokens]
      rfl
    | cons v vs =>
      rw [prettyPieces, scanFrom_piece _ rfl,
        scanFrom_prettyItems (fun w hw => ih w (List.mem_cons_of_mem _ hw) _)
          (ih v List.mem_cons_self _), tokens]
      simp
  | @object members _ ih =>
    intro toks rest _
    cases members with
    | nil =>
      rw [prettyPieces, scanFrom_piece _ rfl, scanFrom_piece _ rfl, tokens]
      rfl
    | cons m ms =>
      rw [prettyPieces, scanFrom_piece _ rfl,
        scanFrom_prettyMembers (fun n hn => ih n (List.mem_cons_of_mem _ hn) _)
          (ih m List.mem_cons_self _), tokens]
      simp

/-! ## Reading what is printed -/

theorem parse?_render {v : Json} (h : Plain v) {pieces : List Piece → List Piece}
    (hv : Spells pieces v) : parse? (render (pieces [])) = some v := by
  have hscan : Token.scan (render (pieces [])).toList = some (tokens v) := by
    rw [toList_render]
    have hscan := hv [] [] (by simp [Apart, written])
    rw [List.append_nil] at hscan
    refine hscan.trans ?_
    simp [scanFrom, written, run, finish]
  rw [parse?, hscan, Option.bind_some, ofTokens?_tokens h]

/-- A value is read from its compact text. -/
theorem parse?_compact {v : Json} (h : Plain v) : parse? v.compact = some v :=
  parse?_render h (spells_compactPieces h)

/-- A value is read from its indented text. -/
theorem parse?_pretty {v : Json} (h : Plain v) : parse? v.pretty = some v :=
  parse?_render h (spells_prettyPieces h 0)

end Glr.Json
