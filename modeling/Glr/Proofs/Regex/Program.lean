import Glr.Proofs.Regex.Matcher

/-!
# Glr.Proofs.Regex.Program

What an expression matches, and that its program does just that.  `n.Spans text base i j` says
that `n` matches the text from offset `i` to offset `j`.  The program of an expression is built
from its end, each part in front of what follows it, and a path

```
start of the part, i   ⟶ … ⟶   what follows the part, j
```

is there exactly if the part spans the text from `i` to `j`.  With what a run finds of the paths,
`endFrom?` answers the end of a match if there is one.
-/

namespace Glr.Regex

open Relation

/-! ## Spans -/

/-- Some steps of a relation, one after another. -/
def Steps (R : Nat → Nat → Prop) : Nat → Nat → Nat → Prop
  | 0, i, j => i = j
  | n + 1, i, j => ∃ k, R i k ∧ Steps R n k j

variable {R R' : Nat → Nat → Prop} {m n i j k : Nat}

theorem Steps.append (h : Steps R m i j) (h' : Steps R n j k) : Steps R (m + n) i k := by
  induction m generalizing i with
  | zero =>
    obtain rfl : i = j := h
    rwa [Nat.zero_add]
  | succ m ih =>
    obtain ⟨l, hl, hrest⟩ := h
    rw [Nat.succ_add]
    exact ⟨l, hl, ih hrest⟩

theorem Steps.exists_of_add (h : Steps R (m + n) i k) : ∃ j, Steps R m i j ∧ Steps R n j k := by
  induction m generalizing i with
  | zero => exact ⟨i, rfl, by rwa [Nat.zero_add] at h⟩
  | succ m ih =>
    rw [Nat.succ_add] at h
    obtain ⟨l, hl, hrest⟩ := h
    obtain ⟨j, hm, hn⟩ := ih hrest
    exact ⟨j, ⟨l, hl, hm⟩, hn⟩

theorem steps_one : Steps R 1 i j ↔ R i j :=
  ⟨fun ⟨_, h, hk⟩ => hk ▸ h, fun h => ⟨j, h, rfl⟩⟩

theorem Steps.mono (h : ∀ i j, R i j → R' i j) (hs : Steps R n i j) : Steps R' n i j := by
  induction n generalizing i with
  | zero => exact hs
  | succ n ih =>
    obtain ⟨k, hk, hrest⟩ := hs
    exact ⟨k, h i k hk, ih hrest⟩

/-- An expression matches the text from one offset to another one.  A repetition whose bounds are
the wrong way round is one of its lower bound. -/
def Node.Spans (text : Bytes) (base : Nat) : Node → Nat → Nat → Prop
  | .empty, i, j => i = j
  | .chars s, i, j => ∃ c width, Utf8.decode? text i = some (c, width) ∧ s.contains c = true ∧
      j = i + width
  | .bytes s, i, j => ∃ b, text[i]? = some b ∧ s.contains b.toNat = true ∧ j = i + 1
  | .look l, i, j => l.holds text base i = true ∧ i = j
  | .seq a b, i, j => ∃ k, a.Spans text base i k ∧ b.Spans text base k j
  | .alt a b, i, j => a.Spans text base i j ∨ b.Spans text base i j
  | .times body least most _, i, j => ∃ n, least ≤ n ∧ (∀ m, most = some m → n ≤ max least m) ∧
      Steps (body.Spans text base) n i j
  | .group _ body, i, j => body.Spans text base i j

/-! ## Paths of bounded length -/

/-- A path to a target takes so many steps at most. -/
inductive Within (instrs : Array Instr) (text : Bytes) (base : Nat) (target : Nat × Nat) :
    Nat → Nat × Nat → Prop where
  | here {k : Nat} : Within instrs text base target k target
  | step {k : Nat} {x y : Nat × Nat} (h : Goes instrs text base x y)
      (rest : Within instrs text base target k y) : Within instrs text base target (k + 1) x

variable {instrs : Array Instr} {text : Bytes} {base pc next q : Nat} {code code' : Array Instr}
  {result result' : Nat × Array Instr} {greedy : Bool}

theorem leads_iff_within {x y : Nat × Nat} :
    Leads instrs text base x y ↔ ∃ k, Within instrs text base y k x := by
  constructor
  · intro h
    induction h using ReflTransGen.head_induction_on with
    | refl => exact ⟨0, .here⟩
    | head hgo _ ih =>
      obtain ⟨k, hk⟩ := ih
      exact ⟨k + 1, .step hgo hk⟩
  · rintro ⟨k, h⟩
    induction h with
    | here => exact .refl
    | step hgo _ ih => exact .head hgo ih

/-! ## Code that grows -/

/-- Code that has been added to other code, with no match of its own. -/
structure Extends (code code' : Array Instr) : Prop where
  size : code.size ≤ code'.size
  keeps : ∀ pc < code.size, code'[pc]? = code[pc]?
  open_ : ∀ pc, code.size ≤ pc → code'[pc]? ≠ some .done

theorem Extends.refl (code : Array Instr) : Extends code code :=
  ⟨le_rfl, fun _ _ => rfl, fun pc h => by simp [Array.getElem?_eq_none h]⟩

theorem Extends.trans {code'' : Array Instr} (h : Extends code code') (h' : Extends code' code'') :
    Extends code code'' := by
  refine ⟨h.size.trans h'.size, fun pc hpc => ?_, fun pc hpc => ?_⟩
  · rw [h'.keeps pc (hpc.trans_le h.size), h.keeps pc hpc]
  · rcases Nat.lt_or_ge pc code'.size with hlt | hge
    · rw [h'.keeps pc hlt]
      exact h.open_ pc hpc
    · exact h'.open_ pc hge

theorem Extends.push {instr : Instr} (h : instr ≠ .done) : Extends code (code.push instr) := by
  refine ⟨by simp, fun pc hpc => ?_, fun pc hpc => ?_⟩
  · rw [Array.getElem?_push, if_neg hpc.ne]
  · rw [Array.getElem?_push]
    split
    · simpa using h
    · simp [Array.getElem?_eq_none hpc]

/-- A program that has the code that was added. -/
def Has (instrs code code' : Array Instr) : Prop :=
  ∀ pc, code.size ≤ pc → pc < code'.size → instrs[pc]? = code'[pc]?

theorem Has.first {code'' : Array Instr} (h : Has instrs code code'') (h' : Extends code' code'')
    : Has instrs code code' := fun pc hpc hlt => by
  rw [h pc hpc (hlt.trans_le h'.size), h'.keeps pc hlt]

theorem Has.second {code'' : Array Instr} (h : Has instrs code code'') (h' : Extends code code') :
    Has instrs code' code'' := fun pc hpc hlt => h pc (h'.size.trans hpc) hlt

theorem Has.get {instr : Instr} (h : Has instrs code (code.push instr)) :
    instrs[code.size]? = some instr := by
  rw [h code.size le_rfl (by simp), Array.getElem?_push_size]

/-! ## Parts of a program -/

/-- What has been compiled in front of `next`: its paths lead there, from an offset to the ones
that `R` relates to it, and nowhere else. -/
structure Compiled (text : Bytes) (base : Nat) (R : Nat → Nat → Prop) (code : Array Instr)
    (next : Nat) (result : Nat × Array Instr) : Prop where
  extends_ : Extends code result.2
  leads : ∀ {instrs : Array Instr} {i j : Nat}, Has instrs code result.2 → R i j →
    Leads instrs text base (result.1, i) (next, j)
  splits : ∀ {instrs : Array Instr} {q m k i : Nat}, Has instrs code result.2 → q < code.size →
    Within instrs text base (q, m) k (result.1, i) →
      ∃ j k', k' ≤ k ∧ R i j ∧ Within instrs text base (q, m) k' (next, j)

theorem Compiled.congr (h : Compiled text base R code next result) (hR : ∀ i j, R i j ↔ R' i j) :
    Compiled text base R' code next result where
  extends_ := h.extends_
  leads hcode hij := h.leads hcode ((hR _ _).mpr hij)
  splits hcode hq hpath := by
    obtain ⟨j, k', hle, hij, hrest⟩ := h.splits hcode hq hpath
    exact ⟨j, k', hle, (hR _ _).mp hij, hrest⟩

/-- Nothing is compiled for the empty text. -/
theorem compiled_empty (text : Bytes) (base next : Nat) (code : Array Instr) :
    Compiled text base (· = ·) code next (next, code) where
  extends_ := .refl code
  leads _ hij := hij ▸ .refl
  splits _ _ hpath := ⟨_, _, le_rfl, rfl, hpath⟩

/-- A single instruction that goes on at `next`. -/
theorem compiled_emit {instr : Instr} (hdone : instr ≠ .done)
    (hgo : ∀ {instrs : Array Instr} {pc i : Nat} {y : Nat × Nat}, instrs[pc]? = some instr →
      (Goes instrs text base (pc, i) y ↔ ∃ j, R i j ∧ y = (next, j))) :
    Compiled text base R code next (Program.emit code instr) where
  extends_ := .push hdone
  leads hcode hij := .single ((hgo hcode.get).mpr ⟨_, hij, rfl⟩)
  splits hcode hq hpath := by
    cases hpath with
    | here => exact absurd hq (lt_irrefl _)
    | step h rest =>
      obtain ⟨j, hij, rfl⟩ := (hgo hcode.get).mp h
      exact ⟨j, _, Nat.le_succ _, hij, rest⟩

/-- One part in front of another one. -/
theorem Compiled.seq {second : Nat × Array Instr} (hb : Compiled text base R' code next second)
    (ha : Compiled text base R second.2 second.1 result) :
    Compiled text base (fun i j => ∃ k, R i k ∧ R' k j) code next result where
  extends_ := hb.extends_.trans ha.extends_
  leads hcode hij := by
    obtain ⟨k, hik, hkj⟩ := hij
    exact (ha.leads (hcode.second hb.extends_) hik).trans
      (hb.leads (hcode.first ha.extends_) hkj)
  splits hcode hq hpath := by
    obtain ⟨k, k', hle, hik, hrest⟩ :=
      ha.splits (hcode.second hb.extends_) (hq.trans_le hb.extends_.size) hpath
    obtain ⟨j, k'', hle', hkj, hend⟩ := hb.splits (hcode.first ha.extends_) hq hrest
    exact ⟨j, k'', hle'.trans hle, ⟨k, hik, hkj⟩, hend⟩

/-- Where a split leads. -/
theorem goes_split_iff {a b i : Nat} {y : Nat × Nat} (h : instrs[pc]? = some (.split a b)) :
    Goes instrs text base (pc, i) y ↔ y = (a, i) ∨ y = (b, i) := by
  constructor
  · rintro ((h' | h' | ⟨h', -⟩) | (⟨h', -, -⟩ | ⟨h', -, -⟩)) <;> rw [h] at h' <;> cases h'
    exacts [.inl rfl, .inr rfl]
  · rintro (rfl | rfl)
    exacts [.passes (.first h), .passes (.second h)]

theorem goes_choose_iff {a b i : Nat} {y : Nat × Nat}
    (h : instrs[pc]? = some (Program.choose greedy a b)) :
    Goes instrs text base (pc, i) y ↔ y = (a, i) ∨ y = (b, i) := by
  cases greedy with
  | true => exact goes_split_iff h
  | false => exact (goes_split_iff h).trans or_comm

theorem choose_ne_done (a b : Nat) : Program.choose greedy a b ≠ .done := by
  cases greedy <;> simp [Program.choose]

/-- One of two parts. -/
theorem Compiled.alt {first second : Nat × Array Instr} (ha : Compiled text base R code next first)
    (hb : Compiled text base R' first.2 next second) :
    Compiled text base (fun i j => R i j ∨ R' i j) code next
      (Program.emit second.2 (.split first.1 second.1)) where
  extends_ := (ha.extends_.trans hb.extends_).trans (.push (by simp))
  leads hcode hij := by
    have hwhole := ha.extends_.trans hb.extends_
    have hsplit := (hcode.second hwhole).get
    have hcode := hcode.first (.push (by simp))
    rcases hij with hij | hij
    · exact .head (.passes (.first hsplit)) (ha.leads (hcode.first hb.extends_) hij)
    · exact .head (.passes (.second hsplit)) (hb.leads (hcode.second ha.extends_) hij)
  splits hcode hq hpath := by
    have hwhole := ha.extends_.trans hb.extends_
    have hsplit := (hcode.second hwhole).get
    have hcode := hcode.first (.push (by simp))
    cases hpath with
    | here => exact absurd (hq.trans_le hwhole.size) (lt_irrefl _)
    | step h rest =>
      rcases (goes_split_iff hsplit).mp h with rfl | rfl
      · obtain ⟨j, k', hle, hij, hend⟩ := ha.splits (hcode.first hb.extends_) hq rest
        exact ⟨j, k', by omega, .inl hij, hend⟩
      · obtain ⟨j, k', hle, hij, hend⟩ :=
          hb.splits (hcode.second ha.extends_) (hq.trans_le ha.extends_.size) rest
        exact ⟨j, k', by omega, .inr hij, hend⟩

/-- A part that may be left out. -/
theorem Compiled.option (h : Compiled text base R code next result) :
    Compiled text base (fun i j => R i j ∨ i = j) code next
      (Program.emit result.2 (Program.choose greedy result.1 next)) where
  extends_ := h.extends_.trans (.push (choose_ne_done _ _))
  leads hcode hij := by
    have hchoose := (hcode.second h.extends_).get
    rcases hij with hij | rfl
    · exact .head ((goes_choose_iff hchoose).mpr (.inl rfl))
        (h.leads (hcode.first (.push (choose_ne_done _ _))) hij)
    · exact .single ((goes_choose_iff hchoose).mpr (.inr rfl))
  splits hcode hq hpath := by
    have hchoose := (hcode.second h.extends_).get
    cases hpath with
    | here => exact absurd (hq.trans_le h.extends_.size) (lt_irrefl _)
    | step hgo rest =>
      rcases (goes_choose_iff hchoose).mp hgo with rfl | rfl
      · obtain ⟨j, k', hle, hij, hend⟩ :=
          h.splits (hcode.first (.push (choose_ne_done _ _))) hq rest
        exact ⟨j, k', by omega, .inl hij, hend⟩
      · exact ⟨_, _, Nat.le_succ _, .inr rfl, rest⟩

/-! ## Repetition -/

/-- Some copies of a part in front of another one. -/
theorem Compiled.copies {f : Nat → Array Instr → Nat × Array Instr}
    (hf : ∀ next code, Compiled text base R code next (f next code)) (count : Nat)
    (h : Compiled text base R' code next result) :
    Compiled text base (fun i j => ∃ k, Steps R count i k ∧ R' k j) code next
      (Program.copies f count result.1 result.2) := by
  induction count generalizing R' result with
  | zero =>
    exact h.congr fun i j => ⟨fun hij => ⟨i, rfl, hij⟩, fun ⟨_, hk, hkj⟩ => hk ▸ hkj⟩
  | succ count ih =>
    refine (ih (h.seq (hf result.1 result.2))).congr fun i j => ?_
    constructor
    · rintro ⟨k, hik, l, hkl, hlj⟩
      exact ⟨l, hik.append (steps_one.mpr hkl), hlj⟩
    · rintro ⟨l, hil, hlj⟩
      obtain ⟨k, hik, hkl⟩ := hil.exists_of_add
      exact ⟨k, hik, l, steps_one.mp hkl, hlj⟩

/-- Some copies of a part, each of which may be the last. -/
theorem Compiled.optionalCopies {f : Nat → Array Instr → Nat × Array Instr}
    (hf : ∀ next code, Compiled text base R code next (f next code)) (count : Nat) {done : Nat}
    (h : Compiled text base (fun i j => ∃ n ≤ done, Steps R n i j) code next result) :
    Compiled text base (fun i j => ∃ n ≤ done + count, Steps R n i j) code next
      (Program.optionalCopies f greedy next count result.1 result.2) := by
  induction count generalizing done result with
  | zero => exact h
  | succ count ih =>
    have hone : Compiled text base (fun i j => ∃ n ≤ done + 1, Steps R n i j) code next
        (Program.emit (f result.1 result.2).2
          (Program.choose greedy (f result.1 result.2).1 next)) := by
      refine (h.seq (hf result.1 result.2)).option.congr fun i j => ?_
      constructor
      · rintro (⟨k, hik, n, hn, hkj⟩ | rfl)
        · exact ⟨n + 1, Nat.succ_le_succ hn, k, hik, hkj⟩
        · exact ⟨0, Nat.zero_le _, rfl⟩
      · rintro ⟨n | n, hn, hij⟩
        · exact .inr hij
        · obtain ⟨k, hik, hkj⟩ := hij
          exact .inl ⟨k, hik, n, Nat.le_of_succ_le_succ hn, hkj⟩
    refine (ih hone).congr fun i j => ?_
    rw [Nat.add_right_comm]
    rfl

section Loop

variable {body : Nat × Array Instr}

/-- The code of a loop: its body comes back to the address in front of it, which chooses between
the body and what follows. -/
def looped (code : Array Instr) (next : Nat) (greedy : Bool) (body : Nat × Array Instr) :
    Array Instr :=
  body.2.setIfInBounds code.size (Program.choose greedy body.1 next)

theorem getElem?_looped (h : Extends (code.push .done) body.2) (next : Nat) (greedy : Bool) :
    (looped code next greedy body)[pc]? =
      if pc = code.size then some (Program.choose greedy body.1 next) else body.2[pc]? := by
  have hsize := h.size
  rw [Array.size_push] at hsize
  rw [looped, Array.getElem?_setIfInBounds]
  split
  · rename_i heq
    rw [if_pos (by omega), if_pos heq.symm]
  · rename_i hne
    rw [if_neg (Ne.symm hne)]

theorem extends_looped (h : Extends (code.push .done) body.2) (next : Nat) (greedy : Bool) :
    Extends code (looped code next greedy body) := by
  have hsize := h.size
  rw [Array.size_push] at hsize
  refine ⟨?_, fun pc hpc => ?_, fun pc hpc => ?_⟩
  · rw [looped, Array.size_setIfInBounds]
    omega
  · rw [getElem?_looped h, if_neg hpc.ne, h.keeps pc (by rw [Array.size_push]; omega),
      Array.getElem?_push, if_neg hpc.ne]
  · rw [getElem?_looped h]
    split
    · simpa using choose_ne_done _ _
    · exact h.open_ pc (by rw [Array.size_push]; omega)

theorem Has.again (hcode : Has instrs code (looped code next greedy body))
    (h : Extends (code.push .done) body.2) :
    instrs[code.size]? = some (Program.choose greedy body.1 next) := by
  have hsize := h.size
  rw [Array.size_push] at hsize
  rw [hcode _ le_rfl (by rw [looped, Array.size_setIfInBounds]; omega), getElem?_looped h,
    if_pos rfl]

theorem Has.round (hcode : Has instrs code (looped code next greedy body))
    (h : Extends (code.push .done) body.2) : Has instrs (code.push .done) body.2 := by
  intro pc hpc hlt
  rw [Array.size_push] at hpc
  rw [hcode pc (by omega) (by rwa [looped, Array.size_setIfInBounds]), getElem?_looped h,
    if_neg (by omega)]

/-- From the address in front of the body any number of rounds leads to what follows. -/
theorem leads_again (h : Compiled text base R (code.push .done) code.size body)
    (hcode : Has instrs code (looped code next greedy body)) (hij : Steps R n i j) :
    Leads instrs text base (code.size, i) (next, j) := by
  have hchoose := hcode.again h.extends_
  induction n generalizing i with
  | zero => exact .single ((goes_choose_iff hchoose).mpr (.inr (by rw [show i = j from hij])))
  | succ n ih =>
    obtain ⟨k, hik, hkj⟩ := hij
    exact .head ((goes_choose_iff hchoose).mpr (.inl rfl))
      ((h.leads (hcode.round h.extends_) hik).trans (ih hkj))

theorem splits_again (h : Compiled text base R (code.push .done) code.size body)
    (hcode : Has instrs code (looped code next greedy body)) (hq : q < code.size)
    (hpath : Within instrs text base (q, m) k (code.size, i)) :
    ∃ j k', k' ≤ k ∧ (∃ n, Steps R n i j) ∧ Within instrs text base (q, m) k' (next, j) := by
  have hchoose := hcode.again h.extends_
  -- each round takes a step at least
  induction k using Nat.strong_induction_on generalizing i with
  | _ k ih =>
    cases hpath with
    | here => exact absurd hq (lt_irrefl _)
    | @step k _ _ hgo rest =>
      rcases (goes_choose_iff hchoose).mp hgo with rfl | rfl
      · obtain ⟨l, k', hle, hil, hagain⟩ :=
          h.splits (hcode.round h.extends_) (by rw [Array.size_push]; omega) rest
        obtain ⟨j, k'', hle', ⟨n, hlj⟩, hend⟩ := ih k' (by omega) hagain
        exact ⟨j, k'', by omega, ⟨n + 1, l, hil, hlj⟩, hend⟩
      · exact ⟨_, k, Nat.le_succ k, ⟨0, rfl⟩, rest⟩

/-- A loop that is entered in front of its body. -/
theorem Compiled.star (h : Compiled text base R (code.push .done) code.size body) :
    Compiled text base (fun i j => ∃ n, Steps R n i j) code next
      (code.size, looped code next greedy body) where
  extends_ := extends_looped h.extends_ next greedy
  leads hcode hij := by
    obtain ⟨n, hij⟩ := hij
    exact leads_again h hcode hij
  splits hcode hq hpath := splits_again h hcode hq hpath

/-- A loop that is entered at its body. -/
theorem Compiled.plus (h : Compiled text base R (code.push .done) code.size body) :
    Compiled text base (fun i j => ∃ n, Steps R (n + 1) i j) code next
      (body.1, looped code next greedy body) where
  extends_ := extends_looped h.extends_ next greedy
  leads hcode hij := by
    obtain ⟨n, k, hik, hkj⟩ := hij
    exact (h.leads (hcode.round h.extends_) hik).trans (leads_again h hcode hkj)
  splits hcode hq hpath := by
    obtain ⟨l, k', hle, hil, hagain⟩ :=
      h.splits (hcode.round h.extends_) (by rw [Array.size_push]; omega) hpath
    obtain ⟨j, k'', hle', ⟨n, hlj⟩, hend⟩ := splits_again h hcode hq hagain
    exact ⟨j, k'', hle'.trans hle, ⟨n, l, hil, hlj⟩, hend⟩

end Loop

/-! ## Expressions -/

/-- The program of an expression leads from the start of its spans to their ends. -/
theorem compiled_compile (text : Bytes) (base : Nat) (n : Node) (next : Nat) (code : Array Instr) :
    Compiled text base (n.Spans text base) code next (Program.compile n next code) := by
  induction n generalizing next code with
  | empty => exact compiled_empty text base next code
  | chars s =>
    refine compiled_emit (by simp) fun {instrs pc i y} h => ?_
    constructor
    · rintro ((h' | h' | ⟨h', -⟩) | (⟨h', hc, hs⟩ | ⟨h', -, -⟩)) <;> rw [h] at h' <;> cases h'
      exact ⟨_, ⟨_, _, hc, hs, rfl⟩, rfl⟩
    · rintro ⟨j, ⟨c, width, hc, hs, rfl⟩, rfl⟩
      exact .takes (.chars h hc hs)
  | bytes s =>
    refine compiled_emit (by simp) fun {instrs pc i y} h => ?_
    constructor
    · rintro ((h' | h' | ⟨h', -⟩) | (⟨h', -, -⟩ | ⟨h', hb, hs⟩)) <;> rw [h] at h' <;> cases h'
      exact ⟨_, ⟨_, hb, hs, rfl⟩, rfl⟩
    · rintro ⟨j, ⟨b, hb, hs, rfl⟩, rfl⟩
      exact .takes (.bytes h hb hs)
  | look l =>
    refine compiled_emit (by simp) fun {instrs pc i y} h => ?_
    constructor
    · rintro ((h' | h' | ⟨h', hl⟩) | (⟨h', -, -⟩ | ⟨h', -, -⟩)) <;> rw [h] at h' <;> cases h'
      exact ⟨_, ⟨hl, rfl⟩, rfl⟩
    · rintro ⟨j, ⟨hl, rfl⟩, rfl⟩
      exact .passes (.look h hl)
  | seq a b iha ihb => exact (ihb next code).seq (iha _ _)
  | alt a b iha ihb => exact (iha next code).alt (ihb next _)
  | group index body ih => exact ih next code
  | times body least most greedy ih =>
    have hbody := ih code.size (code.push .done)
    cases most with
    | some most =>
      have hnone : Compiled text base (fun i j => ∃ n ≤ 0, Steps (body.Spans text base) n i j) code
          next (next, code) := by
        refine (compiled_empty text base next code).congr fun i j => ?_
        constructor
        · exact fun h => ⟨0, le_rfl, h⟩
        · rintro ⟨n, hn, h⟩
          obtain rfl := Nat.le_zero.mp hn
          exact h
      refine (Compiled.copies ih least (Compiled.optionalCopies ih (most - least) hnone)).congr
        fun i j => ?_
      constructor
      · rintro ⟨k, hik, n, hn, hkj⟩
        refine ⟨least + n, Nat.le_add_right _ _, ?_, hik.append hkj⟩
        rintro _ ⟨⟩
        omega
      · rintro ⟨n, hleast, hmost, hij⟩
        obtain ⟨n, rfl⟩ := Nat.exists_eq_add_of_le hleast
        obtain ⟨k, hik, hkj⟩ := hij.exists_of_add
        have := hmost most rfl
        exact ⟨k, hik, n, by omega, hkj⟩
    | none =>
      have hplus (n : Nat) {i j : Nat} : (Node.times body n none greedy).Spans text base i j ↔
          ∃ m, Steps (body.Spans text base) (n + m) i j := by
        constructor
        · rintro ⟨m, hm, -, hij⟩
          obtain ⟨m, rfl⟩ := Nat.exists_eq_add_of_le hm
          exact ⟨m, hij⟩
        · rintro ⟨m, hij⟩
          exact ⟨n + m, Nat.le_add_right n m, by simp, hij⟩
      cases least with
      | zero =>
        simp only [Program.compile]
        split
        · refine hbody.star.congr fun i j => ?_
          simp only [hplus, Nat.zero_add]
        · refine hbody.plus.option.congr fun i j => ?_
          rw [hplus]
          constructor
          · rintro (⟨n, h⟩ | h)
            · exact ⟨n + 1, by rwa [Nat.zero_add]⟩
            · exact ⟨0, h⟩
          · rintro ⟨n | n, h⟩
            · exact .inr h
            · exact .inl ⟨n, by rwa [Nat.zero_add] at h⟩
      | succ least =>
        refine (Compiled.copies ih least hbody.plus).congr fun i j => ?_
        rw [hplus]
        constructor
        · rintro ⟨k, hik, n, hkj⟩
          exact ⟨n, by rw [Nat.succ_add_eq_add_succ]; exact hik.append hkj⟩
        · rintro ⟨n, h⟩
          rw [Nat.succ_add_eq_add_succ] at h
          obtain ⟨k, hik, hkj⟩ := h.exists_of_add
          exact ⟨k, hik, n, hkj⟩

/-! ## Matches -/

/-- The program of an expression leads to a match exactly where the expression spans the text. -/
theorem leads_ofNode_iff {n : Node} :
    (∃ pc, (Program.ofNode n).instrs[pc]? = some .done ∧ Leads (Program.ofNode n).instrs text base
      ((Program.ofNode n).start, i) (pc, j)) ↔ n.Spans text base i j := by
  have h := compiled_compile text base n 0 #[.done]
  have hall : Has (Program.ofNode n).instrs #[.done] (Program.compile n 0 #[.done]).2 :=
    fun _ _ _ => rfl
  constructor
  · rintro ⟨pc, hdone, hlead⟩
    have hpc : pc < 1 := by
      by_contra hge
      exact h.extends_.open_ pc (Nat.le_of_not_lt hge) hdone
    obtain rfl := Nat.lt_one_iff.mp hpc
    obtain ⟨k, hk⟩ := leads_iff_within.mp hlead
    obtain ⟨l, k', -, hil, hend⟩ := h.splits hall hpc hk
    -- nothing follows a match
    have hstop : (0, l) = (0, j) := by
      rcases (leads_iff_within.mpr ⟨k', hend⟩).cases_head with heq | ⟨z, hgo, -⟩
      · exact heq
      · rcases hgo with (h' | h' | ⟨h', -⟩) | (⟨h', -, -⟩ | ⟨h', -, -⟩) <;> rw [hdone] at h' <;>
          cases h'
    rwa [← (Prod.mk.inj hstop).2]
  · intro hij
    exact ⟨0, h.extends_.keeps 0 Nat.one_pos, h.leads hall hij⟩

/-- The end of a match that is found is the end of a span. -/
theorem spans_of_endFrom? {r : Regex} {n : Node} (hr : r.program = Program.ofNode n)
    {start stop : Nat} (h : r.endFrom? text base start = some stop) :
    n.Spans text base start stop := by
  have hlead := endFrom?_sound h
  rw [hr] at hlead
  exact leads_ofNode_iff.mp hlead

/-- An end is found if there is a span. -/
theorem not_spans_of_endFrom? {r : Regex} {n : Node} (hr : r.program = Program.ofNode n)
    {start : Nat} (hstart : start ≤ text.size) (h : r.endFrom? text base start = none)
    (stop : Nat) : ¬n.Spans text base start stop := by
  intro hspan
  obtain ⟨pc, hdone, hlead⟩ := leads_ofNode_iff.mpr hspan
  rw [← hr] at hdone hlead
  exact endFrom?_complete hstart h hdone hlead

end Glr.Regex
