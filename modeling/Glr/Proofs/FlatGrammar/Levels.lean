import Glr.FlatGrammar.Flatten
import Mathlib.Order.Defs.Unbundled

/-!
# Glr.Proofs.FlatGrammar.Levels

The levels of named precedences.  A list is numbered from its own end,

```
[x₁, x₂, …, xₙ]     x₁ has level n, x₂ has level n - 1, …, xₙ has level 1
```

and the first list that has a name decides the level of the name.  So two names that one list
decides are ordered as the lists say, and two names that different lists decide are ordered by
their places in those:

* `Flatten.lookup_of_decides` — the level of a name, from the list that decides;
* `Flatten.levels_ordered` — the levels of two names that some list orders.
-/

namespace Glr

/-- The name that an entry of a precedence list stands for. -/
def Rule.levelName? (r : Rule) : Option String := r.literal? <|> r.symbolName?

namespace Flatten

variable {g : Grammar} {entries xs ys : List Rule} {name x y : String} {i j : Nat}

/-- A name stands at a place of a precedence list. -/
def Stands (entries : List Rule) (i : Nat) (name : String) : Prop :=
  entries[i]?.bind Rule.levelName? = some name

/-- A precedence list has one name before another: the first binds tighter. -/
def Tighter (entries : List Rule) (x y : String) : Prop :=
  ∃ i j, i < j ∧ Stands entries i x ∧ Stands entries j y

/-- Some strict order of the names agrees with all precedence lists. -/
def Consistent (g : Grammar) : Prop :=
  ∃ lt : String → String → Prop, IsStrictOrder String lt ∧
    ∀ entries ∈ g.precedences.getD [], ∀ x y, Tighter entries x y → lt x y

/-- The first place of a name in a precedence list. -/
def place? (name : String) (entries : List Rule) : Option Nat :=
  entries.findIdx? fun r => r.levelName? == some name

/-- A precedence list is the first that has a name, and has it at a place first. -/
def Decides (g : Grammar) (entries : List Rule) (i : Nat) (name : String) : Prop :=
  ∃ before after, g.precedences.getD [] = before ++ entries :: after ∧
    (∀ earlier ∈ before, place? name earlier = none) ∧ place? name entries = some i

/-! ## Places -/

theorem stands_of_place? (h : place? name entries = some i) : Stands entries i name := by
  obtain ⟨hi, hname, -⟩ := List.findIdx?_eq_some_iff_getElem.mp h
  simpa [Stands, hi] using hname

theorem place?_of_stands (h : Stands entries i name) : ∃ j, place? name entries = some j := by
  obtain ⟨r, hr, hname⟩ := Option.bind_eq_some_iff.mp h
  refine Option.isSome_iff_exists.mp ?_
  rw [place?, List.findIdx?_isSome, List.any_eq_true]
  exact ⟨r, List.mem_of_getElem? hr, by simp [hname]⟩

theorem place?_cons (name : String) (r : Rule) (rest : List Rule) :
    place? name (r :: rest) =
      if r.levelName? = some name then some 0 else (place? name rest).map (· + 1) := by
  simp [place?, List.findIdx?_cons]

/-- The levels that a list of `n` names gives from its place `k` on. -/
def levelsFrom (n k : Nat) (entries : List Rule) : List (String × Int) :=
  (entries.zipIdx k).filterMap fun e => e.1.levelName?.map fun name => (name, (n : Int) - e.2)

theorem precedenceLevels_eq (g : Grammar) :
    precedenceLevels g =
      (g.precedences.getD []).flatMap fun entries => levelsFrom entries.length 0 entries := rfl

theorem levelsFrom_cons (n k : Nat) (r : Rule) (rest : List Rule) :
    levelsFrom n k (r :: rest) =
      (r.levelName?.map fun name => (name, (n : Int) - k)).toList ++ levelsFrom n (k + 1) rest := by
  rw [levelsFrom, List.zipIdx_cons, List.filterMap_cons, levelsFrom]
  cases r.levelName? <;> rfl

theorem lookup_levelsFrom (name : String) (n k : Nat) (entries : List Rule) :
    (levelsFrom n k entries).lookup name =
      (place? name entries).map fun i => (n : Int) - (k + i : Nat) := by
  induction entries generalizing k with
  | nil => rfl
  | cons r rest ih =>
    have hnext : ((place? name rest).map (· + 1)).map (fun i => (n : Int) - (k + i : Nat)) =
        (levelsFrom n (k + 1) rest).lookup name := by
      rw [ih, Option.map_map]
      exact congrArg (Option.map · _) (funext fun i => by simp; omega)
    rw [levelsFrom_cons, place?_cons]
    cases hr : r.levelName? with
    | none => simpa using hnext.symm
    | some other =>
      by_cases hname : other = name
      · simp [hname]
      · have hne : (name == other) = false := by simpa using Ne.symm hname
        simpa [List.lookup_cons, hne, hname] using hnext.symm

/-! ## Lists that decide -/

theorem lookup_of_decides (h : Decides g entries i name) :
    (precedenceLevels g).lookup name = some ((entries.length : Int) - i) := by
  obtain ⟨before, after, hlists, hbefore, hplace⟩ := h
  have hnone : (before.flatMap fun entries => levelsFrom entries.length 0 entries).lookup name =
      none := by
    refine List.lookup_eq_none_iff.mpr fun e he => ?_
    obtain ⟨earlier, hearlier, he⟩ := List.mem_flatMap.mp he
    have hlookup := lookup_levelsFrom name earlier.length 0 earlier
    rw [hbefore earlier hearlier, Option.map_none, List.lookup_eq_none_iff] at hlookup
    exact hlookup e he
  rw [precedenceLevels_eq, hlists, List.flatMap_append, List.flatMap_cons, List.lookup_append,
    hnone, List.lookup_append, lookup_levelsFrom, hplace]
  simp

/-- Of the lists that have a name, one is the first. -/
theorem exists_decides (hentries : entries ∈ g.precedences.getD []) (h : Stands entries i name) :
    ∃ xs j, Decides g xs j name := by
  obtain ⟨j, hj⟩ := place?_of_stands h
  have hsome : ((g.precedences.getD []).findSome? (place? name)).isSome :=
    List.findSome?_isSome_iff.mpr ⟨entries, hentries, by simp [hj]⟩
  obtain ⟨j, hj⟩ := Option.isSome_iff_exists.mp hsome
  obtain ⟨before, xs, after, hlists, hplace, hbefore⟩ := List.findSome?_eq_some_iff.mp hj
  exact ⟨xs, j, before, after, hlists, hbefore, hplace⟩

/-- A precedence that is given by name is not given as a number. -/
theorem precedence?_eq_none {r : Rule} (h : r.precedenceName? = some name) :
    r.precedence? = none := by
  have htext : r.text? = some name := by
    unfold Rule.precedenceName? at h
    split at h <;> simp_all
  unfold Rule.text? at htext
  unfold Rule.precedence?
  split <;> simp_all

theorem level_of_decides {r : Rule} (h : Decides g entries i name)
    (hr : r.precedenceName? = some name) :
    precedenceLevel g r = .ok ((entries.length : Int) - i) := by
  simp [precedenceLevel, precedence?_eq_none hr, hr, lookup_of_decides h]

/-- One list orders the names that it decides. -/
theorem Decides.lt (hg : Consistent g) (hentries : entries ∈ g.precedences.getD [])
    (h : Tighter entries x y) (hx : Decides g xs i x) (hy : Decides g xs j y) : i < j := by
  obtain ⟨lt, hstrict, hagrees⟩ := hg
  obtain ⟨before, after, hlists, -, hi⟩ := hx
  obtain ⟨-, -, -, -, hj⟩ := hy
  have hlt : lt x y := hagrees entries hentries x y h
  have hxs : xs ∈ g.precedences.getD [] := by simp [hlists]
  rcases Nat.lt_trichotomy i j with hij | rfl | hji
  · exact hij
  · have : x = y := by
      simpa [Stands] using (stands_of_place? hi).symm.trans (stands_of_place? hj)
    exact absurd (this ▸ hlt) (hstrict.irrefl x)
  · have hback : lt y x :=
      hagrees xs hxs y x ⟨j, i, hji, stands_of_place? hj, stands_of_place? hi⟩
    exact absurd (hstrict.trans _ _ _ hlt hback) (hstrict.irrefl x)

/-- In consistent lists of which one has a name before another, both names have a level: the one
that the first list with the name gives it.  Where that is the same list, the first name binds
tighter; where it is not, each level counts from the end of a list of its own. -/
theorem levels_ordered {g : Grammar} {entries : List Rule} {x y : String} (hg : Consistent g)
    (hentries : entries ∈ g.precedences.getD []) (h : Tighter entries x y) :
    ∃ xs ys i j, Decides g xs i x ∧ Decides g ys j y ∧
      (∀ r, r.precedenceName? = some x → precedenceLevel g r = .ok ((xs.length : Int) - i)) ∧
      (∀ r, r.precedenceName? = some y → precedenceLevel g r = .ok ((ys.length : Int) - j)) ∧
      (xs = ys → (ys.length : Int) - j < xs.length - i) := by
  obtain ⟨_, _, -, hx, hy⟩ := id h
  obtain ⟨xs, i, hxs⟩ := exists_decides hentries hx
  obtain ⟨ys, j, hys⟩ := exists_decides hentries hy
  refine ⟨xs, ys, i, j, hxs, hys, fun _ => level_of_decides hxs, fun _ => level_of_decides hys, ?_⟩
  rintro rfl
  have := hxs.lt hg hentries h hys
  omega

/-- Operators whose precedences are in two lists that share a name. -/
def shared : Grammar :=
  ({ name := "shared" } : Grammar)
    |>.addPrecedences ["times", "plus"]
    |>.addPrecedences ["plus", "equals"]
    |>.addRule "e" (.choice [
      .precNamed "times" (.seq [.sym "e", .string "*", .sym "e"]),
      .precNamed "plus" (.seq [.sym "e", .string "+", .sym "e"]),
      .precNamed "equals" (.seq [.sym "e", .string "=", .sym "e"]),
      .string "x"])

theorem Tighter.of_pair {a b : String} (h : Tighter [.string a, .string b] x y) :
    x = a ∧ y = b := by
  obtain ⟨i, j, hij, hx, hy⟩ := h
  have hj : j < 2 := by
    obtain ⟨r, hr, -⟩ := Option.bind_eq_some_iff.mp hy
    exact (List.getElem?_eq_some_iff.mp hr).1
  obtain ⟨rfl, rfl⟩ : i = 0 ∧ j = 1 := by omega
  exact ⟨(Option.some.inj hx).symm, (Option.some.inj hy).symm⟩

theorem shared_consistent : Consistent shared := by
  let rank (name : String) : Nat := ["equals", "plus", "times"].idxOf name
  refine ⟨fun x y => rank y < rank x,
    { irrefl := fun x => Nat.lt_irrefl _, trans := fun _ _ _ h h' => Nat.lt_trans h' h },
    fun entries hentries x y h => ?_⟩
  have hlists : shared.precedences.getD [] =
      [[.string "times", .string "plus"], [.string "plus", .string "equals"]] := rfl
  rw [hlists, List.mem_cons, List.mem_singleton] at hentries
  rcases hentries with rfl | rfl
  · obtain ⟨rfl, rfl⟩ := h.of_pair
    decide
  · obtain ⟨rfl, rfl⟩ := h.of_pair
    decide

/-- The shared name has the level of the list that has it last, and so has the name that the
other list puts behind it. -/
theorem levels_ordered_shared : ∃ xs ys i j,
    Decides shared xs i "plus" ∧ Decides shared ys j "equals" ∧
      (xs.length : Int) - i = 1 ∧ (ys.length : Int) - j = 1 := by
  have hlisted : [.string "plus", .string "equals"] ∈ shared.precedences.getD [] :=
    List.mem_cons_of_mem _ List.mem_cons_self
  have htighter : Tighter [.string "plus", .string "equals"] "plus" "equals" :=
    ⟨0, 1, Nat.zero_lt_one, rfl, rfl⟩
  obtain ⟨xs, ys, i, j, hx, hy, hplus, hequals, -⟩ :=
    levels_ordered shared_consistent hlisted htighter
  exact ⟨xs, ys, i, j, hx, hy,
    (Except.ok.inj (hplus (.precNamed "plus" .blank) rfl)).symm,
    (Except.ok.inj (hequals (.precNamed "equals" .blank) rfl)).symm⟩

end Flatten

end Glr
