import Glr.Grammar.Validate
import Mathlib.Data.List.Nodup

/-!
# Glr.Proofs.Grammar.Reachable

Which rules are reported as unreachable.  The names that can be reached are the least set with

```
the start rule
every name in an extra
every name in the rule of a name that can be reached
```

at any depth of rules.  The search keeps the names that it has entered apart from those that are
pending; what the former refer to is always among both, so when nothing is pending they are
closed.  Every step enters a name that was not entered before, and pays for what its rule refers
to, so the search has steps enough:

* `Grammar.mem_reachable_iff` — the names that are found are those that can be reached;
* `Grammar.unreachable_reported` — what is reported.
-/

namespace Glr

/-- A rule refers to a name, itself or in one of its parts. -/
inductive Rule.Refers (name : String) : Rule → Prop where
  | here {a : RuleAttributes} {c : Option Rule} {ms : List Rule} (h : a.name = some name) :
      Refers name (.node .symbol a c ms)
  | content {k : RuleKind} {a : RuleAttributes} {r : Rule} {ms : List Rule} (h : Refers name r) :
      Refers name (.node k a (some r) ms)
  | member {k : RuleKind} {a : RuleAttributes} {c : Option Rule} {m : Rule} {ms : List Rule}
      (hm : m ∈ ms) (h : Refers name m) : Refers name (.node k a c ms)

/-- The names that can be reached from the start rule and from the extras. -/
inductive Grammar.Reaches (g : Grammar) (start : String) : String → Prop where
  | start : g.Reaches start start
  | extra {r : Rule} {name : String} (hr : r ∈ g.extras.getD []) (h : r.Refers name) :
      g.Reaches start name
  | rule {other name : String} {r : Rule} (hother : g.Reaches start other)
      (hr : g.rules.get? other = some r) (h : r.Refers name) : g.Reaches start name

/-! ## References -/

namespace Rule

variable {name : String}

mutual

/-- What a rule refers to is the name of a symbol among its parts. -/
theorem exists_subrule_iff : ∀ {r : Rule},
    (∃ p ∈ r.subrules, p.symbolName? = some name) ↔ r.Refers name
  | .node k a c ms => by
    have hcontent := exists_subruleOption_iff (c := c)
    have hmembers : (∃ p ∈ subrulesList ms, p.symbolName? = some name) ↔
        ∃ m ∈ ms, m.Refers name := exists_subruleList_iff
    simp only [subrules, List.mem_cons, List.mem_append, or_and_right, exists_or, exists_eq_left,
      hcontent, hmembers]
    constructor
    · rintro (h | ⟨r, rfl, h⟩ | ⟨m, hm, h⟩)
      · by_cases hk : k = .symbol
        · subst hk
          exact .here (by simpa [symbolName?, isSymbol, kind, attributes] using h)
        · simp [symbolName?, isSymbol, kind, hk] at h
      · exact .content h
      · exact .member hm h
    · intro h
      cases h with
      | here h => exact .inl (by simpa [symbolName?, isSymbol, kind, attributes] using h)
      | content h => exact .inr (.inl ⟨_, rfl, h⟩)
      | member hm h => exact .inr (.inr ⟨_, hm, h⟩)

theorem exists_subruleOption_iff : ∀ {c : Option Rule},
    (∃ p ∈ subrulesOption c, p.symbolName? = some name) ↔ ∃ r, c = some r ∧ r.Refers name
  | none => by simp [subrulesOption]
  | some r => by simp [subrulesOption, exists_subrule_iff]

theorem exists_subruleList_iff : ∀ {ms : List Rule},
    (∃ p ∈ subrulesList ms, p.symbolName? = some name) ↔ ∃ m ∈ ms, m.Refers name
  | [] => by simp [subrulesList]
  | m :: ms => by
    have hrest : (∃ p ∈ subrulesList ms, p.symbolName? = some name) ↔
        ∃ m ∈ ms, m.Refers name := exists_subruleList_iff
    simp only [subrulesList, List.mem_append, List.mem_cons, or_and_right, exists_or,
      exists_eq_left, exists_subrule_iff, hrest]

end

@[simp] theorem mem_references_iff {r : Rule} : name ∈ r.references ↔ r.Refers name := by
  rw [references, List.mem_filterMap, exists_subrule_iff]

end Rule

namespace Grammar

variable {g : Grammar} {start name other : String} {pending seen : List String} {fuel : Nat}

/-- The names that the rule of a name refers to; an external has no rule. -/
def next (g : Grammar) (name : String) : List String :=
  match g.rules.get? name with
  | some r => r.references
  | none => []

@[simp] theorem mem_next_iff :
    name ∈ g.next other ↔ ∃ r, g.rules.get? other = some r ∧ r.Refers name := by
  unfold next
  split <;> simp_all

/-! ## Steps -/

/-- How many references there are in the rules that are not entered yet. -/
def owed (seen : List String) : List (String × Rule) → Nat
  | [] => 0
  | (name, r) :: entries =>
    (if seen.contains name then 0 else r.references.length) + owed seen entries

theorem reach_succ (g : Grammar) (fuel : Nat) (pending seen : List String) :
    g.reach (fuel + 1) pending seen =
      match pending.dropWhile seen.contains with
      | [] => seen
      | name :: rest => g.reach fuel (g.next name ++ rest) (name :: seen) := rfl

/-- Entering a name takes over what its rule refers to. -/
theorem owed_enter (h : name ∉ seen) (g : Grammar) :
    owed (name :: seen) g.rules.entries + (g.next name).length ≤ owed seen g.rules.entries := by
  have key (entries : List (String × Rule)) : owed (name :: seen) entries +
      ((entries.lookup name).elim 0 fun r => r.references.length) ≤ owed seen entries := by
    induction entries with
    | nil => simp [owed]
    | cons e rest ih =>
      obtain ⟨other, r⟩ := e
      by_cases he : other = name
      · subst he
        simp [owed, h]
        omega
      · have hne : (name == other) = false := by simpa using Ne.symm he
        simp [owed, List.lookup_cons, he, hne]
        omega
  have hnext : (g.next name).length =
      (g.rules.entries.lookup name).elim 0 fun r => r.references.length := by
    unfold next Dictionary.get?
    cases g.rules.entries.lookup name <;> rfl
  rw [hnext]
  exact key _

/-- Names that were entered before are passed over. -/
theorem entered_or_left_of_mem (seen : List String) (h : name ∈ pending) :
    name ∈ seen ∨ name ∈ pending.dropWhile seen.contains := by
  induction pending with
  | nil => contradiction
  | cons a rest ih =>
    rw [List.dropWhile_cons]
    split
    · rename_i ha
      rcases List.mem_cons.mp h with rfl | h
      · exact .inl (by simpa using ha)
      · exact ih h
    · exact .inr h

theorem notMem_of_dropWhile {rest : List String}
    (h : pending.dropWhile seen.contains = name :: rest) : name ∉ seen := by
  have := List.head?_dropWhile_not (seen.contains) pending
  simpa [h] using this

/-- No name is found but those that were entered before and those that can be reached from
pending ones. -/
theorem of_mem_reach {P : String → Prop} (hP : ∀ a, P a → ∀ b ∈ g.next a, P b)
    (hpending : ∀ a ∈ pending, P a) (hseen : ∀ a ∈ seen, P a) :
    ∀ a ∈ g.reach fuel pending seen, P a := by
  induction fuel generalizing pending seen with
  | zero => exact hseen
  | succ fuel ih =>
    rw [reach_succ]
    split
    · exact hseen
    · rename_i name rest hleft
      have hsuffix : ∀ a ∈ name :: rest, P a := fun a ha =>
        hpending a ((List.dropWhile_sublist _).subset (hleft ▸ ha))
      have hname := hsuffix name List.mem_cons_self
      refine ih (fun a ha => ?_) (List.forall_mem_cons.mpr ⟨hname, hseen⟩)
      rcases List.mem_append.mp ha with ha | ha
      · exact hP name hname a ha
      · exact hsuffix a (List.mem_cons_of_mem _ ha)

/-- What the entered names refer to is entered or pending. -/
def Tracked (g : Grammar) (pending seen : List String) : Prop :=
  ∀ a ∈ seen, ∀ b ∈ g.next a, b ∈ seen ∨ b ∈ pending

/-- With steps enough everything that is pending is found, and all that it leads to. -/
theorem reach_closed (htracked : g.Tracked pending seen)
    (hfuel : pending.length + owed seen g.rules.entries ≤ fuel) :
    (∀ a, a ∈ seen ∨ a ∈ pending → a ∈ g.reach fuel pending seen) ∧
      g.Tracked [] (g.reach fuel pending seen) := by
  induction fuel generalizing pending seen with
  | zero =>
    obtain rfl : pending = [] := List.eq_nil_of_length_eq_zero (by omega)
    exact ⟨fun a ha => ha.resolve_right List.not_mem_nil, htracked⟩
  | succ fuel ih =>
    have hleft (a : String) (ha : a ∈ pending) : a ∈ seen ∨ a ∈ pending.dropWhile seen.contains :=
      entered_or_left_of_mem seen ha
    rw [reach_succ]
    split
    · rename_i hnil
      have hseen (a : String) (ha : a ∈ seen ∨ a ∈ pending) : a ∈ seen :=
        ha.elim id fun ha => by simpa [hnil] using hleft a ha
      exact ⟨hseen, fun a ha b hb => .inl (hseen b (htracked a ha b hb))⟩
    · rename_i name rest hcons
      have hkept (a : String) (ha : a ∈ seen ∨ a ∈ pending) :
          a ∈ name :: seen ∨ a ∈ g.next name ++ rest := by
        have := hleft a
        simp [hcons] at this ⊢
        tauto
      have hsteps := owed_enter (notMem_of_dropWhile hcons) g
      have hlength : rest.length < pending.length := by
        have := (List.dropWhile_sublist seen.contains (l := pending)).length_le
        simp [hcons] at this
        omega
      have htracked : g.Tracked (g.next name ++ rest) (name :: seen) := fun a ha b hb => by
        rcases List.mem_cons.mp ha with rfl | ha
        · exact .inr (List.mem_append_left _ hb)
        · exact hkept b (htracked a ha b hb)
      obtain ⟨hall, hclosed⟩ := ih htracked (by simp; omega)
      exact ⟨fun a ha => hall a (hkept a ha), hclosed⟩

/-- The bound of the search: what is pending at first, and what all rules refer to. -/
theorem owed_nil (entries : List (String × Rule)) (n : Nat) :
    (entries.map Prod.snd).foldl (fun n r => n + r.references.length) n = n + owed [] entries := by
  induction entries generalizing n with
  | nil => simp [owed]
  | cons e rest ih =>
    rw [List.map_cons, List.foldl_cons, ih]
    simp [owed]
    omega

theorem mem_reachable_iff : name ∈ g.reachable start ↔ g.Reaches start name := by
  have hroots (a : String) : a ∈ start :: (g.extras.getD []).flatMap Rule.references ↔
      a = start ∨ ∃ r ∈ g.extras.getD [], r.Refers a := by
    simp
  constructor
  · refine of_mem_reach (P := g.Reaches start) (fun a ha b hb => ?_) (fun a ha => ?_) (by simp) name
    · obtain ⟨r, hr, h⟩ := mem_next_iff.mp hb
      exact .rule ha hr h
    · rcases (hroots a).mp ha with rfl | ⟨r, hr, h⟩
      · exact .start
      · exact .extra hr h
  · intro h
    have htracked : g.Tracked (start :: (g.extras.getD []).flatMap Rule.references) [] := by
      simp [Tracked]
    obtain ⟨hall, hclosed⟩ :=
      reach_closed htracked (Nat.le_of_eq (owed_nil g.rules.entries _).symm)
    change name ∈ g.reach _ _ _
    rw [Dictionary.values]
    generalize g.reach _ _ _ = found at hall hclosed
    induction h with
    | start => exact hall start (.inr ((hroots start).mpr (.inl rfl)))
    | extra hr h => exact hall _ (.inr ((hroots _).mpr (.inr ⟨_, hr, h⟩)))
    | rule _ hr h ih => exact (hclosed _ ih _ (mem_next_iff.mpr ⟨_, hr, h⟩)).resolve_right (by simp)

/-! ## Reports -/

/-- The report that a rule cannot be reached. -/
def unreachableReport (name : String) : Log.Event :=
  ⟨.warn, "unreachable rule", [("rule", .string name)]⟩

/-- Whether a report is about a rule that cannot be reached. -/
def isUnreachableReport (e : Log.Event) : Bool := e.message == "unreachable rule"

/-- No other check reports that a rule cannot be reached. -/
theorem filter_validationEvents (g : Grammar) (start : String) :
    (g.validationEvents start).filter isUnreachableReport =
      (g.unreachableRules start).map unreachableReport := by
  have hown : (g.unreachableEvents start).filter isUnreachableReport =
      (g.unreachableRules start).map unreachableReport := by
    refine List.filter_eq_self.mpr fun e he => ?_
    obtain ⟨name, -, rfl⟩ := List.mem_map.mp he
    rfl
  have hrecursion : g.leftRecursionEvents.filter isUnreachableReport = [] := by
    refine List.filter_eq_nil_iff.mpr fun e he => ?_
    obtain ⟨_, -, rfl⟩ := List.mem_map.mp he
    simp [isUnreachableReport, ruleEvent]
  have hmixed : g.mixedPrecedenceEvents.filter isUnreachableReport = [] := by
    refine List.filter_eq_nil_iff.mpr fun e he => ?_
    simp only [mixedPrecedenceEvents, List.mem_filterMap, Option.ite_none_right_eq_some] at he
    obtain ⟨_, -, -, ⟨⟩⟩ := he
    simp [isUnreachableReport, ruleEvent]
  have hundeclared : g.undeclaredPrecedenceEvents.filter isUnreachableReport = [] := by
    refine List.filter_eq_nil_iff.mpr fun e he => ?_
    simp only [undeclaredPrecedenceEvents, List.mem_flatMap, List.mem_filterMap,
      Option.ite_none_left_eq_some] at he
    obtain ⟨_, -, _, -, -, ⟨⟩⟩ := he
    simp [isUnreachableReport]
  simp [validationEvents, hown, hrecursion, hmixed, hundeclared]

theorem mem_unreachableRules_iff : name ∈ g.unreachableRules start ↔
    name ∈ g.rules.keys ∧ name ∉ g.inlined.getD [] ∧ ¬g.Reaches start name := by
  simp [unreachableRules, mem_reachable_iff, and_comm]

/-- A grammar that is not refused is reported to have unreachable rules: in the order of their
declaration and each once, those that are not declared inline and that no reference leads to, from
the start rule and the extras on. -/
theorem unreachable_reported {g : Grammar} {events : List Log.Event}
    (h : g.validate = .ok events) :
    ∃ (start : String) (names : List String), g.startRule? = some start ∧
      events.filter isUnreachableReport = names.map unreachableReport ∧
      names.Sublist g.rules.keys ∧ names.Nodup ∧
      ∀ name, name ∈ names ↔
        name ∈ g.rules.keys ∧ name ∉ g.inlined.getD [] ∧ ¬g.Reaches start name := by
  unfold validate at h
  split at h
  · contradiction
  · rename_i start hstart
    have hsublist : (g.unreachableRules start).Sublist g.rules.keys := List.filter_sublist
    refine ⟨start, g.unreachableRules start, hstart, ?_, hsublist,
      hsublist.nodup g.rules.nodup, fun name => mem_unreachableRules_iff⟩
    split at h
    · contradiction
    · split at h
      · contradiction
      · rw [← Except.ok.inj h, filter_validationEvents]

/-- Two rules that lead to each other only, with an external, a rule that is declared inline and
one that is an extra alone. -/
def islands : Grammar :=
  { name := "islands"
    extras := some [.token (.sym "gap")]
    externals := some [.sym "outside"]
    inlined := some ["spare"] : Grammar }
    |>.addRule "s" (.seq [.sym "outside", .many (.sym "near")])
    |>.addRule "there" (.sym "back")
    |>.addRule "near" (.string "n")
    |>.addRule "back" (.choice [.sym "there", .sym "near"])
    |>.addRule "spare" (.sym "there")
    |>.addRule "gap" (.sym "blank")
    |>.addRule "blank" (.pattern " ")

theorem unreachable_reported_islands : ∃ events, islands.validate = .ok events ∧
    events.filter isUnreachableReport = [unreachableReport "there", unreachableReport "back"] ∧
    islands.Reaches "s" "near" ∧ ¬islands.Reaches "s" "back" := by
  have h : islands.validate = .ok [unreachableReport "there", unreachableReport "back"] := by rfl
  obtain ⟨start, names, hstart, hreports, -, -, hnames⟩ := unreachable_reported h
  obtain rfl : "s" = start := Option.some.inj hstart
  have hinjective : Function.Injective unreachableReport := fun a b h => by
    simpa [unreachableReport] using h
  obtain rfl : ["there", "back"] = names := List.map_injective_iff.mpr hinjective hreports
  refine ⟨_, h, hreports, ?_, ((hnames "back").mp (by simp)).2.2⟩
  by_contra hnear
  simpa using (hnames "near").mpr ⟨by decide, by decide, hnear⟩

end Grammar

end Glr
