import Glr.Grammar.Basic
import Glr.Proofs.Json.Printed

/-!
# Glr.Proofs.Json.Decoded

Documents that are decoded to the value they were encoded from.  A decoder `d` with
budget `n` takes the document `f a` back to `a` if the brackets of the document fit
the budget:

```
P a → (f a).depth ≤ n → d n (f a) = some a          (Reads)
d n v = some a → P a ∧ (f a).depth ≤ n              (Keeps)
```

`P` says what the type of `a` leaves open, such as the width of a number.  The second
line is what makes a document that was read writable again: it is decoded with the
budget that its own encoding needs.

Each way to build a decoder has one lemma for either line.  A record is written as the
fields that are `present`, so a field that may be left out is one that is looked up and
not found.
-/

namespace Glr

namespace Dictionary

variable {α : Type}

theorem entries_insert_of_not_mem {d : Dictionary α} {key : String} (h : key ∉ d.keys)
    (value : α) : (d.insert key value).entries = d.entries ++ [(key, value)] := by
  have h' : key ∉ d.entries.map Prod.fst := h
  rw [insert, dif_neg h']

theorem mem_entries_insert {d : Dictionary α} {key : String} {value : α} {e : String × α}
    (h : e ∈ (d.insert key value).entries) : e = (key, value) ∨ e ∈ d.entries := by
  unfold insert at h
  split at h
  · obtain ⟨e', he', rfl⟩ := List.mem_map.mp h
    split
    · exact .inl rfl
    · exact .inr he'
  · rcases List.mem_append.mp h with h | h
    · exact .inr h
    · exact .inl (List.mem_singleton.mp h)

/-- Names that are all new are put in as they come. -/
theorem entries_foldl_insert (entries : List (String × α)) (d : Dictionary α)
    (h : ((d.entries ++ entries).map Prod.fst).Nodup) :
    (entries.foldl (fun d e => d.insert e.1 e.2) d).entries = d.entries ++ entries := by
  induction entries generalizing d with
  | nil => simp
  | cons e es ih =>
    have hnew : e.1 ∉ d.keys := by
      rw [List.map_append, List.nodup_append] at h
      exact fun hmem => h.2.2 _ hmem _ (by simp) rfl
    have hentries := entries_insert_of_not_mem hnew e.2
    rw [List.foldl_cons, ih _ (by simpa [hentries] using h), hentries]
    simp

/-- A dictionary is the one of its own entries. -/
theorem ofList_entries (d : Dictionary α) : ofList d.entries = d := by
  obtain ⟨entries, hnodup⟩ := d
  have h := entries_foldl_insert entries empty (by simpa [empty] using hnodup)
  show (⟨_, _⟩ : Dictionary α) = _
  congr 1

theorem mem_entries_ofList {entries : List (String × α)} {e : String × α}
    (h : e ∈ (ofList entries).entries) : e ∈ entries := by
  have hfold : ∀ (entries : List (String × α)) (d : Dictionary α),
      e ∈ (entries.foldl (fun d e => d.insert e.1 e.2) d).entries → e ∈ d.entries ++ entries := by
    intro entries
    induction entries with
    | nil => simp
    | cons e' es ih =>
      intro d h
      rcases List.mem_append.mp (ih _ h) with h | h
      · rcases mem_entries_insert h with rfl | h <;> simp [*]
      · simp [h]
  simpa [empty] using hfold entries empty h

end Dictionary

namespace Json

/-! ## How deep a document nests -/

mutual

/-- How many brackets stand open at once in a value. -/
def depth : Json → Nat
  | .array items => itemsDepth items + 1
  | .object members => membersDepth members + 1
  | _ => 0

/-- How many brackets stand open at once in one of some values. -/
def itemsDepth : List Json → Nat
  | [] => 0
  | v :: vs => max (depth v) (itemsDepth vs)

/-- How many brackets stand open at once in one of some members. -/
def membersDepth : List (String × Json) → Nat
  | [] => 0
  | m :: ms => max (depth m.2) (membersDepth ms)

end

theorem itemsDepth_le_iff {items : List Json} {n : Nat} :
    itemsDepth items ≤ n ↔ ∀ v ∈ items, v.depth ≤ n := by
  induction items with
  | nil => simp [itemsDepth]
  | cons v vs ih => simp only [itemsDepth, Nat.max_le, ih, List.forall_mem_cons]

theorem membersDepth_le_iff {members : List (String × Json)} {n : Nat} :
    membersDepth members ≤ n ↔ ∀ m ∈ members, m.2.depth ≤ n := by
  induction members with
  | nil => simp [membersDepth]
  | cons m ms ih => simp only [membersDepth, Nat.max_le, ih, List.forall_mem_cons]

theorem depth_array_le_iff {items : List Json} {n : Nat} :
    (Json.array items).depth ≤ n ↔ ∃ k, n = k + 1 ∧ ∀ v ∈ items, v.depth ≤ k := by
  simp only [depth, ← itemsDepth_le_iff]
  constructor
  · exact fun h => ⟨n - 1, by omega, by omega⟩
  · rintro ⟨k, rfl, h⟩
    omega

theorem depth_object_le_iff {members : List (String × Json)} {n : Nat} :
    (Json.object members).depth ≤ n ↔ ∃ k, n = k + 1 ∧ ∀ m ∈ members, m.2.depth ≤ k := by
  simp only [depth, ← membersDepth_le_iff]
  constructor
  · exact fun h => ⟨n - 1, by omega, by omega⟩
  · rintro ⟨k, rfl, h⟩
    omega

namespace Decode

variable {α : Type} {n : Nat} {d : Decoder α} {f : α → Json} {P : α → Prop}

/-- With this budget a decoder takes documents back to the values they were written for. -/
def Reads (n : Nat) (d : Decoder α) (f : α → Json) (P : α → Prop) : Prop :=
  ∀ a, P a → (f a).depth ≤ n → d n (f a) = some a

/-- What a decoder reads with this budget is written inside it. -/
def Keeps (n : Nat) (d : Decoder α) (f : α → Json) (P : α → Prop) : Prop :=
  ∀ v a, d n v = some a → P a ∧ (f a).depth ≤ n

/-- A decoder that goes on after another, step by step. -/
theorem bind_eq_some_iff {β : Type} {x : Option α} {next : α → Option β} {b : β} :
    x >>= next = some b ↔ ∃ a, x = some a ∧ next a = some b :=
  Option.bind_eq_some_iff

/-! ## Scalars -/

theorem reads_string : Reads n string .string fun _ => True := fun _ _ _ => rfl

theorem keeps_string : Keeps n string .string fun _ => True :=
  fun _ _ _ => ⟨trivial, Nat.zero_le n⟩

theorem reads_bool : Reads n bool .bool fun _ => True := fun _ _ _ => rfl

theorem keeps_bool : Keeps n bool .bool fun _ => True := fun _ _ _ => ⟨trivial, Nat.zero_le n⟩

theorem reads_intIn {low high : Int} :
    Reads n (intIn low high) .int fun i => low ≤ i ∧ i ≤ high := fun _ h _ => if_pos h

theorem keeps_intIn {low high : Int} :
    Keeps n (intIn low high) .int fun i => low ≤ i ∧ i ≤ high := by
  intro v i h
  cases v with
  | int j =>
    simp only [intIn, Option.ite_none_right_eq_some, Option.some.injEq] at h
    exact ⟨h.2 ▸ h.1, Nat.zero_le n⟩
  | _ => contradiction

theorem reads_natBelow {bound : Nat} : Reads n (natBelow bound) .nat (· < bound) := by
  intro i h _
  show (if _ then _ else _) = _
  rw [if_pos (by omega)]
  rfl

/-! ## Lists and dictionaries -/

theorem mapM_map {α β : Type} {f : α → β} {d : β → Option α} {l : List α}
    (h : ∀ a ∈ l, d (f a) = some a) : (l.map f).mapM d = some l := by
  induction l with
  | nil => rfl
  | cons a l ih =>
    rw [List.map_cons, List.mapM_cons, h a List.mem_cons_self,
      ih fun b hb => h b (List.mem_cons_of_mem _ hb)]
    rfl

theorem exists_of_mem_mapM {α β : Type} {d : β → Option α} {l : List β} {as : List α}
    (h : l.mapM d = some as) {a : α} (ha : a ∈ as) : ∃ v ∈ l, d v = some a := by
  induction l generalizing as with
  | nil =>
    obtain rfl : [] = as := by simpa using h
    contradiction
  | cons v vs ih =>
    rw [List.mapM_cons] at h
    simp only [bind_eq_some_iff, Option.pure_def, Option.some.injEq] at h
    obtain ⟨b, hb, bs, hbs, rfl⟩ := h
    rcases List.mem_cons.mp ha with rfl | ha
    · exact ⟨v, List.mem_cons_self, hb⟩
    · obtain ⟨w, hw, hwa⟩ := ih hbs ha
      exact ⟨w, List.mem_cons_of_mem _ hw, hwa⟩

theorem Reads.list (h : ∀ k < n, Reads k d f P) :
    Reads n (list d) (Json.list f) fun as => ∀ a ∈ as, P a := by
  intro as has hdepth
  obtain ⟨k, rfl, hitems⟩ := depth_array_le_iff.mp hdepth
  exact mapM_map fun a ha =>
    h k (Nat.lt_succ_self k) a (has a ha) (hitems _ (List.mem_map_of_mem ha))

theorem Keeps.list (h : ∀ k < n, Keeps k d f P) :
    Keeps n (list d) (Json.list f) fun as => ∀ a ∈ as, P a := by
  intro v as hv
  unfold Decode.list at hv
  split at hv
  · rename_i k items
    have hmem : ∀ a ∈ as, P a ∧ (f a).depth ≤ k := fun a ha =>
      let ⟨w, _, hw⟩ := exists_of_mem_mapM hv ha
      h k (Nat.lt_succ_self k) w a hw
    refine ⟨fun a ha => (hmem a ha).1, depth_array_le_iff.mpr ⟨k, rfl, fun w hw => ?_⟩⟩
    obtain ⟨a, ha, rfl⟩ := List.mem_map.mp hw
    exact (hmem a ha).2
  · contradiction

theorem Reads.dictionary (h : ∀ k < n, Reads k d f P) :
    Reads n (dictionary d) (Grammar.encodeDictionary f) fun dict =>
      ∀ e ∈ dict.entries, P e.2 := by
  intro dict hdict hdepth
  obtain ⟨k, rfl, hmembers⟩ := depth_object_le_iff.mp hdepth
  have hentry : ∀ e ∈ dict.entries, (d k (f e.2)).map (fun v => (e.1, v)) = some e := by
    intro e he
    rw [h k (Nat.lt_succ_self k) e.2 (hdict e he) (hmembers _ (List.mem_map_of_mem he))]
    rfl
  show Option.map Dictionary.ofList (List.mapM _ (dict.entries.map _)) = _
  rw [mapM_map hentry, Option.map_some, Dictionary.ofList_entries]

theorem Keeps.dictionary (h : ∀ k < n, Keeps k d f P) :
    Keeps n (dictionary d) (Grammar.encodeDictionary f) fun dict =>
      ∀ e ∈ dict.entries, P e.2 := by
  intro v dict hv
  unfold Decode.dictionary at hv
  split at hv
  · rename_i k members
    obtain ⟨entries, hentries, rfl⟩ := Option.map_eq_some_iff.mp hv
    have hmem : ∀ e ∈ (Dictionary.ofList entries).entries, P e.2 ∧ (f e.2).depth ≤ k := by
      intro e he
      obtain ⟨m, -, hm⟩ := exists_of_mem_mapM hentries (Dictionary.mem_entries_ofList he)
      obtain ⟨a, ha, rfl⟩ := Option.map_eq_some_iff.mp hm
      exact h k (Nat.lt_succ_self k) m.2 a ha
    refine ⟨fun e he => (hmem e he).1, depth_object_le_iff.mpr ⟨k, rfl, fun m hm => ?_⟩⟩
    obtain ⟨e, he, rfl⟩ := List.mem_map.mp hm
    exact (hmem e he).2
  · contradiction

/-! ## Optional values -/

theorem optional_of_ne_null {v : Json} (h : v ≠ .null) : optional d n v = (d n v).map some := by
  cases v <;> first | rfl | contradiction

theorem Reads.optional (h : Reads n d f P) (hnull : ∀ a, f a ≠ .null) :
    Reads n (optional d) (Json.option f) fun o => ∀ a ∈ o, P a := by
  intro o ho hdepth
  cases o with
  | none => rfl
  | some a =>
    show Decode.optional d n (f a) = _
    rw [optional_of_ne_null (hnull a), h a (ho a rfl) hdepth]
    rfl

theorem Keeps.optional (h : Keeps n d f P) :
    Keeps n (optional d) (Json.option f) fun o => ∀ a ∈ o, P a := by
  intro v o hv
  unfold Decode.optional at hv
  split at hv
  · obtain rfl := Option.some.inj hv
    exact ⟨by simp, Nat.zero_le n⟩
  · obtain ⟨a, ha, rfl⟩ := Option.map_eq_some_iff.mp hv
    exact ⟨fun b hb => Option.some.inj hb ▸ (h v a ha).1, (h v a ha).2⟩

/-! ## Records -/

/-- The fields of a record that are there. -/
def present (members : List (String × Option Json)) : List (String × Json) :=
  members.filterMap fun m => m.2.map fun v => (m.1, v)

theorem present_cons_some (key : String) (v : Json) (members : List (String × Option Json)) :
    present ((key, some v) :: members) = [(key, v)] ++ present members := rfl

theorem present_cons_map (key : String) (f : α → Json) (o : Option α)
    (members : List (String × Option Json)) :
    present ((key, o.map f) :: members) = Json.optionalMember key f o ++ present members := by
  cases o <;> rfl

/-- The fields of a record with these names, written inside `n` brackets. -/
structure Record (names : List String) (n : Nat) (members : List (String × Option Json)) : Prop where
  nodup : (members.map Prod.fst).Nodup
  subset : ∀ m ∈ members, m.1 ∈ names
  depth_le : ∀ m ∈ members, ∀ v ∈ m.2, v.depth ≤ n

theorem map_fst_present_sublist (members : List (String × Option Json)) :
    ((present members).map Prod.fst).Sublist (members.map Prod.fst) := by
  induction members with
  | nil => exact .slnil
  | cons m ms ih =>
    obtain ⟨key, v⟩ := m
    cases v with
    | none => exact ih.cons key
    | some v => exact ih.cons_cons key

theorem lookup_present {members : List (String × Option Json)}
    (h : (members.map Prod.fst).Nodup) (key : String) :
    (present members).lookup key = (members.lookup key).join := by
  induction members with
  | nil => rfl
  | cons m ms ih =>
    obtain ⟨key', v⟩ := m
    obtain ⟨hnew, hnodup⟩ := List.nodup_cons.mp h
    have ih := ih hnodup
    by_cases hkey : key = key'
    · subst hkey
      cases v with
      | none =>
        rw [List.lookup_cons_self]
        show (present ms).lookup key = none
        rw [List.lookup_eq_none_iff]
        intro m hm
        have hmem := (map_fst_present_sublist ms).subset (List.mem_map_of_mem hm)
        simpa using fun heq : key = m.1 => hnew (heq ▸ hmem)
      | some v =>
        show List.lookup key ((key, v) :: present ms) = _
        rw [List.lookup_cons_self, List.lookup_cons_self]
        rfl
    · have hne : (key == key') = false := by simpa using hkey
      rw [List.lookup_cons, hne]
      cases v with
      | none => exact ih
      | some v =>
        show List.lookup key ((key', v) :: present ms) = _
        rw [List.lookup_cons, hne]
        exact ih

theorem depth_present_le_iff {members : List (String × Option Json)} :
    (Json.object (present members)).depth ≤ n ↔
      ∃ k, n = k + 1 ∧ ∀ m ∈ members, ∀ v ∈ m.2, v.depth ≤ k := by
  rw [depth_object_le_iff]
  have hmem : ∀ k, (∀ m ∈ present members, m.2.depth ≤ k) ↔
      ∀ m ∈ members, ∀ v ∈ m.2, v.depth ≤ k := by
    intro k
    constructor
    · intro h m hm v hv
      exact h (m.1, v) (List.mem_filterMap.mpr ⟨m, hm, by rw [Option.mem_def.mp hv]; rfl⟩)
    · intro h m hm
      obtain ⟨m', hm', hmap⟩ := List.mem_filterMap.mp hm
      obtain ⟨v, hv, rfl⟩ := Option.map_eq_some_iff.mp hmap
      exact h m' hm' v hv
  simp only [hmem]

theorem plain_list {as : List α} (h : ∀ a ∈ as, Plain (f a)) : Plain (Json.list f as) := by
  refine .array fun v hv => ?_
  obtain ⟨a, ha, rfl⟩ := List.mem_map.mp hv
  exact h a ha

theorem plain_of_mem_map {o : Option α} (h : ∀ a ∈ o, Plain (f a)) : ∀ v ∈ o.map f, Plain v := by
  intro v hv
  obtain ⟨a, ha, rfl⟩ := Option.map_eq_some_iff.mp hv
  exact h a ha

theorem plain_present {members : List (String × Option Json)}
    (h : ∀ m ∈ members, ∀ v ∈ m.2, Plain v) : Plain (.object (present members)) := by
  refine .object fun m hm => ?_
  obtain ⟨m', hm', hmap⟩ := List.mem_filterMap.mp hm
  obtain ⟨v, hv, rfl⟩ := Option.map_eq_some_iff.mp hmap
  exact h m' hm' v hv

variable {names : List String} {members : List (String × Option Json)} {key : String} {a : α}

/-- A record is read as the fields that were written. -/
theorem Record.fields_eq (hr : Record names n members) :
    fields names (.object (present members)) = some (present members) := by
  have hfilter : (present members).filter (fun m => names.contains m.1) = present members := by
    refine List.filter_eq_self.mpr fun m hm => ?_
    have hmem := (map_fst_present_sublist members).subset (List.mem_map_of_mem hm)
    obtain ⟨m', hm', heq⟩ := List.mem_map.mp hmem
    rw [List.contains_iff_mem, ← heq]
    exact hr.subset m' hm'
  show (if _ then _ else _) = _
  rw [hfilter, if_pos (hr.nodup.sublist (map_fst_present_sublist members))]

theorem depth_le_of_lookup (h : ∀ m ∈ members, ∀ v ∈ m.2, v.depth ≤ n) {v : Json}
    (hv : members.lookup key = some (some v)) : v.depth ≤ n := by
  obtain ⟨l₁, l₂, rfl, -⟩ := List.lookup_eq_some_iff.mp hv
  exact h (key, some v) (by simp) v rfl

theorem Record.required (hr : Record names n members) (hd : Reads n d f P)
    (h : members.lookup key = some (some (f a))) (ha : P a) :
    Decode.required d n (present members) key = some a := by
  rw [Decode.required, lookup_present hr.nodup, h]
  exact hd a ha (depth_le_of_lookup hr.depth_le h)

/-- A field is left out where the decoder takes its default. -/
theorem Record.defaulted {default : α} (hr : Record names n members) (hd : Reads n d f P)
    (h : members.lookup key = some none ∧ a = default ∨ members.lookup key = some (some (f a)))
    (ha : P a) : Decode.defaulted default d n (present members) key = some a := by
  rw [Decode.defaulted, lookup_present hr.nodup]
  rcases h with ⟨h, rfl⟩ | h
  · rw [h]
    rfl
  · rw [h]
    exact hd a ha (depth_le_of_lookup hr.depth_le h)

/-- An optional field is left out where there is no value. -/
theorem Record.optional {o : Option α} (hr : Record names n members) (hd : Reads n d f P)
    (hnull : ∀ a, f a ≠ .null) (h : members.lookup key = some (o.map f)) (ho : ∀ a ∈ o, P a) :
    Decode.defaulted none (Decode.optional d) n (present members) key = some o := by
  refine hr.defaulted (hd.optional hnull) ?_ ho
  cases o with
  | none => exact .inl ⟨h, rfl⟩
  | some a => exact .inr h

theorem Keeps.required {fs : List (String × Json)} (hd : Keeps n d f P)
    (h : Decode.required d n fs key = some a) : P a ∧ (f a).depth ≤ n := by
  obtain ⟨v, -, hv⟩ := Option.bind_eq_some_iff.mp h
  exact hd v a hv

theorem Keeps.defaulted {default : α} {fs : List (String × Json)} (hd : Keeps n d f P)
    (h : Decode.defaulted default d n fs key = some a) : a = default ∨ P a ∧ (f a).depth ≤ n := by
  unfold Decode.defaulted at h
  split at h
  · exact .inr (hd _ a h)
  · exact .inl (Option.some.inj h).symm

theorem Keeps.optionalField {o : Option α} {fs : List (String × Json)} (hd : Keeps n d f P)
    (h : Decode.defaulted none (Decode.optional d) n fs key = some o) :
    (∀ a ∈ o, P a) ∧ ∀ v ∈ o.map f, v.depth ≤ n := by
  rcases hd.optional.defaulted h with rfl | ⟨ho, hdepth⟩
  · simp
  · refine ⟨ho, fun v hv => ?_⟩
    obtain ⟨a, rfl, rfl⟩ := Option.map_eq_some_iff.mp hv
    exact hdepth

end Decode

end Json

end Glr
