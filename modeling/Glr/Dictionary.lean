/-!
# Glr.Dictionary

Values under distinct names, in the order in which the names came up.  A name
that is given a second value keeps its place.
-/

namespace Glr

/-- A list of named values, no name twice. -/
structure Dictionary (α : Type) where
  entries : List (String × α)
  nodup : (entries.map Prod.fst).Nodup := by simp

namespace Dictionary

variable {α : Type}

/-- No names at all. -/
def empty : Dictionary α := ⟨[], by simp⟩

instance : Inhabited (Dictionary α) := ⟨empty⟩

/-- The names in order. -/
def keys (d : Dictionary α) : List String := d.entries.map Prod.fst

/-- The values in order. -/
def values (d : Dictionary α) : List α := d.entries.map Prod.snd

/-- Whether a name has a value. -/
def contains (d : Dictionary α) (key : String) : Bool := d.keys.contains key

/-- The value of a name. -/
def get? (d : Dictionary α) (key : String) : Option α := d.entries.lookup key

/-- Gives one of the names of a list a new value. -/
def assign (key : String) (value : α) (entries : List (String × α)) : List (String × α) :=
  entries.map fun e => if e.1 = key then (key, value) else e

theorem map_fst_assign (key : String) (value : α) (entries : List (String × α)) :
    (assign key value entries).map Prod.fst = entries.map Prod.fst := by
  induction entries with
  | nil => rfl
  | cons e es ih =>
    simp only [assign, List.map_cons] at ih ⊢
    rw [ih]
    split <;> simp_all

/-- Puts a value under a name: a name that is there keeps its place. -/
def insert (d : Dictionary α) (key : String) (value : α) : Dictionary α :=
  if h : key ∈ d.entries.map Prod.fst then
    ⟨assign key value d.entries, by rw [map_fst_assign]; exact d.nodup⟩
  else
    ⟨d.entries ++ [(key, value)], by
      rw [List.map_append, List.nodup_append]
      exact ⟨d.nodup, by simp, by
        intro a ha b hb
        simp only [List.map_cons, List.map_nil, List.mem_singleton] at hb
        rw [hb]
        intro hab
        exact h (hab ▸ ha)⟩⟩

theorem keys_insert_of_mem {d : Dictionary α} {key : String} (h : key ∈ d.keys) (value : α) :
    (d.insert key value).keys = d.keys := by
  have h' : key ∈ d.entries.map Prod.fst := h
  simp only [insert, dif_pos h', keys]
  exact map_fst_assign key value d.entries

theorem keys_insert_of_not_mem {d : Dictionary α} {key : String} (h : key ∉ d.keys) (value : α) :
    (d.insert key value).keys = d.keys ++ [key] := by
  have h' : key ∉ d.entries.map Prod.fst := h
  simp [insert, dif_neg h', keys]

theorem lookup_assign {key : String} {entries : List (String × α)} (value : α)
    (h : key ∈ entries.map Prod.fst) : (assign key value entries).lookup key = some value := by
  induction entries with
  | nil => simp at h
  | cons e es ih =>
    simp only [assign, List.map_cons] at ih ⊢
    by_cases he : e.1 = key
    · simp [he]
    · have hk : (key == e.1) = false := by simpa using fun hk => he hk.symm
      rw [if_neg he, List.lookup_cons, hk]
      refine ih ?_
      simp only [List.map_cons, List.mem_cons] at h
      exact h.resolve_left fun hk => he hk.symm

theorem get?_insert_self (d : Dictionary α) (key : String) (value : α) :
    (d.insert key value).get? key = some value := by
  unfold insert get?
  split
  · rename_i h
    exact lookup_assign value h
  · rename_i h
    simp only [List.lookup_append, List.lookup_cons, BEq.rfl]
    have : List.lookup key d.entries = none := by
      rw [List.lookup_eq_none_iff]
      intro p hp
      simpa using fun hk : key = p.1 => h (hk ▸ List.mem_map_of_mem hp)
    simp [this]

/-- As no name comes twice, a name has the value that stands beside it. -/
theorem get?_eq_some_iff {d : Dictionary α} {key : String} {value : α} :
    d.get? key = some value ↔ (key, value) ∈ d.entries := by
  constructor
  · intro h
    obtain ⟨l₁, l₂, hd, -⟩ := List.lookup_eq_some_iff.mp h
    simp [hd]
  · intro h
    obtain ⟨l₁, l₂, hd⟩ := List.append_of_mem h
    refine List.lookup_eq_some_iff.mpr ⟨l₁, l₂, hd, fun p hp => ?_⟩
    have hnodup := d.nodup
    rw [hd, List.map_append, List.nodup_append] at hnodup
    have hne := hnodup.2.2 p.1 (List.mem_map_of_mem hp) key (by simp)
    simpa using fun h : key = p.1 => hne h.symm

theorem exists_get?_of_mem_keys {d : Dictionary α} {key : String} (h : key ∈ d.keys) :
    ∃ value, d.get? key = some value := by
  obtain ⟨⟨_, value⟩, he, rfl⟩ := List.mem_map.mp h
  exact ⟨value, get?_eq_some_iff.mpr he⟩

/-- The dictionary of a list of named values; a later value replaces an earlier one. -/
def ofList (entries : List (String × α)) : Dictionary α :=
  entries.foldl (fun d e => d.insert e.1 e.2) empty

end Dictionary

end Glr
