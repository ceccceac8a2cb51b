import Glr.Proofs.Json.Decoded
import Glr.Table.Document

/-!
# Glr.Proofs.Table.Document

The document of a table is read back as the table, from the compact text and from the
indented one:

```
parse? t.toJson = some t = parse? t.toPrettyJson
```

A table opens four brackets at once and no more, so the only thing asked of it is that
its numbers have the widths that the format gives them: 16 bits for symbols, fields and
lexical states, 32 bits for everything else.
-/

namespace Glr

open Json Json.Decode

/-- A number of 32 bits with a sign. -/
def IsInt32 (i : Int) : Prop := -2147483648 ≤ i ∧ i ≤ 2147483647

instance (i : Int) : Decidable (IsInt32 i) := inferInstanceAs (Decidable (_ ∧ _))

variable {n : Nat}

/-! ## Documents of bounded depth -/

/-- A value that is written as it is and opens at most `n` brackets at once. -/
structure Json.Within (n : Nat) (v : Json) : Prop where
  plain : Plain v
  depth_le : v.depth ≤ n

namespace Json.Within

variable {α : Type} {f : α → Json}

theorem mono {k : Nat} {v : Json} (h : Within k v) (hk : k ≤ n) : Within n v :=
  ⟨h.plain, Nat.le_trans h.depth_le hk⟩

theorem int (i : Int) : Within n (.int i) := ⟨.int i, Nat.zero_le n⟩

theorem nat (i : Nat) : Within n (.nat i) := .int i

theorem string (s : String) : Within n (.string s) := ⟨.string s, Nat.zero_le n⟩

theorem bool (b : Bool) : Within n (.bool b) := ⟨.bool b, Nat.zero_le n⟩

theorem option (h : ∀ a, Within n (f a)) (o : Option α) : Within n (Json.option f o) := by
  cases o with
  | none => exact ⟨.null, Nat.zero_le n⟩
  | some a => exact h a

theorem list (h : ∀ a, Within n (f a)) (as : List α) : Within (n + 1) (Json.list f as) := by
  refine ⟨plain_list fun a _ => (h a).plain, depth_array_le_iff.mpr ⟨n, rfl, fun v hv => ?_⟩⟩
  obtain ⟨a, -, rfl⟩ := List.mem_map.mp hv
  exact (h a).depth_le

theorem present {members : List (String × Option Json)}
    (h : ∀ m ∈ members, ∀ v ∈ m.2, Within n v) : Within (n + 1) (.object (present members)) :=
  ⟨plain_present fun m hm v hv => (h m hm v hv).plain,
    depth_present_le_iff.mpr ⟨n, rfl, fun m hm v hv => (h m hm v hv).depth_le⟩⟩

theorem single (key : String) {v : Json} (h : Within n v) : Within (n + 1) (.object [(key, v)]) := by
  have hmembers : ∀ m ∈ [(key, some v)], ∀ w ∈ m.2, Within n w := by simpa using h
  exact present hmembers

end Json.Within

/-! ## Symbols -/

theorem SymbolKind.reads_decode : Reads n decode (fun k => .string k.name) fun _ => True := by
  intro k _ _
  cases k <;> rfl

namespace SymbolInfo

/-- The fields of a symbol. -/
def record (s : SymbolInfo) : List (String × Option Json) :=
  [("name", some (.string s.name)), ("named", some (.bool s.named)),
    ("visible", some (.bool s.visible)), ("kind", some (.string s.kind.name))]

theorem encode_eq (s : SymbolInfo) : s.encode = .object (present s.record) := rfl

theorem within_encode (s : SymbolInfo) : Within 1 s.encode := by
  rw [encode_eq]
  refine .present ?_
  simp [record, Within.string, Within.bool]

theorem reads_decode : Reads n decode encode fun _ => True := by
  intro s _ hdepth
  rw [encode_eq] at hdepth ⊢
  obtain ⟨m, rfl, hfields⟩ := depth_present_le_iff.mp hdepth
  have hr : Record ["name", "named", "visible", "kind"] m s.record :=
    ⟨by simp [record], by simp [record], hfields⟩
  simp only [decode, bind_eq_some_iff, Option.pure_def, Option.some.injEq]
  exact ⟨_, hr.fields_eq, s.name, hr.required reads_string rfl trivial,
    s.named, hr.required reads_bool rfl trivial, s.visible, hr.required reads_bool rfl trivial,
    s.kind, hr.required SymbolKind.reads_decode rfl trivial, rfl⟩

end SymbolInfo

/-! ## Actions -/

namespace ParseAction

/-- An action that names a state or a production of 32 bits. -/
def InRange : ParseAction → Prop
  | .shift s => s < 4294967296
  | .reduce p => p < 4294967296
  | .accept => True

instance (a : ParseAction) : Decidable a.InRange := by
  cases a <;> unfold InRange <;> infer_instance

theorem within_encode (a : ParseAction) : Within 1 a.encode := by
  cases a with
  | accept => exact .string _
  | shift s => exact .single "Shift" (.nat s)
  | reduce p => exact .single "Reduce" (.nat p)

theorem reads_decode : Reads n decode encode InRange := by
  intro a ha hdepth
  cases a with
  | accept => rfl
  | shift s =>
    obtain ⟨m, rfl, -⟩ := depth_object_le_iff.mp hdepth
    have hnat : nat32 m (.nat s) = some s := reads_natBelow s ha (Nat.zero_le m)
    simp [encode, decode, hnat]
  | reduce p =>
    obtain ⟨m, rfl, -⟩ := depth_object_le_iff.mp hdepth
    have hnat : nat32 m (.nat p) = some p := reads_natBelow p ha (Nat.zero_le m)
    simp [encode, decode, hnat]

end ParseAction

/-! ## Productions -/

theorem option_nat_ne_null (i : Nat) : Json.nat i ≠ .null := by simp [Json.nat]

/-- Numbers of 16 bits, some of them absent. -/
theorem reads_numbers : Reads n (list (optional nat16)) (Json.list (Json.option .nat))
    fun os => ∀ o ∈ os, ∀ i ∈ o, i < 65536 :=
  .list fun _ _ => reads_natBelow.optional option_nat_ne_null

namespace ProductionInfo

/-- A production with numbers of the widths of the format. -/
structure InRange (p : ProductionInfo) : Prop where
  lhs : p.lhs < 65536
  fields : ∀ o ∈ p.fields, ∀ i ∈ o, i < 65536
  labels : ∀ o ∈ p.labels, ∀ i ∈ o, i < 65536
  dynamicPrecedence : IsInt32 p.dynamicPrecedence

/-- The fields of a production. -/
def record (p : ProductionInfo) : List (String × Option Json) :=
  [("lhs", some (.nat p.lhs)), ("fields", some (.list (Json.option .nat) p.fields)),
    ("aliases", some (.list (Json.option .nat) p.labels)),
    ("dynamic_precedence", some (.int p.dynamicPrecedence))]

theorem encode_eq (p : ProductionInfo) : p.encode = .object (present p.record) := rfl

theorem within_encode (p : ProductionInfo) : Within 2 p.encode := by
  rw [encode_eq]
  refine .present ?_
  simp [record, Within.nat, Within.int, Within.list (Within.option Within.nat)]

theorem reads_decode : Reads n decode encode InRange := by
  intro p hp hdepth
  rw [encode_eq] at hdepth ⊢
  obtain ⟨m, rfl, hfields⟩ := depth_present_le_iff.mp hdepth
  have hr : Record ["lhs", "fields", "aliases", "dynamic_precedence"] m p.record :=
    ⟨by simp [record], by simp [record], hfields⟩
  simp only [decode, bind_eq_some_iff, Option.pure_def, Option.some.injEq]
  exact ⟨_, hr.fields_eq, p.lhs, hr.required reads_natBelow rfl hp.lhs,
    p.fields, hr.required reads_numbers rfl hp.fields,
    p.labels, hr.required reads_numbers rfl hp.labels,
    p.dynamicPrecedence, hr.required reads_intIn rfl hp.dynamicPrecedence, rfl⟩

end ProductionInfo

/-! ## Lexical rules -/

theorem TokenMatcher.within_encode (m : TokenMatcher) : Within 1 m.encode := by
  cases m with
  | literal s => exact .single "Literal" (.string s)
  | pattern s => exact .single "Pattern" (.string s)

theorem TokenMatcher.reads_decode : Reads n decode encode fun _ => True := by
  intro m _ hdepth
  cases m with
  | literal s =>
    obtain ⟨k, rfl, -⟩ := depth_object_le_iff.mp hdepth
    rfl
  | pattern s =>
    obtain ⟨k, rfl, -⟩ := depth_object_le_iff.mp hdepth
    rfl

namespace LexRule

/-- A lexical rule with numbers of the widths of the format. -/
structure InRange (r : LexRule) : Prop where
  symbol : r.symbol < 65536
  precedence : IsInt32 r.precedence

/-- The fields of a lexical rule. -/
def record (r : LexRule) : List (String × Option Json) :=
  [("symbol", some (.nat r.symbol)), ("matcher", some r.matcher.encode),
    ("precedence", some (.int r.precedence)), ("immediate", some (.bool r.immediate))]

theorem encode_eq (r : LexRule) : r.encode = .object (present r.record) := rfl

theorem within_encode (r : LexRule) : Within 2 r.encode := by
  rw [encode_eq]
  refine .present ?_
  simp [record, Within.nat, Within.int, Within.bool, r.matcher.within_encode]

theorem reads_decode : Reads n decode encode InRange := by
  intro r hr hdepth
  rw [encode_eq] at hdepth ⊢
  obtain ⟨m, rfl, hfields⟩ := depth_present_le_iff.mp hdepth
  have hrecord : Record ["symbol", "matcher", "precedence", "immediate"] m r.record :=
    ⟨by simp [record], by simp [record], hfields⟩
  simp only [decode, bind_eq_some_iff, Option.pure_def, Option.some.injEq]
  exact ⟨_, hrecord.fields_eq, r.symbol, hrecord.required reads_natBelow rfl hr.symbol,
    r.matcher, hrecord.required TokenMatcher.reads_decode rfl trivial,
    r.precedence, hrecord.required reads_intIn rfl hr.precedence,
    r.immediate, hrecord.required reads_bool rfl trivial, rfl⟩

end LexRule

/-! ## Tables -/

namespace Table

/-- A table with numbers of the widths of the format. -/
structure InRange (t : Table) : Prop where
  version : t.version < 4294967296
  productions : ∀ p ∈ t.productions, p.InRange
  stateCount : t.stateCount < 4294967296
  entries : ∀ e ∈ t.entries, e < 4294967296
  actionLists : ∀ as ∈ t.actionLists, ∀ a ∈ as, a.InRange
  lexStates : ∀ ss ∈ t.lexStates, ∀ s ∈ ss, s < 65536
  stateLexStates : ∀ s ∈ t.stateLexStates, s < 65536
  lexRules : ∀ r ∈ t.lexRules, r.InRange
  extras : ∀ s ∈ t.extras, s < 65536
  externals : ∀ s ∈ t.externals, s < 65536
  word : ∀ s ∈ t.word, s < 65536
  startSymbol : t.startSymbol < 65536

theorem reads_array {α : Type} {d : Decoder α} {f : α → Json} {P : α → Prop}
    (h : ∀ k < n, Reads k d f P) : Reads n (array d) (encodeArray f) fun as => ∀ a ∈ as, P a := by
  intro as has hdepth
  show (list d n (.list f as.toList)).map List.toArray = _
  rw [Reads.list h as.toList (fun a ha => has a (Array.mem_toList_iff.mp ha)) hdepth]
  rfl

/-- The fields of a table. -/
def record (t : Table) : List (String × Option Json) :=
  [("version", some (.nat t.version)), ("name", some (.string t.name)),
    ("symbols", some (encodeArray SymbolInfo.encode t.symbols)),
    ("fields", some (encodeArray .string t.fields)),
    ("productions", some (encodeArray ProductionInfo.encode t.productions)),
    ("state_count", some (.nat t.stateCount)), ("parse_table", some (encodeArray .nat t.entries)),
    ("action_lists", some (encodeArray (.list ParseAction.encode) t.actionLists)),
    ("lex_states", some (encodeArray (.list .nat) t.lexStates)),
    ("state_lex_states", some (encodeArray .nat t.stateLexStates)),
    ("lex_rules", some (.list LexRule.encode t.lexRules)), ("extras", some (.list .nat t.extras)),
    ("externals", some (.list .nat t.externals)), ("word", some (Json.option .nat t.word)),
    ("start_symbol", some (.nat t.startSymbol))]

theorem encode_eq (t : Table) : t.encode = .object (present t.record) := rfl

theorem within_encode (t : Table) : Within 4 t.encode := by
  rw [encode_eq]
  refine .present ?_
  have hnumbers (is : List Nat) : Within 3 (Json.list .nat is) := .list .nat is
  simp [record, Within.nat, Within.string, Within.option Within.nat, encodeArray, hnumbers,
    Within.list fun s : SymbolInfo => s.within_encode.mono (show 1 ≤ 2 by decide),
    Within.list fun s : String => Within.string s,
    Within.list ProductionInfo.within_encode,
    Within.list (Within.list ParseAction.within_encode),
    Within.list fun is => (Within.list Within.nat is).mono (show 1 ≤ 2 by decide),
    Within.list LexRule.within_encode]

theorem reads_decode : Reads n decode encode InRange := by
  intro t ht hdepth
  rw [encode_eq] at hdepth ⊢
  obtain ⟨m, rfl, hfields⟩ := depth_present_le_iff.mp hdepth
  have hr : Record fieldNames m t.record :=
    ⟨by simp [record], by simp [record, fieldNames], hfields⟩
  simp only [decode, bind_eq_some_iff, Option.pure_def, Option.some.injEq]
  exact ⟨_, hr.fields_eq,
    t.version, hr.required reads_natBelow rfl ht.version,
    t.name, hr.required reads_string rfl trivial,
    t.symbols, hr.required (reads_array fun _ _ => SymbolInfo.reads_decode) rfl (by simp),
    t.fields, hr.required (reads_array fun _ _ => reads_string) rfl (by simp),
    t.productions, hr.required (reads_array fun _ _ => ProductionInfo.reads_decode) rfl
      ht.productions,
    t.stateCount, hr.required reads_natBelow rfl ht.stateCount,
    t.entries, hr.required (reads_array fun _ _ => reads_natBelow) rfl ht.entries,
    t.actionLists, hr.required
      (reads_array fun _ _ => .list fun _ _ => ParseAction.reads_decode) rfl ht.actionLists,
    t.lexStates, hr.required (reads_array fun _ _ => .list fun _ _ => reads_natBelow) rfl
      ht.lexStates,
    t.stateLexStates, hr.required (reads_array fun _ _ => reads_natBelow) rfl ht.stateLexStates,
    t.lexRules, hr.required (.list fun _ _ => LexRule.reads_decode) rfl ht.lexRules,
    t.extras, hr.required (.list fun _ _ => reads_natBelow) rfl ht.extras,
    t.externals, hr.required (.list fun _ _ => reads_natBelow) rfl ht.externals,
    t.word, hr.defaulted (reads_natBelow.optional option_nat_ne_null) (.inr rfl) ht.word,
    t.startSymbol, hr.required reads_natBelow rfl ht.startSymbol, rfl⟩

theorem decode_encode {t : Table} (ht : t.InRange) : decode maxDepth t.encode = some t :=
  reads_decode t ht (Nat.le_trans t.within_encode.depth_le (by decide))

/-- A table is read back from its text. -/
theorem parse?_toJson_eq {t : Table} (ht : t.InRange) : parse? t.toJson = some t := by
  rw [parse?, decode?, toJson, parse?_compact t.within_encode.plain, Option.bind_some,
    decode_encode ht]

/-- A table is read back from its indented text. -/
theorem parse?_toPrettyJson_eq {t : Table} (ht : t.InRange) : parse? t.toPrettyJson = some t := by
  rw [parse?, decode?, toPrettyJson, parse?_pretty t.within_encode.plain, Option.bind_some,
    decode_encode ht]

end Table

end Glr
