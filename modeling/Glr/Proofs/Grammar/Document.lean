import Glr.Proofs.Json.Decoded

/-!
# Glr.Proofs.Grammar.Document

The document of a grammar is read back as the grammar, with its rules and its reserved
sets in their order:

```
parse? g.toJson = some g
```

A document may open no more than `Json.maxDepth` brackets at once, and an integer of a
rule has 32 bits; beyond that nothing is asked of the grammar.  Both hold of a grammar
that was read from some text, so writing what was read changes nothing the second time.
-/

namespace Glr

open Json Json.Decode

/-! ## Rules -/

/-- An integer that fits 32 bits, or a text. -/
def RuleValue.InRange : RuleValue → Prop
  | .integer i => -2147483648 ≤ i ∧ i ≤ 2147483647
  | .text _ => True

namespace Rule

/-- A rule whose integers, and those of its parts, fit 32 bits. -/
inductive InRange : Rule → Prop where
  | node {k : RuleKind} {a : RuleAttributes} {c : Option Rule} {ms : List Rule}
      (hvalue : ∀ v ∈ a.value, v.InRange) (hcontent : ∀ r, c = some r → InRange r)
      (hmembers : ∀ r ∈ ms, InRange r) : InRange (.node k a c ms)

/-- The fields of a rule; those of an absent part are left out. -/
def record (k : RuleKind) (a : RuleAttributes) (c : Option Rule) (ms : List Rule) :
    List (String × Option Json) :=
  [("type", some (.string k.name)), ("value", a.value.map encodeValue),
    ("name", a.name.map .string), ("content", c.map encode),
    ("members", if ms.isEmpty then none else some (Json.list encode ms)),
    ("named", a.named.map .bool), ("flags", a.flags.map .string),
    ("context_name", a.contextName.map .string)]

theorem encodeList_eq_map (ms : List Rule) : encodeList ms = ms.map encode := by
  induction ms with
  | nil => rfl
  | cons r rs ih => rw [encodeList, ih, List.map_cons]

theorem encode_node (k : RuleKind) (a : RuleAttributes) (c : Option Rule) (ms : List Rule) :
    encode (.node k a c ms) = .object (present (record k a c ms)) := by
  have hcontent : encodeContent c = Json.optionalMember "content" encode c := by
    cases c <;> rfl
  have hmembers : ∀ rest, present
      (("members", if ms.isEmpty then none else some (Json.list encode ms)) :: rest) =
        (if ms.isEmpty then [] else [("members", .array (encodeList ms))]) ++ present rest := by
    intro rest
    rw [encodeList_eq_map]
    cases ms <;> rfl
  rw [encode, hcontent, record, present_cons_some, present_cons_map, present_cons_map,
    present_cons_map, hmembers, present_cons_map, present_cons_map, present_cons_map]
  simp only [List.append_assoc, present, List.filterMap_nil, List.append_nil]

theorem content_bind {β : Type} (n : Nat) (fs : List (String × Json))
    (next : Option Rule → Option β) :
    defaulted none (optional decode) n fs "content" >>= next =
      match fs.lookup "content" with
      | none | some .null => some none >>= next
      | some c => (decode n c).map some >>= next := by
  unfold defaulted
  cases fs.lookup "content" with
  | none => rfl
  | some c => cases c <;> rfl

theorem members_bind {β : Type} (n : Nat) (fs : List (String × Json))
    (next : List Rule → Option β) :
    defaulted [] (list decode) n fs "members" >>= next =
      match fs.lookup "members" with
      | none => some [] >>= next
      | some (.array items) =>
        match n with
        | 0 => none >>= next
        | inner + 1 => items.mapM (decode inner) >>= next
      | some _ => none >>= next := by
  unfold defaulted
  cases fs.lookup "members" with
  | none => rfl
  | some c => cases c <;> cases n <;> rfl

/-- Reading a rule, its parts among its fields. -/
theorem decode_succ (n : Nat) (v : Json) :
    decode (n + 1) v = (do
      let fs ← fields fieldNames v
      let kind ← required decodeKind n fs "type"
      let value ← defaulted none (optional decodeValue) n fs "value"
      let name ← defaulted none (optional Decode.string) n fs "name"
      let content ← defaulted none (optional decode) n fs "content"
      let members ← defaulted [] (list decode) n fs "members"
      let named ← defaulted none (optional bool) n fs "named"
      let flags ← defaulted none (optional Decode.string) n fs "flags"
      let contextName ← defaulted none (optional Decode.string) n fs "context_name"
      return .node kind { value, name, named, flags, contextName } content members) := by
  simp only [content_bind, members_bind]
  exact decode.eq_2 v n

theorem reads_decodeKind (n : Nat) :
    Reads n decodeKind (fun k => .string k.name) fun _ => True := by
  intro k _ _
  show RuleKind.ofName? k.name = some k
  cases k <;> rfl

theorem keeps_decodeKind (n : Nat) :
    Keeps n decodeKind (fun k => .string k.name) fun _ => True :=
  fun _ _ _ => ⟨trivial, Nat.zero_le n⟩

theorem reads_decodeValue (n : Nat) : Reads n decodeValue encodeValue RuleValue.InRange := by
  intro v hv _
  cases v with
  | integer i =>
    show (intIn _ _ n (.int i)).map _ = _
    rw [reads_intIn i hv (Nat.zero_le n)]
    rfl
  | text s => rfl

theorem keeps_decodeValue (n : Nat) : Keeps n decodeValue encodeValue RuleValue.InRange := by
  intro v x h
  unfold decodeValue at h
  split at h
  · obtain rfl := Option.some.inj h
    exact ⟨trivial, Nat.zero_le n⟩
  · obtain ⟨i, hi, rfl⟩ := Option.map_eq_some_iff.mp h
    exact ⟨(keeps_intIn _ i hi).1, Nat.zero_le n⟩

theorem encodeValue_ne_null (v : RuleValue) : encodeValue v ≠ .null := by
  cases v <;> simp [encodeValue]

theorem encode_ne_null (r : Rule) : r.encode ≠ .null := by
  cases r
  rw [encode_node]
  simp

/-- The fields of a rule are read each from its own document. -/
theorem decode_eq_some_iff {n : Nat} {v : Json} {r : Rule} :
    decode (n + 1) v = some r ↔ ∃ fs, fields fieldNames v = some fs ∧
      ∃ kind, required decodeKind n fs "type" = some kind ∧
      ∃ value, defaulted none (optional decodeValue) n fs "value" = some value ∧
      ∃ name, defaulted none (optional Decode.string) n fs "name" = some name ∧
      ∃ content, defaulted none (optional decode) n fs "content" = some content ∧
      ∃ members, defaulted [] (list decode) n fs "members" = some members ∧
      ∃ named, defaulted none (optional bool) n fs "named" = some named ∧
      ∃ flags, defaulted none (optional Decode.string) n fs "flags" = some flags ∧
      ∃ contextName, defaulted none (optional Decode.string) n fs "context_name" =
        some contextName ∧
      .node kind { value, name, named, flags, contextName } content members = r := by
  rw [decode_succ]
  simp only [bind_eq_some_iff, Option.pure_def, Option.some.injEq]

/-- The document of a rule is read as the rule. -/
theorem reads_decode (n : Nat) : Reads n decode encode InRange := by
  induction n using Nat.strongRecOn with
  | _ n ih =>
    rintro ⟨k, a, c, ms⟩ ⟨hvalue, hcontent, hmembers⟩ hdepth
    rw [encode_node] at hdepth ⊢
    obtain ⟨m, rfl, hfields⟩ := depth_present_le_iff.mp hdepth
    have hr : Record fieldNames m (record k a c ms) :=
      ⟨by simp [record], by simp [record, fieldNames], hfields⟩
    have hms : (record k a c ms).lookup "members" = some none ∧ ms = [] ∨
        (record k a c ms).lookup "members" = some (some (Json.list encode ms)) := by
      cases ms with
      | nil => exact .inl ⟨rfl, rfl⟩
      | cons r rs => exact .inr rfl
    have hlist : Reads m (list decode) (Json.list encode) fun rs => ∀ r ∈ rs, InRange r :=
      .list fun j hj => ih j (by omega)
    have hstring : ∀ s : String, Json.string s ≠ .null := by simp
    exact decode_eq_some_iff.mpr
      ⟨_, hr.fields_eq, k, hr.required (reads_decodeKind m) rfl trivial,
        a.value, hr.optional (reads_decodeValue m) encodeValue_ne_null rfl hvalue,
        a.name, hr.optional reads_string hstring rfl (by simp),
        c, hr.optional (ih m (by omega)) encode_ne_null rfl hcontent,
        ms, hr.defaulted hlist hms hmembers,
        a.named, hr.optional reads_bool (by simp) rfl (by simp),
        a.flags, hr.optional reads_string hstring rfl (by simp),
        a.contextName, hr.optional reads_string hstring rfl (by simp), rfl⟩

/-- A rule that was read can be written with the same budget. -/
theorem keeps_decode (n : Nat) : Keeps n decode encode InRange := by
  induction n using Nat.strongRecOn with
  | _ n ih =>
    intro v r h
    cases n with
    | zero => rw [decode] at h; contradiction
    | succ m =>
      obtain ⟨fs, -, k, hkind, value, hvalue, name, hname, content, hcontent, members, hmembers,
        named, hnamed, flags, hflags, contextName, hcontextName, rfl⟩ := decode_eq_some_iff.mp h
      have hkind := (keeps_decodeKind m).required hkind
      have hvalue := (keeps_decodeValue m).optionalField hvalue
      have hname := keeps_string.optionalField hname
      have hcontent := (ih m (by omega)).optionalField hcontent
      have hmembers := (Keeps.list fun j hj => ih j (by omega)).defaulted hmembers
      have hnamed := keeps_bool.optionalField hnamed
      have hflags := keeps_string.optionalField hflags
      have hcontextName := keeps_string.optionalField hcontextName
      have hrules : ∀ r ∈ members, InRange r := by
        rcases hmembers with rfl | h
        · simp
        · exact h.1
      have hlist : ∀ v ∈ (if members.isEmpty then none else some (Json.list encode members)),
          v.depth ≤ m := by
        rcases hmembers with rfl | h
        · simp
        · split
          · simp
          · simpa using h.2
      refine ⟨.node hvalue.1 hcontent.1 hrules, ?_⟩
      rw [encode_node]
      refine depth_present_le_iff.mpr ⟨m, rfl, ?_⟩
      simp only [record, List.forall_mem_cons]
      exact ⟨fun v hv => Option.some.inj hv ▸ hkind.2, hvalue.2, hname.2, hcontent.2, hlist,
        hnamed.2, hflags.2, hcontextName.2, by simp⟩

mutual

/-- Nothing foreign is written for a rule. -/
theorem plain_encode : ∀ r : Rule, Plain r.encode
  | .node k a c ms => by
    rw [encode_node]
    refine plain_present ?_
    simp only [record, List.forall_mem_cons]
    refine ⟨by simp [Plain.string], plain_of_mem_map fun v _ => ?_,
      plain_of_mem_map fun s _ => .string s, plain_content c, ?_,
      plain_of_mem_map fun b _ => .bool b, plain_of_mem_map fun s _ => .string s,
      plain_of_mem_map fun s _ => .string s, by simp⟩
    · cases v
      · exact .int _
      · exact .string _
    · split
      · simp
      · intro v hv
        obtain rfl := Option.some.inj hv
        exact plain_list (plain_members ms)

theorem plain_content : ∀ c : Option Rule, ∀ v ∈ c.map encode, Plain v
  | none => by simp
  | some r => fun _ hv => Option.some.inj hv ▸ plain_encode r

theorem plain_members : ∀ ms : List Rule, ∀ r ∈ ms, Plain r.encode
  | [], _, h => by contradiction
  | r :: rs, s, h => by
    rcases List.mem_cons.mp h with heq | h
    · rw [heq]
      exact plain_encode r
    · exact plain_members rs s h

end

end Rule

/-! ## Grammars -/

namespace Grammar

/-- A grammar whose rules have 32-bit integers. -/
structure InRange (g : Grammar) : Prop where
  rules : ∀ e ∈ g.rules.entries, e.2.InRange
  extras : ∀ rs ∈ g.extras, ∀ r ∈ rs, r.InRange
  externals : ∀ rs ∈ g.externals, ∀ r ∈ rs, r.InRange
  precedences : ∀ lists ∈ g.precedences, ∀ rs ∈ lists, ∀ r ∈ rs, r.InRange
  reserved : ∀ sets ∈ g.reserved, ∀ e ∈ sets.entries, ∀ r ∈ e.2, r.InRange

/-- The fields of a grammar; those of an absent part are left out. -/
def record (g : Grammar) : List (String × Option Json) :=
  [("$schema", g.schema.map .string), ("name", some (.string g.name)),
    ("inherits", g.inherits.map .string), ("start", g.start.map .string),
    ("rules", some (encodeDictionary Rule.encode g.rules)), ("extras", g.extras.map encodeRules),
    ("externals", g.externals.map encodeRules), ("inline", g.inlined.map encodeNames),
    ("precedences", g.precedences.map (Json.list encodeRules)),
    ("conflicts", g.conflicts.map (Json.list encodeNames)),
    ("reserved", g.reserved.map (encodeDictionary encodeRules)), ("word", g.word.map .string),
    ("supertypes", g.supertypes.map encodeNames)]

theorem encode_eq (g : Grammar) : g.encode = .object (present g.record) := by
  simp only [record, present_cons_some, present_cons_map, encode]
  simp only [List.append_assoc, present, List.filterMap_nil, List.append_nil]

/-- The fields of a grammar are read each from its own document. -/
theorem decode_eq_some_iff {n : Nat} {v : Json} {g : Grammar} :
    decode (n + 1) v = some g ↔ ∃ fs, fields fieldNames v = some fs ∧
      required Decode.string n fs "name" = some g.name ∧
      defaulted none (optional Decode.string) n fs "$schema" = some g.schema ∧
      defaulted none (optional Decode.string) n fs "inherits" = some g.inherits ∧
      defaulted none (optional Decode.string) n fs "start" = some g.start ∧
      required (dictionary Rule.decode) n fs "rules" = some g.rules ∧
      defaulted none (optional (list Rule.decode)) n fs "extras" = some g.extras ∧
      defaulted none (optional (list Rule.decode)) n fs "externals" = some g.externals ∧
      defaulted none (optional (list Decode.string)) n fs "inline" = some g.inlined ∧
      defaulted none (optional (list (list Rule.decode))) n fs "precedences" = some g.precedences ∧
      defaulted none (optional (list (list Decode.string))) n fs "conflicts" = some g.conflicts ∧
      defaulted none (optional (dictionary (list Rule.decode))) n fs "reserved" =
        some g.reserved ∧
      defaulted none (optional Decode.string) n fs "word" = some g.word ∧
      defaulted none (optional (list Decode.string)) n fs "supertypes" = some g.supertypes := by
  simp only [decode, bind_eq_some_iff, Option.pure_def, Option.some.injEq]
  constructor
  · rintro ⟨fs, hfs, name, hname, schema, hschema, inherits, hinherits, start, hstart, rules, hrules,
      extras, hextras, externals, hexternals, inlined, hinlined, precedences, hprecedences,
      conflicts, hconflicts, reserved, hreserved, word, hword, supertypes, hsupertypes, rfl⟩
    exact ⟨fs, hfs, hname, hschema, hinherits, hstart, hrules, hextras, hexternals, hinlined,
      hprecedences, hconflicts, hreserved, hword, hsupertypes⟩
  · rintro ⟨fs, hfs, hname, hschema, hinherits, hstart, hrules, hextras, hexternals, hinlined,
      hprecedences, hconflicts, hreserved, hword, hsupertypes⟩
    exact ⟨fs, hfs, _, hname, _, hschema, _, hinherits, _, hstart, _, hrules, _, hextras, _,
      hexternals, _, hinlined, _, hprecedences, _, hconflicts, _, hreserved, _, hword, _,
      hsupertypes, rfl⟩

theorem reads_decode (n : Nat) : Reads n decode encode InRange := by
  intro g hg hdepth
  rw [encode_eq] at hdepth ⊢
  obtain ⟨m, rfl, hfields⟩ := depth_present_le_iff.mp hdepth
  have hr : Record fieldNames m g.record :=
    ⟨by simp [record], by simp [record, fieldNames], hfields⟩
  have hrule : ∀ j, Reads j Rule.decode Rule.encode Rule.InRange := Rule.reads_decode
  have hnames : ∀ j, Reads j (list Decode.string) (Json.list .string) fun as => ∀ a ∈ as, True :=
    fun j => .list fun i _ => reads_string
  have hrules : ∀ j, Reads j (list Rule.decode) (Json.list Rule.encode)
      fun as => ∀ r ∈ as, r.InRange := fun j => .list fun i _ => hrule i
  have hstring : ∀ s : String, Json.string s ≠ .null := by simp
  exact decode_eq_some_iff.mpr ⟨_, hr.fields_eq,
    hr.required reads_string rfl trivial,
    hr.optional reads_string hstring rfl (by simp),
    hr.optional reads_string hstring rfl (by simp),
    hr.optional reads_string hstring rfl (by simp),
    hr.required (.dictionary fun j _ => hrule j) rfl hg.rules,
    hr.optional (hrules m) (by simp [Json.list]) rfl hg.extras,
    hr.optional (hrules m) (by simp [Json.list]) rfl hg.externals,
    hr.optional (hnames m) (by simp [Json.list]) rfl (by simp),
    hr.optional (.list fun j _ => hrules j) (by simp [Json.list]) rfl hg.precedences,
    hr.optional (.list fun j _ => hnames j) (by simp [Json.list]) rfl (by simp),
    hr.optional (.dictionary fun j _ => hrules j) (by simp [encodeDictionary]) rfl hg.reserved,
    hr.optional reads_string hstring rfl (by simp),
    hr.optional (hnames m) (by simp [Json.list]) rfl (by simp)⟩

theorem keeps_decode (n : Nat) : Keeps n decode encode InRange := by
  intro v g h
  cases n with
  | zero => contradiction
  | succ m =>
    have hrule : ∀ j, Keeps j Rule.decode Rule.encode Rule.InRange := Rule.keeps_decode
    have hnames : ∀ j, Keeps j (list Decode.string) (Json.list .string) fun as => ∀ a ∈ as, True :=
      fun j => .list fun i _ => keeps_string
    have hrules : ∀ j, Keeps j (list Rule.decode) (Json.list Rule.encode)
        fun as => ∀ r ∈ as, r.InRange := fun j => .list fun i _ => hrule i
    obtain ⟨fs, -, hname, hschema, hinherits, hstart, hruleset, hextras, hexternals, hinlined,
      hprecedences, hconflicts, hreserved, hword, hsupertypes⟩ := decode_eq_some_iff.mp h
    have hname := keeps_string.required hname
    have hschema := keeps_string.optionalField hschema
    have hinherits := keeps_string.optionalField hinherits
    have hstart := keeps_string.optionalField hstart
    have hruleset := (Keeps.dictionary fun j _ => hrule j).required hruleset
    have hextras := (hrules m).optionalField hextras
    have hexternals := (hrules m).optionalField hexternals
    have hinlined := (hnames m).optionalField hinlined
    have hprecedences := (Keeps.list fun j _ => hrules j).optionalField hprecedences
    have hconflicts := (Keeps.list fun j _ => hnames j).optionalField hconflicts
    have hreserved := (Keeps.dictionary fun j _ => hrules j).optionalField hreserved
    have hword := keeps_string.optionalField hword
    have hsupertypes := (hnames m).optionalField hsupertypes
    refine ⟨⟨hruleset.1, hextras.1, hexternals.1, hprecedences.1, hreserved.1⟩, ?_⟩
    rw [encode_eq]
    refine depth_present_le_iff.mpr ⟨m, rfl, ?_⟩
    simp only [record, List.forall_mem_cons]
    exact ⟨hschema.2, fun v hv => Option.some.inj hv ▸ hname.2, hinherits.2, hstart.2,
      fun v hv => Option.some.inj hv ▸ hruleset.2, hextras.2, hexternals.2, hinlined.2,
      hprecedences.2, hconflicts.2, hreserved.2, hword.2, hsupertypes.2, by simp⟩

theorem plain_encodeRules (rs : List Rule) : Plain (encodeRules rs) :=
  plain_list fun r _ => r.plain_encode

theorem plain_encodeNames (names : List String) : Plain (encodeNames names) :=
  plain_list fun s _ => .string s

theorem plain_encodeDictionary {α : Type} {f : α → Json} (h : ∀ a, Plain (f a))
    (dict : Dictionary α) : Plain (encodeDictionary f dict) := by
  refine .object fun m hm => ?_
  obtain ⟨e, -, rfl⟩ := List.mem_map.mp hm
  exact h e.2

theorem plain_encode (g : Grammar) : Plain g.encode := by
  rw [encode_eq]
  refine plain_present ?_
  have htext : ∀ o : Option String, ∀ v ∈ o.map Json.string, Plain v := fun o =>
    plain_of_mem_map fun s _ => .string s
  simp only [record, List.forall_mem_cons]
  exact ⟨htext _, by simp [Plain.string], htext _, htext _,
    fun v hv => Option.some.inj hv ▸ plain_encodeDictionary Rule.plain_encode g.rules,
    plain_of_mem_map fun rs _ => plain_encodeRules rs,
    plain_of_mem_map fun rs _ => plain_encodeRules rs,
    plain_of_mem_map fun names _ => plain_encodeNames names,
    plain_of_mem_map fun lists _ => plain_list fun rs _ => plain_encodeRules rs,
    plain_of_mem_map fun lists _ => plain_list fun names _ => plain_encodeNames names,
    plain_of_mem_map fun sets _ => plain_encodeDictionary plain_encodeRules sets,
    htext _, plain_of_mem_map fun names _ => plain_encodeNames names, by simp⟩

/-- A grammar is read back from its text if its document nests no more deeply than a
document may, and only then. -/
theorem parse?_toJson_iff (g : Grammar) :
    parse? g.toJson = some g ↔ g.InRange ∧ g.encode.depth ≤ maxDepth := by
  rw [parse?, decode?, toJson, parse?_pretty g.plain_encode, Option.bind_some]
  exact ⟨fun h => keeps_decode maxDepth _ g h, fun h => reads_decode maxDepth g h.1 h.2⟩

/-- What is written for a grammar is read as the grammar, and what was read from a text is
written and read again without a change. -/
theorem parse?_toJson :
    (∀ g : Grammar, g.InRange → g.encode.depth ≤ maxDepth → parse? g.toJson = some g) ∧
      ∀ text written, (parse? text).map toJson = some written →
        (parse? written).map toJson = some written := by
  refine ⟨fun g hg hdepth => g.parse?_toJson_iff.mpr ⟨hg, hdepth⟩, fun text written h => ?_⟩
  obtain ⟨g, hg, rfl⟩ := Option.map_eq_some_iff.mp h
  obtain ⟨v, -, hv⟩ := Option.bind_eq_some_iff.mp hg
  rw [g.parse?_toJson_iff.mpr (keeps_decode maxDepth v g hv)]
  rfl

/-- A precedence around a quoted quote, and a text with a field that no grammar has. -/
theorem parse?_toJson_quote :
    let g := addRule { name := "quotes" } "s" (.prec (-2) (.string "\"\\\n"))
    let text := compact (.object [("rules", .object [("s", .object [("type", .string "BLANK")])]),
      ("name", .string "blank"), ("note", .array [])])
    g.InRange ∧ g.encode.depth ≤ maxDepth ∧ parse? g.toJson = some g ∧
      ∃ written, (parse? text).map toJson = some written ∧
        (parse? written).map toJson = some written := by
  intro g text
  have hg : g.InRange := by
    refine ⟨fun e he => ?_, by simp [g, addRule], by simp [g, addRule], by simp [g, addRule],
      by simp [g, addRule]⟩
    obtain rfl := List.mem_singleton.mp he
    refine .node (by simp [RuleValue.InRange]) (fun r hr => ?_) (by simp)
    obtain rfl := Option.some.inj hr
    exact .node (by simp [RuleValue.InRange]) (by simp) (by simp)
  have hdepth : g.encode.depth ≤ maxDepth := by decide
  have htext : ((parse? text).map toJson).isSome = true := by decide +kernel
  obtain ⟨written, hwritten⟩ := Option.isSome_iff_exists.mp htext
  exact ⟨hg, hdepth, parse?_toJson.1 g hg hdepth, written, hwritten,
    parse?_toJson.2 text written hwritten⟩

end Grammar

end Glr
