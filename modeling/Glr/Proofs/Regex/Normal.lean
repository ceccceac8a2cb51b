import Glr.Proofs.Regex.Program
import Glr.Proofs.Unicode.CharSet
import Mathlib.Data.List.SplitBy

/-!
# Glr.Proofs.Regex.Normal

The constructors of the normal form build what matches the same texts.  A sequence matches what
its parts match one after another, an alternation what one of its options matches, and a
repetition what its body matches some times over:

```
sequence ns       ≃   the first of ns, then the others
alternation ns    ≃   any of ns
repeated n l m    ≃   n, at least l and at most m times
```

This is said of the texts and not of the order in which options are preferred: what options start
with in common is put in front of all of them, and that changes the order.
-/

namespace Glr.Regex.Node

open Unicode (CharSet)

/-! ## Expressions of ordered sets -/

/-- The sets of an expression are ordered sets of characters or bytes, and its repetitions have
their bounds the right way round. -/
def Proper : Node → Prop
  | .empty => True
  | .chars s => s.Ordered ∧ ∀ c ∈ s, c.isValidChar
  | .bytes s => s.Ordered ∧ ∀ b ∈ s, b < 256
  | .look _ => True
  | .seq a b => a.Proper ∧ b.Proper
  | .alt a b => a.Proper ∧ b.Proper
  | .times body least most _ => body.Proper ∧ ∀ m, most = some m → least ≤ m
  | .group _ body => body.Proper

variable {text : Bytes} {base i j k least : Nat} {most : Option Nat} {greedy : Bool} {n p : Node}
  {ns ps : List Node} {s : CharSet} {ss : List CharSet} {bs : List Nat} {b c : Nat}

theorem spans_chars_iff (hs : s.Ordered) : (Node.chars s).Spans text base i j ↔
    ∃ c ∈ s, c.isValidChar ∧ text.Reads (Utf8.encode c) i j := by
  simp only [Spans, Utf8.decode?_eq_some_iff, hs.contains_iff]
  constructor
  · rintro ⟨c, width, ⟨hvalid, hc⟩, hmem, rfl⟩
    exact ⟨c, hmem, hvalid, hc⟩
  · rintro ⟨c, hmem, hvalid, hc⟩
    obtain rfl := hc.length
    exact ⟨c, _, ⟨hvalid, hc⟩, hmem, rfl⟩

theorem spans_bytes_iff (hs : s.Ordered) : (Node.bytes s).Spans text base i j ↔
    ∃ b ∈ s, text.Reads [b] i j := by
  simp only [Spans, hs.contains_iff, Bytes.Reads, Option.map_eq_some_iff]
  constructor
  · rintro ⟨b, hb, hmem, rfl⟩
    exact ⟨b.toNat, hmem, ⟨b, hb, rfl⟩, rfl⟩
  · rintro ⟨_, hmem, ⟨b, hb, rfl⟩, hj⟩
    exact ⟨b, hb, hmem, hj.symm⟩

/-- Characters of ASCII are bytes. -/
theorem spans_chars_ascii (hs : s.Ordered) (h : s.below 128 = true) :
    (Node.chars s).Spans text base i j ↔ (Node.bytes s).Spans text base i j := by
  rw [spans_chars_iff hs, spans_bytes_iff hs]
  refine exists_congr fun c => and_congr_right fun hc => ?_
  have hlt := CharSet.lt_of_below h hc
  rw [Utf8.encode, if_pos hlt]
  exact and_iff_right (.inl (by omega))

/-! ## Sequences -/

theorem spans_seqs_cons : (seqs (n :: ns)).Spans text base i j ↔
    ∃ k, n.Spans text base i k ∧ (seqs ns).Spans text base k j := by
  cases ns with
  | nil => exact ⟨fun h => ⟨j, h, rfl⟩, fun ⟨k, h, hk⟩ => by rwa [← show k = j from hk]⟩
  | cons m ns => rfl

theorem spans_seqs_append : (seqs (ns ++ ps)).Spans text base i j ↔
    ∃ k, (seqs ns).Spans text base i k ∧ (seqs ps).Spans text base k j := by
  induction ns generalizing i with
  | nil => exact ⟨fun h => ⟨i, rfl, h⟩, fun ⟨k, hk, h⟩ => by rwa [show i = k from hk]⟩
  | cons n ns ih =>
    simp only [List.cons_append, spans_seqs_cons, ih]
    constructor
    · rintro ⟨l, hl, k, hk, h⟩
      exact ⟨k, ⟨l, hl, hk⟩, h⟩
    · rintro ⟨k, ⟨l, hl, hk⟩, h⟩
      exact ⟨l, hl, k, hk, h⟩

theorem spans_seqs_parts : (seqs n.parts).Spans text base i j ↔ n.Spans text base i j := by
  induction n generalizing i j with
  | empty => rfl
  | seq a b iha ihb => simp only [parts, spans_seqs_append, iha, ihb, Spans]
  | chars | bytes | look | alt | times | group => rfl

/-- A sequence matches what its parts match one after another. -/
theorem spans_sequence : (sequence ns).Spans text base i j ↔ (seqs ns).Spans text base i j := by
  rw [sequence]
  induction ns generalizing i with
  | nil => rfl
  | cons n ns ih =>
    simp only [List.flatMap_cons, spans_seqs_append, spans_seqs_cons, spans_seqs_parts, ih]

theorem spans_literal : (literal bs).Spans text base i j ↔ text.Reads bs i j := by
  rw [literal]
  induction bs generalizing i with
  | nil => rfl
  | cons b bs ih =>
    simp only [List.map_cons, spans_seqs_cons, spans_bytes_iff (CharSet.ordered_singleton b),
      CharSet.mem_singleton, exists_eq_left, ih, ← Bytes.reads_append, List.cons_append,
      List.nil_append]

theorem proper_seqs (h : ∀ n ∈ ns, n.Proper) : (seqs ns).Proper := by
  induction ns using seqs.induct with
  | case1 => trivial
  | case2 n => exact h n (by simp)
  | case3 n ns hne ih =>
    rw [seqs]
    · exact ⟨h n (by simp), ih fun m hm => h m (by simp [hm])⟩
    · exact hne

theorem Proper.of_mem_parts (hn : n.Proper) (h : p ∈ n.parts) : p.Proper := by
  induction n with
  | empty => simp [parts] at h
  | seq a b iha ihb =>
    rcases List.mem_append.mp h with h | h
    · exact iha hn.1 h
    · exact ihb hn.2 h
  | chars | bytes | look | alt | times | group => rwa [List.mem_singleton.mp h]

theorem proper_sequence (h : ∀ n ∈ ns, n.Proper) : (sequence ns).Proper :=
  proper_seqs fun _ hp =>
    have ⟨n, hn, hp⟩ := List.mem_flatMap.mp hp
    (h n hn).of_mem_parts hp

theorem proper_singleton (hb : b < 256) : (Node.bytes (.singleton b)).Proper :=
  ⟨CharSet.ordered_singleton b, fun d hd => by rwa [CharSet.mem_singleton.mp hd]⟩

theorem proper_literal (h : ∀ b ∈ bs, b < 256) : (literal bs).Proper :=
  proper_seqs fun _ hp =>
    have ⟨b, hb, hp⟩ := List.mem_map.mp hp
    hp ▸ proper_singleton (h b hb)

/-! ## One character -/

theorem le_of_isValidChar (h : c.isValidChar) : c ≤ 0x10FFFF := by
  unfold Nat.isValidChar at h
  omega

theorem proper_ofChars (hs : (Node.chars s).Proper) : (ofChars s).Proper := by
  unfold ofChars
  split
  · exact ⟨CharSet.ordered_empty, fun b hb => absurd hb CharSet.notMem_empty⟩
  · split
    · rename_i c hc
      have hvalid := hs.2 c ((CharSet.mem_of_single? hc).mpr rfl)
      exact proper_literal fun b => Utf8.lt_of_mem_encode (le_of_isValidChar hvalid)
    · exact hs

theorem spans_ofChars (hs : (Node.chars s).Proper) :
    (ofChars s).Spans text base i j ↔ (Node.chars s).Spans text base i j := by
  unfold ofChars
  split
  · rename_i hempty
    rw [spans_bytes_iff CharSet.ordered_empty, spans_chars_iff hs.1]
    simp [CharSet.notMem_of_isEmpty hempty]
  · split
    · rename_i c hc
      rw [spans_literal, spans_chars_iff hs.1]
      simp only [CharSet.mem_of_single? hc, exists_eq_left]
      exact (and_iff_right (hs.2 c ((CharSet.mem_of_single? hc).mpr rfl))).symm
    · rfl

/-! ## Alternatives -/

theorem spans_alts : (alts ns).Spans text base i j ↔ ∃ n ∈ ns, n.Spans text base i j := by
  induction ns using alts.induct with
  | case1 =>
    rw [alts, spans_bytes_iff CharSet.ordered_empty]
    simp
  | case2 n => simp [alts]
  | case3 n ns hne ih =>
    rw [alts]
    · simp [Spans, ih]
    · exact hne

theorem spans_options : (∃ o ∈ n.options, o.Spans text base i j) ↔ n.Spans text base i j := by
  induction n with
  | alt a b iha ihb =>
    simp only [options, List.mem_append, or_and_right, exists_or, iha, ihb, Spans]
  | empty | chars | bytes | look | seq | times | group => simp [options]

theorem proper_alts (h : ∀ n ∈ ns, n.Proper) : (alts ns).Proper := by
  induction ns using alts.induct with
  | case1 => exact ⟨CharSet.ordered_empty, fun b hb => absurd hb CharSet.notMem_empty⟩
  | case2 n => exact h n (by simp)
  | case3 n ns hne ih =>
    rw [alts]
    · exact ⟨h n (by simp), ih fun m hm => h m (by simp [hm])⟩
    · exact hne

theorem Proper.of_mem_options (hn : n.Proper) (h : p ∈ n.options) : p.Proper := by
  induction n with
  | alt a b iha ihb =>
    rcases List.mem_append.mp h with h | h
    · exact iha hn.1 h
    · exact ihb hn.2 h
  | empty | chars | bytes | look | seq | times | group => rwa [List.mem_singleton.mp h]

/-! ### Options that are one set -/

theorem forall_mapM {α β : Type} {f : α → Option β} {xs : List α} {ys : List β}
    (h : xs.mapM f = some ys) :
    (∀ x ∈ xs, ∃ y ∈ ys, f x = some y) ∧ ∀ y ∈ ys, ∃ x ∈ xs, f x = some y := by
  induction xs generalizing ys with
  | nil =>
    obtain rfl : [] = ys := by simpa using h
    simp
  | cons x xs ih =>
    rw [List.mapM_cons] at h
    simp only [Option.bind_eq_bind, Option.bind_eq_some_iff, Option.pure_def,
      Option.some.injEq] at h
    obtain ⟨y, hy, ys, hys, rfl⟩ := h
    obtain ⟨hxs, hys⟩ := ih hys
    simp only [List.mem_cons, forall_eq_or_imp, exists_eq_or_imp]
    exact ⟨⟨.inl hy, fun x hx => .inr (hxs x hx)⟩, .inl hy, fun y hy => .inr (hys y hy)⟩

theorem of_byte? (hn : n.Proper) (h : n.byte? = some b) :
    b < 256 ∧ ∀ (text : Bytes) (base i j : Nat), n.Spans text base i j ↔ text.Reads [b] i j := by
  unfold byte? at h
  split at h
  · rename_i s
    have hmem (d : Nat) : d ∈ s ↔ d = b := CharSet.mem_of_single? h
    refine ⟨hn.2 b ((hmem b).mpr rfl), fun text base i j => ?_⟩
    simp only [spans_bytes_iff hn.1, hmem, exists_eq_left]
  · contradiction

theorem of_mapM_byte? (hns : ∀ n ∈ ns, n.Proper) (h : ns.mapM byte? = some bs) :
    (∀ b ∈ bs, b < 256) ∧ ∀ (text : Bytes) (base i j : Nat),
      (seqs ns).Spans text base i j ↔ text.Reads bs i j := by
  induction ns generalizing bs with
  | nil =>
    obtain rfl : [] = bs := by simpa using h
    exact ⟨by simp, fun _ _ _ _ => Iff.rfl⟩
  | cons n ns ih =>
    rw [List.mapM_cons] at h
    simp only [Option.bind_eq_bind, Option.bind_eq_some_iff, Option.pure_def,
      Option.some.injEq] at h
    obtain ⟨b, hb, bs, hbs, rfl⟩ := h
    obtain ⟨hbyte, hspans⟩ := of_byte? (hns n List.mem_cons_self) hb
    obtain ⟨hbytes, hrest⟩ := ih (fun m hm => hns m (List.mem_cons_of_mem _ hm)) hbs
    refine ⟨fun d hd => ?_, fun text base i j => ?_⟩
    · rcases List.mem_cons.mp hd with rfl | hd
      · exact hbyte
      · exact hbytes d hd
    · rw [spans_seqs_cons, ← List.singleton_append, Bytes.reads_append]
      exact exists_congr fun k => and_congr (hspans text base i k) (hrest text base k j)

theorem of_literal? (hn : n.Proper) (h : n.literal? = some bs) :
    (∀ b ∈ bs, b < 256) ∧ ∀ (text : Bytes) (base i j : Nat),
      n.Spans text base i j ↔ text.Reads bs i j := by
  simp only [← spans_seqs_parts (n := n)]
  unfold literal? at h
  split at h
  · contradiction
  · exact of_mapM_byte? (fun p hp => hn.of_mem_parts hp) h

theorem of_char? (hn : n.Proper) (h : n.char? = some c) :
    c.isValidChar ∧ ∀ (text : Bytes) (base i j : Nat),
      n.Spans text base i j ↔ text.Reads (Utf8.encode c) i j := by
  unfold char? at h
  simp only [Option.bind_eq_bind, Option.bind_eq_some_iff] at h
  obtain ⟨bs, hbs, ⟨d, width⟩, hd, hc⟩ := h
  split at hc
  · rename_i hwidth
    obtain rfl := Option.some.inj hc
    obtain ⟨hbytes, hspans⟩ := of_literal? hn hbs
    obtain ⟨hvalid, hread⟩ := Utf8.decode?_eq_some_iff.mp hd
    refine ⟨hvalid, fun text base i j => ?_⟩
    -- the bytes are those of the character
    have hall : Bytes.Reads (bs.map Nat.toUInt8).toArray ((bs.map Nat.toUInt8).map UInt8.toNat) 0
        (0 + (bs.map Nat.toUInt8).length) := Bytes.reads_iff.mpr ⟨List.prefix_rfl, rfl⟩
    rw [← hwidth] at hall
    have hback : (bs.map Nat.toUInt8).map UInt8.toNat = bs := by
      rw [List.map_map]
      exact (List.map_congr_left fun b hb => Nat.mod_eq_of_lt (hbytes b hb)).trans (List.map_id bs)
    rw [hspans, ← hback, hread.unique hall]
  · contradiction

theorem of_charSet? (hn : n.Proper) (h : n.charSet? = some s) :
    (Node.chars s).Proper ∧ ∀ (text : Bytes) (base i j : Nat),
      n.Spans text base i j ↔ (Node.chars s).Spans text base i j := by
  unfold charSet? at h
  split at h
  · obtain rfl := Option.some.inj h
    exact ⟨hn, fun _ _ _ _ => Iff.rfl⟩
  · split at h
    · rename_i hascii
      obtain rfl := Option.some.inj h
      rw [Bool.and_eq_true] at hascii
      refine ⟨⟨hn.1, fun c hc => .inl ?_⟩, fun _ _ _ _ => (spans_chars_ascii hn.1 hascii.1).symm⟩
      have := CharSet.lt_of_below hascii.1 hc
      omega
    · contradiction
  · contradiction

theorem of_byteSet? (hn : n.Proper) (h : n.byteSet? = some s) :
    (Node.bytes s).Proper ∧ ∀ (text : Bytes) (base i j : Nat),
      n.Spans text base i j ↔ (Node.bytes s).Spans text base i j := by
  unfold byteSet? at h
  split at h
  · split at h
    · rename_i hascii
      obtain rfl := Option.some.inj h
      refine ⟨⟨hn.1, fun b hb => ?_⟩, fun _ _ _ _ => spans_chars_ascii hn.1 hascii⟩
      have := CharSet.lt_of_below hascii hb
      omega
    · contradiction
  · split at h
    · obtain rfl := Option.some.inj h
      exact ⟨hn, fun _ _ _ _ => Iff.rfl⟩
    · contradiction
  · contradiction

/-- An expression that matches what any of some others matches. -/
structure Joins (ns : List Node) (n : Node) : Prop where
  proper : n.Proper
  spans : ∀ (text : Bytes) (base i j : Nat),
    n.Spans text base i j ↔ ∃ m ∈ ns, m.Spans text base i j

theorem joins_alts (h : ∀ n ∈ ns, n.Proper) : Joins ns (alts ns) :=
  ⟨proper_alts h, fun _ _ _ _ => spans_alts⟩

/-- What each option tells of itself, they tell together. -/
theorem exists_spans_iff {β : Type} {f : Node → Option β} {xs : List β} {Q : β → Prop}
    (h : ns.mapM f = some xs) (hf : ∀ n ∈ ns, ∀ x, f n = some x → (n.Spans text base i j ↔ Q x)) :
    (∃ x ∈ xs, Q x) ↔ ∃ n ∈ ns, n.Spans text base i j := by
  obtain ⟨hns, hxs⟩ := forall_mapM h
  constructor
  · rintro ⟨x, hx, hq⟩
    obtain ⟨n, hn, hnx⟩ := hxs x hx
    exact ⟨n, hn, (hf n hn x hnx).mpr hq⟩
  · rintro ⟨n, hn, hspans⟩
    obtain ⟨x, hx, hnx⟩ := hns n hn
    exact ⟨x, hx, (hf n hn x hnx).mp hspans⟩

theorem proper_chars_unions (h : ∀ s ∈ ss, (Node.chars s).Proper) :
    (Node.chars (.unions ss)).Proper :=
  ⟨CharSet.ordered_unions fun s hs => (h s hs).1, fun c hc => by
    obtain ⟨s, hs, hc⟩ := CharSet.mem_unions.mp hc
    exact (h s hs).2 c hc⟩

theorem spans_chars_unions (h : ∀ s ∈ ss, (Node.chars s).Proper) :
    (Node.chars (.unions ss)).Spans text base i j ↔
      ∃ s ∈ ss, (Node.chars s).Spans text base i j := by
  rw [spans_chars_iff (proper_chars_unions h).1]
  simp only [CharSet.mem_unions]
  constructor
  · rintro ⟨c, ⟨s, hs, hc⟩, hread⟩
    exact ⟨s, hs, (spans_chars_iff (h s hs).1).mpr ⟨c, hc, hread⟩⟩
  · rintro ⟨s, hs, hspans⟩
    obtain ⟨c, hc, hread⟩ := (spans_chars_iff (h s hs).1).mp hspans
    exact ⟨c, ⟨s, hs, hc⟩, hread⟩

theorem proper_bytes_unions (h : ∀ s ∈ ss, (Node.bytes s).Proper) :
    (Node.bytes (.unions ss)).Proper :=
  ⟨CharSet.ordered_unions fun s hs => (h s hs).1, fun b hb => by
    obtain ⟨s, hs, hb⟩ := CharSet.mem_unions.mp hb
    exact (h s hs).2 b hb⟩

theorem spans_bytes_unions (h : ∀ s ∈ ss, (Node.bytes s).Proper) :
    (Node.bytes (.unions ss)).Spans text base i j ↔
      ∃ s ∈ ss, (Node.bytes s).Spans text base i j := by
  rw [spans_bytes_iff (proper_bytes_unions h).1]
  simp only [CharSet.mem_unions]
  constructor
  · rintro ⟨b, ⟨s, hs, hb⟩, hread⟩
    exact ⟨s, hs, (spans_bytes_iff (h s hs).1).mpr ⟨b, hb, hread⟩⟩
  · rintro ⟨s, hs, hspans⟩
    obtain ⟨b, hb, hread⟩ := (spans_bytes_iff (h s hs).1).mp hspans
    exact ⟨b, ⟨s, hs, hb⟩, hread⟩

theorem joins_chars {cs : List Nat} (h : ∀ n ∈ ns, n.Proper) (hcs : ns.mapM char? = some cs) :
    Joins ns (ofChars (.ofElements cs)) := by
  have hproper : (Node.chars (.ofElements cs)).Proper := by
    refine ⟨CharSet.ordered_ofElements cs, fun c hc => ?_⟩
    obtain ⟨n, hn, hnc⟩ := (forall_mapM hcs).2 c (CharSet.mem_ofElements.mp hc)
    exact (of_char? (h n hn) hnc).1
  refine ⟨proper_ofChars hproper, fun text base i j => ?_⟩
  rw [spans_ofChars hproper, spans_chars_iff hproper.1]
  simp only [CharSet.mem_ofElements]
  refine exists_spans_iff hcs fun n hn c hnc => ?_
  obtain ⟨hvalid, hspans⟩ := of_char? (h n hn) hnc
  exact (hspans text base i j).trans (and_iff_right hvalid).symm

theorem joins_bytes (h : ∀ n ∈ ns, n.Proper) (hbs : ns.mapM byte? = some bs) :
    Joins ns (.bytes (.ofElements bs)) := by
  refine ⟨⟨CharSet.ordered_ofElements bs, fun b hb => ?_⟩, fun text base i j => ?_⟩
  · obtain ⟨n, hn, hnb⟩ := (forall_mapM hbs).2 b (CharSet.mem_ofElements.mp hb)
    exact (of_byte? (h n hn) hnb).1
  · rw [spans_bytes_iff (CharSet.ordered_ofElements bs)]
    simp only [CharSet.mem_ofElements]
    exact exists_spans_iff hbs fun n hn b hnb => (of_byte? (h n hn) hnb).2 text base i j

theorem joins_charSets (h : ∀ n ∈ ns, n.Proper) (hss : ns.mapM charSet? = some ss) :
    Joins ns (ofChars (.unions ss)) := by
  have hproper : ∀ s ∈ ss, (Node.chars s).Proper := fun s hs =>
    have ⟨n, hn, hns⟩ := (forall_mapM hss).2 s hs
    (of_charSet? (h n hn) hns).1
  refine ⟨proper_ofChars (proper_chars_unions hproper), fun text base i j => ?_⟩
  rw [spans_ofChars (proper_chars_unions hproper), spans_chars_unions hproper]
  exact exists_spans_iff hss fun n hn s hns => (of_charSet? (h n hn) hns).2 text base i j

theorem joins_byteSets (h : ∀ n ∈ ns, n.Proper) (hss : ns.mapM byteSet? = some ss) :
    Joins ns (.bytes (.unions ss)) := by
  have hproper : ∀ s ∈ ss, (Node.bytes s).Proper := fun s hs =>
    have ⟨n, hn, hns⟩ := (forall_mapM hss).2 s hs
    (of_byteSet? (h n hn) hns).1
  refine ⟨proper_bytes_unions hproper, fun text base i j => ?_⟩
  rw [spans_bytes_unions hproper]
  exact exists_spans_iff hss fun n hn s hns => (of_byteSet? (h n hn) hns).2 text base i j

theorem joins_merged? (h : ∀ n ∈ ns, n.Proper) (hn : merged? ns = some n) : Joins ns n := by
  unfold merged? at hn
  cases hchars : ns.mapM char? with
  | some cs =>
    obtain rfl : ofChars (.ofElements cs) = n := by simpa [hchars] using hn
    exact joins_chars h hchars
  | none =>
  cases hbytes : ns.mapM byte? with
  | some bs =>
    obtain rfl : Node.bytes (.ofElements bs) = n := by simpa [hchars, hbytes] using hn
    exact joins_bytes h hbytes
  | none =>
  cases hsets : ns.mapM charSet? with
  | some ss =>
    obtain rfl : ofChars (.unions ss) = n := by simpa [hchars, hbytes, hsets] using hn
    exact joins_charSets h hsets
  | none =>
  cases hbyteSets : ns.mapM byteSet? with
  | some ss =>
    obtain rfl : Node.bytes (.unions ss) = n := by simpa [hchars, hbytes, hsets, hbyteSets] using hn
    exact joins_byteSets h hbyteSets
  | none => simp [hchars, hbytes, hsets, hbyteSets] at hn

theorem joins_choice (h : ∀ n ∈ ns, n.Proper) : Joins ns (choice ns) := by
  unfold choice
  cases hn : merged? ns with
  | some n => exact joins_merged? h hn
  | none => exact joins_alts h

/-! ### What options start with -/

theorem flatten_pieces : n.pieces.flatten = n.parts := List.flatten_splitBy _ _

theorem commonStart_spec (xs ys : List (List Node)) :
    commonStart xs ys <+: xs ∧ commonStart xs ys <+: ys := by
  induction xs generalizing ys with
  | nil => exact ⟨List.nil_prefix, List.nil_prefix⟩
  | cons x xs ih =>
    cases ys with
    | nil => exact ⟨List.nil_prefix, List.nil_prefix⟩
    | cons y ys =>
      rw [commonStart, List.zip_cons_cons, List.takeWhile_cons]
      split
      · rename_i heq
        obtain rfl : x = y := by simpa using heq
        exact ⟨List.cons_prefix_cons.mpr ⟨rfl, (ih ys).1⟩,
          List.cons_prefix_cons.mpr ⟨rfl, (ih ys).2⟩⟩
      · exact ⟨List.nil_prefix, List.nil_prefix⟩

theorem foldl_commonStart (first : List (List Node)) (rest : List (List (List Node))) :
    ∀ ps ∈ first :: rest, rest.foldl commonStart first <+: ps := by
  induction rest generalizing first with
  | nil => simp
  | cons second rest ih =>
    have hfirst : rest.foldl commonStart (commonStart first second) <+: commonStart first second :=
      ih (commonStart first second) _ List.mem_cons_self
    intro ps hps
    rw [List.foldl_cons]
    rcases List.mem_cons.mp hps with rfl | hps
    · exact hfirst.trans (commonStart_spec _ _).1
    rcases List.mem_cons.mp hps with rfl | hps
    · exact hfirst.trans (commonStart_spec _ _).2
    · exact ih (commonStart first second) ps (List.mem_cons_of_mem _ hps)

theorem joins_factored? (h : ∀ n ∈ ns, n.Proper) (hn : factored? ns = some n) : Joins ns n := by
  unfold factored? at hn
  split at hn
  · contradiction
  rename_i first rest hpieces
  dsimp only at hn
  split at hn
  · contradiction
  obtain rfl := Option.some.inj hn
  rw [← hpieces]
  obtain ⟨start, hstart⟩ : ∃ start, start = rest.foldl commonStart first := ⟨_, rfl⟩
  rw [← hstart, List.map_map]
  have hsplit : ∀ m ∈ ns, m.parts = start.flatten ++ (m.pieces.drop start.length).flatten := by
    intro m hm
    have hbegins : start <+: m.pieces :=
      hstart ▸ foldl_commonStart first rest m.pieces
        (hpieces ▸ List.mem_map_of_mem hm)
    obtain ⟨rest, hrest⟩ := hbegins
    rw [← flatten_pieces, ← hrest, List.drop_left, List.flatten_append]
  have hparts : ∀ m ∈ ns, ∀ p ∈ start.flatten ++ (m.pieces.drop start.length).flatten, p.Proper :=
    fun m hm p hp => (h m hm).of_mem_parts (hsplit m hm ▸ hp)
  -- each option is the start and what it goes on with
  have hchoice : Joins _ (choice ((ns.map fun m =>
      seqs (m.pieces.drop start.length).flatten).flatMap options)) := joins_choice fun o ho => by
    obtain ⟨_, htail, ho⟩ := List.mem_flatMap.mp ho
    obtain ⟨m, hm, rfl⟩ := List.mem_map.mp htail
    exact (proper_seqs fun p hp => hparts m hm p (List.mem_append_right _ hp)).of_mem_options ho
  refine ⟨proper_sequence fun p hp => ?_, fun text base i j => ?_⟩
  · rcases List.mem_append.mp hp with hp | hp
    · obtain ⟨m, hm⟩ : ∃ m, m ∈ ns := by
        rcases ns with _ | ⟨m, ns⟩
        · simp at hpieces
        · exact ⟨m, List.mem_cons_self⟩
      exact hparts m hm p (List.mem_append_left _ hp)
    · rw [List.mem_singleton.mp hp]
      exact hchoice.proper
  · rw [spans_sequence, spans_seqs_append]
    have htail (k : Nat) : (choice ((ns.map fun m =>
        seqs (m.pieces.drop start.length).flatten).flatMap options)).Spans text base k j ↔
        ∃ m ∈ ns, (seqs (m.pieces.drop start.length).flatten).Spans text base k j := by
      rw [hchoice.spans]
      simp only [List.mem_flatMap, List.mem_map, ← spans_options (n := seqs _)]
      constructor
      · rintro ⟨o, ⟨_, ⟨m, hm, rfl⟩, ho⟩, hspans⟩
        exact ⟨m, hm, o, ho, hspans⟩
      · rintro ⟨m, hm, o, ho, hspans⟩
        exact ⟨o, ⟨_, ⟨m, hm, rfl⟩, ho⟩, hspans⟩
    have hwhole (m : Node) (hm : m ∈ ns) : m.Spans text base i j ↔
        ∃ k, (seqs start.flatten).Spans text base i k ∧
          (seqs (m.pieces.drop start.length).flatten).Spans text base k j := by
      rw [← spans_seqs_parts, hsplit m hm, spans_seqs_append]
    constructor
    · rintro ⟨k, hk, hrest⟩
      obtain ⟨m, hm, hspans⟩ := (htail k).mp hrest
      exact ⟨m, hm, (hwhole m hm).mpr ⟨k, hk, hspans⟩⟩
    · rintro ⟨m, hm, hspans⟩
      obtain ⟨k, hk, hspans⟩ := (hwhole m hm).mp hspans
      exact ⟨k, hk, (htail k).mpr ⟨m, hm, hspans⟩⟩

/-- An alternation matches what one of its options matches. -/
theorem joins_alternation (h : ∀ n ∈ ns, n.Proper) : Joins ns (alternation ns) := by
  have hoptions : ∀ o ∈ ns.flatMap options, o.Proper := fun o ho =>
    have ⟨n, hn, ho⟩ := List.mem_flatMap.mp ho
    (h n hn).of_mem_options ho
  have hjoins : Joins (ns.flatMap options) (alternation ns) := by
    unfold alternation
    split
    · rename_i n hn
      rw [hn] at hoptions ⊢
      exact ⟨hoptions n List.mem_cons_self, fun _ _ _ _ => by simp⟩
    · cases hmerged : merged? (ns.flatMap options) with
      | some n => exact joins_merged? hoptions hmerged
      | none =>
        cases hfactored : factored? (ns.flatMap options) with
        | some n => exact joins_factored? hoptions hfactored
        | none => exact joins_alts hoptions
  refine ⟨hjoins.proper, fun text base i j => ?_⟩
  rw [hjoins.spans]
  constructor
  · rintro ⟨o, ho, hspans⟩
    obtain ⟨n, hn, ho⟩ := List.mem_flatMap.mp ho
    exact ⟨n, hn, spans_options.mp ⟨o, ho, hspans⟩⟩
  · rintro ⟨n, hn, hspans⟩
    obtain ⟨o, ho, hspans⟩ := spans_options.mpr hspans
    exact ⟨o, List.mem_flatMap.mpr ⟨n, hn, ho⟩, hspans⟩

/-! ## Repetition -/

/-- Steps that stay where they are stay there together. -/
theorem eq_of_steps {R : Nat → Nat → Prop} (h : ∀ i j, R i j → i = j) (hsteps : Steps R k i j) :
    i = j := by
  induction k generalizing i with
  | zero => exact hsteps
  | succ k ih =>
    obtain ⟨l, hl, hrest⟩ := hsteps
    exact (h i l hl).trans (ih hrest)

theorem steps_self {R : Nat → Nat → Prop} (h : R i i) (k : Nat) : Steps R k i i := by
  induction k with
  | zero => rfl
  | succ k ih => exact ⟨i, h, ih⟩

/-- What is seen to take no bytes takes none. -/
theorem eq_of_mostLength (hn : n.Proper) (h : n.mostLength = some 0)
    (hspans : n.Spans text base i j) : i = j := by
  induction n generalizing i j with
  | empty => exact hspans
  | chars s =>
    obtain ⟨c, -, hc⟩ := Option.map_eq_some_iff.mp h
    unfold Utf8.width at hc
    split_ifs at hc
  | bytes s =>
    obtain ⟨b, -, hb⟩ := Option.map_eq_some_iff.mp h
    contradiction
  | look l => exact hspans.2
  | seq a b iha ihb =>
    simp only [mostLength, Option.bind_eq_bind, Option.bind_eq_some_iff, Option.pure_def,
      Option.some.injEq, Nat.add_eq_zero_iff] at h
    obtain ⟨_, ha, _, hb, rfl, rfl⟩ := h
    obtain ⟨k, hik, hkj⟩ := hspans
    exact (iha hn.1 ha hik).trans (ihb hn.2 hb hkj)
  | alt a b iha ihb =>
    simp only [mostLength, Option.bind_eq_bind, Option.bind_eq_some_iff, Option.pure_def,
      Option.some.injEq, Nat.max_eq_zero_iff] at h
    obtain ⟨_, ha, _, hb, rfl, rfl⟩ := h
    rcases hspans with hspans | hspans
    · exact iha hn.1 ha hspans
    · exact ihb hn.2 hb hspans
  | times body least most greedy ih =>
    simp only [mostLength, Option.bind_eq_bind, Option.bind_eq_some_iff, Option.pure_def,
      Option.some.injEq, Nat.mul_eq_zero] at h
    obtain ⟨m, rfl, _, hbody, hzero⟩ := h
    obtain ⟨n, hleast, hmost, hsteps⟩ := hspans
    rcases hzero with rfl | rfl
    · have := hn.2 0 rfl
      have := hmost 0 rfl
      obtain rfl : n = 0 := by omega
      exact hsteps
    · exact eq_of_steps (fun _ _ => ih hn.1 hbody) hsteps
  | group index body ih => exact ih hn h hspans

theorem spans_times_iff (hbounds : ∀ m, most = some m → least ≤ m) :
    (n.times least most greedy).Spans text base i j ↔
      ∃ k, least ≤ k ∧ (∀ m, most = some m → k ≤ m) ∧ Steps (n.Spans text base) k i j := by
  refine exists_congr fun k => and_congr_right fun _ => and_congr_left fun _ => ?_
  refine forall_congr' fun m => forall_congr' fun hm => ?_
  rw [max_eq_right (hbounds m hm)]

/-- A repetition of none and a repetition of one are told without a repetition. -/
theorem spans_simplified (hn : n.Proper) (hbounds : ∀ m, most = some m → least ≤ m)
    (greedy : Bool) :
    let r := if least = 0 ∧ most = some 0 then .empty
      else if least = 1 ∧ most = some 1 then n else n.times least most greedy
    r.Proper ∧ ∀ (text : Bytes) (base i j : Nat), r.Spans text base i j ↔
      ∃ k, least ≤ k ∧ (∀ m, most = some m → k ≤ m) ∧ Steps (n.Spans text base) k i j := by
  dsimp only
  split_ifs with hnone hone
  · obtain ⟨rfl, rfl⟩ := hnone
    refine ⟨trivial, fun text base i j => ⟨fun h => ⟨0, le_rfl, fun _ _ => Nat.zero_le _, h⟩, ?_⟩⟩
    rintro ⟨k, -, hk, h⟩
    obtain rfl : k = 0 := Nat.le_zero.mp (hk 0 rfl)
    exact h
  · obtain ⟨rfl, rfl⟩ := hone
    refine ⟨hn, fun text base i j =>
      ⟨fun h => ⟨1, le_rfl, fun m hm => (Option.some.inj hm).le, steps_one.mpr h⟩, ?_⟩⟩
    rintro ⟨k, hleast, hk, h⟩
    obtain rfl : k = 1 := le_antisymm (hk 1 rfl) hleast
    exact steps_one.mp h
  · exact ⟨⟨hn, hbounds⟩, fun _ _ _ _ => spans_times_iff hbounds⟩

/-- Steps that stay where they are do so once as well as more often. -/
theorem exists_steps_once_iff {R : Nat → Nat → Prop} (hR : ∀ i j, R i j → i = j)
    (hbounds : ∀ m, most = some m → least ≤ m) :
    (∃ k, min least 1 ≤ k ∧ (∀ m, some (min (most.getD 1) 1) = some m → k ≤ m) ∧ Steps R k i j) ↔
      ∃ k, least ≤ k ∧ (∀ m, most = some m → k ≤ m) ∧ Steps R k i j := by
  constructor
  · rintro ⟨k, hleast, hmost, hsteps⟩
    have hmost := hmost _ rfl
    rcases k with _ | k
    · exact ⟨0, by omega, fun _ _ => Nat.zero_le _, hsteps⟩
    obtain rfl : k = 0 := by omega
    have hone : R i j := steps_one.mp hsteps
    obtain rfl := hR i j hone
    refine ⟨max least 1, le_max_left _ _, ?_, steps_self hone _⟩
    rintro m rfl
    have := hbounds m rfl
    rw [Option.getD_some] at hmost
    omega
  · rintro ⟨k, hleast, hmost, hsteps⟩
    rcases k with _ | k
    · exact ⟨0, by omega, fun _ _ => Nat.zero_le _, hsteps⟩
    obtain ⟨l, hil, hlj⟩ := hsteps
    obtain rfl := hR i l hil
    obtain rfl := eq_of_steps hR hlj
    refine ⟨1, min_le_right _ _, ?_, steps_one.mpr hil⟩
    rintro _ ⟨⟩
    cases most with
    | none => exact le_rfl
    | some m =>
      have := hmost m rfl
      rw [Option.getD_some]
      omega

/-- An expression repeated matches what it matches some times over. -/
theorem spans_repeated (hn : n.Proper) (hbounds : ∀ m, most = some m → least ≤ m)
    (greedy : Bool) :
    (n.repeated least most greedy).Proper ∧ ∀ (text : Bytes) (base i j : Nat),
      (n.repeated least most greedy).Spans text base i j ↔
        ∃ k, least ≤ k ∧ (∀ m, most = some m → k ≤ m) ∧ Steps (n.Spans text base) k i j := by
  by_cases honce : n.mostLength = some 0
  · have hbounds' : ∀ m, some (min (most.getD 1) 1) = some m → min least 1 ≤ m := by
      rintro _ ⟨⟩
      cases most with
      | none => exact min_le_right _ _
      | some m => exact min_le_min_right 1 (hbounds m rfl)
    simp only [repeated, honce, if_true]
    exact (spans_simplified hn hbounds' greedy).imp_right fun hspans text base i j =>
      (hspans text base i j).trans
        (exists_steps_once_iff (fun _ _ => eq_of_mostLength hn honce) hbounds)
  · simp only [repeated, honce, if_false]
    exact spans_simplified hn hbounds greedy

end Glr.Regex.Node
