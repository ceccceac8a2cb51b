import Glr.Text.Bytes
import Mathlib.Tactic.SplitIfs
import Mathlib.Tactic.NormNum

/-!
# Glr.Proofs.Text.Utf8

Characters and their bytes.  A character is read where its bytes stand,

```
decode? text i = some (c, w)   ⟺   encode c stands in the text from i to i + w,  c a character
```

and a byte that announces others announces just those of its character.
-/

namespace Glr

/-- Some bytes stand in a text from one offset to another one. -/
def Bytes.Reads (text : Bytes) : List Nat → Nat → Nat → Prop
  | [], i, j => i = j
  | b :: bs, i, j => text[i]?.map UInt8.toNat = some b ∧ text.Reads bs (i + 1) j

theorem Bytes.Reads.length {text : Bytes} {bs : List Nat} {i j : Nat} (h : text.Reads bs i j) :
    j = i + bs.length := by
  induction bs generalizing i with
  | nil => exact h.symm
  | cons b bs ih =>
    have := ih h.2
    rw [List.length_cons]
    omega

theorem Bytes.reads_append {text : Bytes} {bs bs' : List Nat} {i k : Nat} :
    text.Reads (bs ++ bs') i k ↔ ∃ j, text.Reads bs i j ∧ text.Reads bs' j k := by
  induction bs generalizing i with
  | nil => exact ⟨fun h => ⟨i, rfl, h⟩, fun ⟨_, hij, h⟩ => hij ▸ h⟩
  | cons b bs ih =>
    simp only [List.cons_append, Reads, ih]
    exact ⟨fun ⟨hb, j, h⟩ => ⟨j, ⟨hb, h.1⟩, h.2⟩, fun ⟨j, ⟨hb, h⟩, h'⟩ => ⟨hb, j, h, h'⟩⟩

theorem Bytes.Reads.unique {text : Bytes} {bs bs' : List Nat} {i j : Nat} (h : text.Reads bs i j)
    (h' : text.Reads bs' i j) : bs = bs' := by
  have hlength : bs.length = bs'.length := Nat.add_left_cancel (h.length.symm.trans h'.length)
  induction bs generalizing bs' i with
  | nil => exact (List.length_eq_zero_iff.mp hlength.symm).symm
  | cons b bs ih =>
    obtain ⟨b', bs', rfl⟩ := List.exists_cons_of_length_eq_add_one hlength.symm
    rw [Option.some.inj (h.1.symm.trans h'.1), ih h.2 h'.2 (Nat.succ.inj hlength)]

/-- Bytes that stand in a text are what the text goes on with. -/
theorem Bytes.reads_iff {text : Bytes} {w : List UInt8} {i j : Nat} :
    text.Reads (w.map UInt8.toNat) i j ↔ w <+: text.toList.drop i ∧ j = i + w.length := by
  induction w generalizing i with
  | nil => simp [Reads, eq_comm]
  | cons b w ih =>
    rw [List.map_cons, Reads, ih, List.length_cons]
    have hb : text[i]?.map UInt8.toNat = some b.toNat ↔ text[i]? = some b := by
      simp [UInt8.toNat_inj]
    rw [hb, ← Array.getElem?_toList]
    constructor
    · rintro ⟨hi, hw, rfl⟩
      rw [List.drop_eq_getElem?_toList_append, hi]
      exact ⟨List.cons_prefix_cons.mpr ⟨rfl, hw⟩, by omega⟩
    · rintro ⟨hw, rfl⟩
      have hi : text.toList[i]? = some b := by
        obtain ⟨rest, hrest⟩ := hw
        rw [← List.head?_drop, ← hrest]
        rfl
      rw [List.drop_eq_getElem?_toList_append, hi] at hw
      exact ⟨hi, (List.cons_prefix_cons.mp hw).2, by omega⟩

namespace Utf8

variable {text : Bytes} {i : Nat}

/-- The bytes that announce a character. -/
theorem lead?_eq (b : UInt8) : lead? b =
    if b.toNat < 0x80 then some (0, b.toNat, 0x80, 0xBF)
    else if 0xC2 ≤ b.toNat ∧ b.toNat ≤ 0xDF then some (1, b.toNat - 0xC0, 0x80, 0xBF)
    else if 0xE0 ≤ b.toNat ∧ b.toNat ≤ 0xEF then
      some (2, b.toNat - 0xE0, if b.toNat = 0xE0 then 0xA0 else 0x80,
        if b.toNat = 0xED then 0x9F else 0xBF)
    else if 0xF0 ≤ b.toNat ∧ b.toNat ≤ 0xF4 then
      some (3, b.toNat - 0xF0, if b.toNat = 0xF0 then 0x90 else 0x80,
        if b.toNat = 0xF4 then 0x8F else 0xBF)
    else none := by
  have hall : ∀ i : Fin 256, lead? (UInt8.ofFin i) =
      if i.val < 0x80 then some (0, i.val, 0x80, 0xBF)
      else if 0xC2 ≤ i.val ∧ i.val ≤ 0xDF then some (1, i.val - 0xC0, 0x80, 0xBF)
      else if 0xE0 ≤ i.val ∧ i.val ≤ 0xEF then
        some (2, i.val - 0xE0, if i.val = 0xE0 then 0xA0 else 0x80,
          if i.val = 0xED then 0x9F else 0xBF)
      else if 0xF0 ≤ i.val ∧ i.val ≤ 0xF4 then
        some (3, i.val - 0xF0, if i.val = 0xF0 then 0x90 else 0x80,
          if i.val = 0xF4 then 0x8F else 0xBF)
      else none := by
    decide +kernel
  exact hall b.toFin

theorem tail?_eq (b : UInt8) :
    tail? b = if 0x80 ≤ b.toNat ∧ b.toNat ≤ 0xBF then some (b.toNat - 0x80) else none := by
  simp [tail?, UInt8.le_iff_toNat_le]

/-- What the bytes behind the second one add. -/
theorem tails_succ_eq_ok_iff {count first value result : Nat} :
    tails text (count + 1) first value = .ok result ↔
      ∃ b, text[first]?.map UInt8.toNat = some b ∧ 0x80 ≤ b ∧ b ≤ 0xBF ∧
        tails text count (first + 1) (value * 64 + (b - 0x80)) = .ok result := by
  rw [tails]
  cases hb : text[first]? with
  | none => simp
  | some b =>
    simp only [Option.bind_some, tail?_eq, Option.map_some, Option.some.injEq, exists_eq_left']
    split_ifs with hrange
    · simp only [hrange, true_and]
      cases tails text count (first + 1) (value * 64 + (b.toNat - 0x80)) <;> simp
    · simp only [false_iff]
      exact fun h => hrange ⟨h.1, h.2.1⟩

/-- How a character of each width is made up of its bytes. -/
inductive Decodes (text : Bytes) (i : Nat) : Nat → Nat → Prop where
  | one {a : Nat} (ha : text[i]?.map UInt8.toNat = some a) (h : a < 0x80) : Decodes text i a 1
  | two {a b : Nat} (ha : text[i]?.map UInt8.toNat = some a)
      (hb : text[i + 1]?.map UInt8.toNat = some b) (h : 0xC2 ≤ a ∧ a ≤ 0xDF)
      (h1 : 0x80 ≤ b ∧ b ≤ 0xBF) : Decodes text i ((a - 0xC0) * 64 + (b - 0x80)) 2
  | three {a b c : Nat} (ha : text[i]?.map UInt8.toNat = some a)
      (hb : text[i + 1]?.map UInt8.toNat = some b) (hc : text[i + 2]?.map UInt8.toNat = some c)
      (h : 0xE0 ≤ a ∧ a ≤ 0xEF)
      (h1 : (if a = 0xE0 then 0xA0 else 0x80) ≤ b ∧ b ≤ if a = 0xED then 0x9F else 0xBF)
      (h2 : 0x80 ≤ c ∧ c ≤ 0xBF) :
      Decodes text i (((a - 0xE0) * 64 + (b - 0x80)) * 64 + (c - 0x80)) 3
  | four {a b c d : Nat} (ha : text[i]?.map UInt8.toNat = some a)
      (hb : text[i + 1]?.map UInt8.toNat = some b) (hc : text[i + 2]?.map UInt8.toNat = some c)
      (hd : text[i + 3]?.map UInt8.toNat = some d) (h : 0xF0 ≤ a ∧ a ≤ 0xF4)
      (h1 : (if a = 0xF0 then 0x90 else 0x80) ≤ b ∧ b ≤ if a = 0xF4 then 0x8F else 0xBF)
      (h2 : 0x80 ≤ c ∧ c ≤ 0xBF) (h3 : 0x80 ≤ d ∧ d ≤ 0xBF) :
      Decodes text i ((((a - 0xF0) * 64 + (b - 0x80)) * 64 + (c - 0x80)) * 64 + (d - 0x80)) 4

theorem Decodes.reads {c width : Nat} (h : Decodes text i c width) :
    c.isValidChar ∧ text.Reads (encode c) i (i + width) := by
  unfold Nat.isValidChar
  cases h with
  | one ha h =>
    rw [encode, if_pos h]
    exact ⟨.inl (by omega), ha, rfl⟩
  | @two a b ha hb h h1 =>
    rw [encode, if_neg (by omega), if_pos (by omega),
      show 0xC0 + ((a - 0xC0) * 64 + (b - 0x80)) / 64 = a by omega,
      show 0x80 + ((a - 0xC0) * 64 + (b - 0x80)) % 64 = b by omega]
    exact ⟨.inl (by omega), ha, hb, rfl⟩
  | @three a b c ha hb hc h h1 h2 =>
    have hlow : a = 0xE0 → 0xA0 ≤ b := fun heq => by simpa [heq] using h1.1
    have hhigh : a = 0xED → b ≤ 0x9F := fun heq => by simpa [heq] using h1.2
    have hb' : 0x80 ≤ b ∧ b ≤ 0xBF := by split_ifs at h1 <;> omega
    clear h1
    rw [encode, if_neg (by omega), if_neg (by omega), if_pos (by omega)]
    refine ⟨by omega, ?_⟩
    rw [show 0xE0 + (((a - 0xE0) * 64 + (b - 0x80)) * 64 + (c - 0x80)) / 4096 = a by omega,
      show 0x80 + (((a - 0xE0) * 64 + (b - 0x80)) * 64 + (c - 0x80)) / 64 % 64 = b by omega,
      show 0x80 + (((a - 0xE0) * 64 + (b - 0x80)) * 64 + (c - 0x80)) % 64 = c by omega]
    exact ⟨ha, hb, hc, rfl⟩
  | @four a b c d ha hb hc hd h h1 h2 h3 =>
    have hlow : a = 0xF0 → 0x90 ≤ b := fun heq => by simpa [heq] using h1.1
    have hhigh : a = 0xF4 → b ≤ 0x8F := fun heq => by simpa [heq] using h1.2
    have hb' : 0x80 ≤ b ∧ b ≤ 0xBF := by split_ifs at h1 <;> omega
    clear h1
    rw [encode, if_neg (by omega), if_neg (by omega), if_neg (by omega)]
    refine ⟨by omega, ?_⟩
    rw [show 0xF0 + ((((a - 0xF0) * 64 + (b - 0x80)) * 64 + (c - 0x80)) * 64 + (d - 0x80)) / 262144
        = a by omega,
      show 0x80 + ((((a - 0xF0) * 64 + (b - 0x80)) * 64 + (c - 0x80)) * 64 + (d - 0x80)) / 4096 % 64
        = b by omega,
      show 0x80 + ((((a - 0xF0) * 64 + (b - 0x80)) * 64 + (c - 0x80)) * 64 + (d - 0x80)) / 64 % 64
        = c by omega,
      show 0x80 + ((((a - 0xF0) * 64 + (b - 0x80)) * 64 + (c - 0x80)) * 64 + (d - 0x80)) % 64
        = d by omega]
    exact ⟨ha, hb, hc, hd, rfl⟩

theorem decodes_of_reads {c width : Nat} (hc : c.isValidChar)
    (h : text.Reads (encode c) i (i + width)) : Decodes text i c width := by
  have hwidth := Nat.add_left_cancel h.length
  subst hwidth
  unfold Nat.isValidChar at hc
  unfold encode at h ⊢
  split_ifs at h ⊢ with h1 h2 h3
  · exact .one h.1 h1
  · have := Decodes.two h.1 h.2.1 (by omega) (by omega)
    rwa [show (0xC0 + c / 64 - 0xC0) * 64 + (0x80 + c % 64 - 0x80) = c by omega] at this
  · have := Decodes.three h.1 h.2.1 h.2.2.1 (by omega) (by split_ifs <;> omega) (by omega)
    rwa [show ((0xE0 + c / 4096 - 0xE0) * 64 + (0x80 + c / 64 % 64 - 0x80)) * 64 +
      (0x80 + c % 64 - 0x80) = c by omega] at this
  · have := Decodes.four h.1 h.2.1 h.2.2.1 h.2.2.2.1 (by omega) (by split_ifs <;> omega) (by omega)
      (by omega)
    rwa [show (((0xF0 + c / 262144 - 0xF0) * 64 + (0x80 + c / 4096 % 64 - 0x80)) * 64 +
      (0x80 + c / 64 % 64 - 0x80)) * 64 + (0x80 + c % 64 - 0x80) = c by omega] at this

theorem decode?_eq_some_iff_decodes {c width : Nat} :
    decode? text i = some (c, width) ↔ Decodes text i c width := by
  have hread : decode? text i = some (c, width) ↔ read text i = .ok (c, width) := by
    rw [decode?]
    cases read text i <;> simp
  rw [hread]
  constructor
  · intro h
    rw [read] at h
    split at h
    · contradiction
    rename_i first hfirst
    have ha : text[i]?.map UInt8.toNat = some first.toNat := by rw [hfirst, Option.map_some]
    rw [lead?_eq] at h
    split at h
    · contradiction
    · rename_i value low high hlead
      simp only [Except.ok.injEq, Prod.mk.injEq] at h
      obtain ⟨rfl, rfl⟩ := h
      split_ifs at hlead with h1
      · simp only [Option.some.injEq, Prod.mk.injEq, true_and] at hlead
        rw [← hlead.1]
        exact .one ha h1
      all_goals simp at hlead
    rename_i count value low high hlead
    split at h
    · contradiction
    rename_i second hsecond
    have hb : text[i + 1]?.map UInt8.toNat = some second.toNat := by rw [hsecond, Option.map_some]
    split at h
    · rename_i hrange
      rw [UInt8.le_iff_toNat_le, UInt8.le_iff_toNat_le] at hrange
      split at h
      · rename_i result htails
        simp only [Except.ok.injEq, Prod.mk.injEq] at h
        obtain ⟨rfl, rfl⟩ := h
        by_cases h1 : first.toNat < 0x80
        · rw [if_pos h1] at hlead
          simp at hlead
        rw [if_neg h1] at hlead
        by_cases h2 : 0xC2 ≤ first.toNat ∧ first.toNat ≤ 0xDF
        · rw [if_pos h2] at hlead
          simp only [Option.some.injEq, Prod.mk.injEq] at hlead
          obtain ⟨hcount, rfl, rfl, rfl⟩ := hlead
          obtain rfl : count = 0 := (Nat.succ.inj hcount).symm
          obtain rfl := Except.ok.inj htails
          exact .two ha hb h2 hrange
        rw [if_neg h2] at hlead
        by_cases h3 : 0xE0 ≤ first.toNat ∧ first.toNat ≤ 0xEF
        · rw [if_pos h3] at hlead
          simp only [Option.some.injEq, Prod.mk.injEq] at hlead
          obtain ⟨hcount, rfl, rfl, rfl⟩ := hlead
          obtain rfl : count = 1 := (Nat.succ.inj hcount).symm
          rw [apply_ite UInt8.toNat, apply_ite UInt8.toNat] at hrange
          obtain ⟨b, hc, hlow, hhigh, htails⟩ := tails_succ_eq_ok_iff.mp htails
          obtain rfl := Except.ok.inj htails
          exact .three ha hb hc h3 hrange ⟨hlow, hhigh⟩
        rw [if_neg h3] at hlead
        by_cases h4 : 0xF0 ≤ first.toNat ∧ first.toNat ≤ 0xF4
        · rw [if_pos h4] at hlead
          simp only [Option.some.injEq, Prod.mk.injEq] at hlead
          obtain ⟨hcount, rfl, rfl, rfl⟩ := hlead
          obtain rfl : count = 2 := (Nat.succ.inj hcount).symm
          rw [apply_ite UInt8.toNat, apply_ite UInt8.toNat] at hrange
          obtain ⟨b, hc, hlow, hhigh, htails⟩ := tails_succ_eq_ok_iff.mp htails
          obtain ⟨d, hd, hlow', hhigh', htails⟩ := tails_succ_eq_ok_iff.mp htails
          obtain rfl := Except.ok.inj htails
          exact .four ha hb hc hd h4 hrange ⟨hlow, hhigh⟩ ⟨hlow', hhigh'⟩
        · rw [if_neg h4] at hlead
          contradiction
      · contradiction
    · contradiction
  · intro h
    cases h with
    | @one a ha h =>
      obtain ⟨first, hfirst, rfl⟩ := Option.map_eq_some_iff.mp ha
      simp only [read, hfirst, lead?_eq, h, if_true]
    | @two a b ha hb h h1 =>
      obtain ⟨first, hfirst, rfl⟩ := Option.map_eq_some_iff.mp ha
      obtain ⟨second, hsecond, rfl⟩ := Option.map_eq_some_iff.mp hb
      rw [read]
      simp only [hfirst, lead?_eq, show ¬first.toNat < 0x80 by omega, h, and_self, if_true,
        if_false, hsecond]
      rw [if_pos (by simpa [UInt8.le_iff_toNat_le] using h1)]
      simp [tails]
    | @three a b c ha hb hc h h1 h2 =>
      obtain ⟨first, hfirst, rfl⟩ := Option.map_eq_some_iff.mp ha
      obtain ⟨second, hsecond, rfl⟩ := Option.map_eq_some_iff.mp hb
      have htails (v : Nat) : tails text 1 (i + 2) v = .ok (v * 64 + (c - 0x80)) :=
        tails_succ_eq_ok_iff.mpr ⟨c, hc, h2.1, h2.2, rfl⟩
      rw [read]
      simp only [hfirst, lead?_eq, show ¬first.toNat < 0x80 by omega,
        show ¬(0xC2 ≤ first.toNat ∧ first.toNat ≤ 0xDF) by omega, h, and_self, if_true,
        if_false, hsecond]
      rw [if_pos (by
        rw [UInt8.le_iff_toNat_le, UInt8.le_iff_toNat_le, apply_ite UInt8.toNat,
          apply_ite UInt8.toNat]
        exact h1), htails]
    | @four a b c d ha hb hc hd h h1 h2 h3 =>
      obtain ⟨first, hfirst, rfl⟩ := Option.map_eq_some_iff.mp ha
      obtain ⟨second, hsecond, rfl⟩ := Option.map_eq_some_iff.mp hb
      have htails (v : Nat) :
          tails text 2 (i + 2) v = .ok ((v * 64 + (c - 0x80)) * 64 + (d - 0x80)) :=
        tails_succ_eq_ok_iff.mpr ⟨c, hc, h2.1, h2.2,
          tails_succ_eq_ok_iff.mpr ⟨d, hd, h3.1, h3.2, rfl⟩⟩
      rw [read]
      simp only [hfirst, lead?_eq, show ¬first.toNat < 0x80 by omega,
        show ¬(0xC2 ≤ first.toNat ∧ first.toNat ≤ 0xDF) by omega,
        show ¬(0xE0 ≤ first.toNat ∧ first.toNat ≤ 0xEF) by omega, h, and_self, if_true,
        if_false, hsecond]
      rw [if_pos (by
        rw [UInt8.le_iff_toNat_le, UInt8.le_iff_toNat_le, apply_ite UInt8.toNat,
          apply_ite UInt8.toNat]
        exact h1), htails]

/-- A character is read exactly where its bytes stand. -/
theorem decode?_eq_some_iff {c width : Nat} :
    decode? text i = some (c, width) ↔ c.isValidChar ∧ text.Reads (encode c) i (i + width) :=
  decode?_eq_some_iff_decodes.trans ⟨Decodes.reads, fun h => decodes_of_reads h.1 h.2⟩

/-- A character takes a byte at least and lies in the text. -/
theorem decode?_bounds {c width : Nat} (h : decode? text i = some (c, width)) :
    0 < width ∧ i + width ≤ text.size := by
  cases decode?_eq_some_iff_decodes.mp h with
  | one ha =>
    obtain ⟨a, ha, -⟩ := Option.map_eq_some_iff.mp ha
    exact ⟨by decide, (Array.getElem?_eq_some_iff.mp ha).1⟩
  | two _ hb =>
    obtain ⟨b, hb, -⟩ := Option.map_eq_some_iff.mp hb
    exact ⟨by decide, (Array.getElem?_eq_some_iff.mp hb).1⟩
  | three _ _ hc =>
    obtain ⟨c, hc, -⟩ := Option.map_eq_some_iff.mp hc
    exact ⟨by decide, (Array.getElem?_eq_some_iff.mp hc).1⟩
  | four _ _ _ hd =>
    obtain ⟨d, hd, -⟩ := Option.map_eq_some_iff.mp hd
    exact ⟨by decide, (Array.getElem?_eq_some_iff.mp hd).1⟩

/-- The bytes of a character. -/
theorem map_utf8EncodeChar (c : Char) :
    (String.utf8EncodeChar c).map UInt8.toNat = encode c.toNat := by
  have hvalid : c.val.toNat < 0x110000 := by
    rcases c.valid with h | h
    · exact h.trans (by decide)
    · exact h.2
  rw [Char.toNat]
  unfold String.utf8EncodeChar encode
  generalize c.val.toNat = v at hvalid ⊢
  dsimp only
  split_ifs <;> first | omega | (simp; try omega)

end Utf8

end Glr
