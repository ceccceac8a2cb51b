/-!
# Glr.Text.Bytes

Texts are arrays of bytes.  A text need not be well-formed UTF-8: every
offset, length and match is counted in bytes, and characters are only decoded
where a rule speaks of characters.

* `Utf8.decode?` — the character that starts at an offset, with its width;
* `Utf8.encode` — the bytes of a code point;
* `Bytes.toString?` — the text as a string, if it is well-formed throughout;
* `Bytes.toStringLossy` — the text as a string, each maximal ill-formed part
  replaced by U+FFFD.
-/

namespace Glr

/-- A text: its bytes in order. -/
abbrev Bytes := Array UInt8

/-- The line feed, the only byte that ends a line. -/
def lineFeed : UInt8 := 10

namespace Bytes

/-- The UTF-8 bytes of a string. -/
def ofString (s : String) : Bytes := s.toUTF8.data

/-- Whether `part` stands in `text` at offset `start`. -/
def hasAt (text part : Bytes) (start : Nat) : Bool :=
  (List.range part.size).all fun i => text[start + i]? == part[i]?

theorem hasAt_iff {text part : Bytes} {start : Nat} :
    text.hasAt part start = true ↔ ∀ i < part.size, text[start + i]? = part[i]? := by
  simp [hasAt]

/-- Whether `text` begins with `part`. -/
def startsWith (text part : Bytes) : Bool := text.hasAt part 0

/-- The offset of the first line feed among `count` bytes from offset `start`. -/
def lineFeedWithin? (text : Bytes) : Nat → Nat → Option Nat
  | 0, _ => none
  | count + 1, start =>
    if text[start]? = some lineFeed then some start else lineFeedWithin? text count (start + 1)

/-- The offset of the first line feed at offset `start` or later. -/
def lineFeedFrom? (text : Bytes) (start : Nat) : Option Nat :=
  text.lineFeedWithin? (text.size - start) start

theorem lineFeedWithin?_eq_none_iff {text : Bytes} {count start : Nat} :
    text.lineFeedWithin? count start = none ↔
      ∀ i, start ≤ i → i < start + count → text[i]? ≠ some lineFeed := by
  induction count generalizing start with
  | zero => simp only [lineFeedWithin?, true_iff]; intros; omega
  | succ count ih =>
    unfold lineFeedWithin?
    split
    · rename_i h
      simp only [reduceCtorEq, false_iff]
      exact fun hn => hn start (Nat.le_refl _) (by omega) h
    · rename_i h
      rw [ih]
      constructor
      · intro hn i hi hlt
        rcases Nat.eq_or_lt_of_le hi with rfl | hi
        · exact h
        · exact hn i hi (by omega)
      · intro hn i hi hlt
        exact hn i (by omega) (by omega)

theorem lineFeedWithin?_eq_some {text : Bytes} {count start i : Nat}
    (h : text.lineFeedWithin? count start = some i) :
    start ≤ i ∧ text[i]? = some lineFeed ∧ ∀ j, start ≤ j → j < i → text[j]? ≠ some lineFeed := by
  induction count generalizing start with
  | zero => simp [lineFeedWithin?] at h
  | succ count ih =>
    unfold lineFeedWithin? at h
    split at h
    · rename_i hs
      obtain rfl := Option.some.inj h
      exact ⟨Nat.le_refl _, hs, by intros; omega⟩
    · rename_i hs
      obtain ⟨hle, hi, hmin⟩ := ih h
      refine ⟨by omega, hi, fun j hj hlt => ?_⟩
      rcases Nat.eq_or_lt_of_le hj with rfl | hj
      · exact hs
      · exact hmin j hj hlt

theorem lineFeedFrom?_eq_none_iff {text : Bytes} {start : Nat} :
    text.lineFeedFrom? start = none ↔ ∀ i, start ≤ i → text[i]? ≠ some lineFeed := by
  rw [lineFeedFrom?, lineFeedWithin?_eq_none_iff]
  constructor
  · intro h i hi hf
    have := (Array.getElem?_eq_some_iff.mp hf).1
    exact h i hi (by omega) hf
  · exact fun h i hi _ => h i hi

/-- The line feed that is found is the first one. -/
theorem lineFeedFrom?_eq_some {text : Bytes} {start i : Nat}
    (h : text.lineFeedFrom? start = some i) :
    start ≤ i ∧ text[i]? = some lineFeed ∧ ∀ j, start ≤ j → j < i → text[j]? ≠ some lineFeed :=
  lineFeedWithin?_eq_some h

end Bytes

namespace Utf8

/-- The value of a continuation byte, `none` for any other byte. -/
def tail? (b : UInt8) : Option Nat :=
  if 0x80 ≤ b ∧ b ≤ 0xBF then some (b.toNat - 0x80) else none

/-- How a first byte announces a character: how many bytes follow it, the bits
it contributes, and the range that the second byte must lie in. -/
def lead? (b : UInt8) : Option (Nat × Nat × UInt8 × UInt8) :=
  if b < 0x80 then some (0, b.toNat, 0x80, 0xBF)
  else if 0xC2 ≤ b ∧ b ≤ 0xDF then some (1, b.toNat - 0xC0, 0x80, 0xBF)
  else if b = 0xE0 then some (2, 0, 0xA0, 0xBF)
  else if b = 0xED then some (2, 0xD, 0x80, 0x9F)
  else if 0xE1 ≤ b ∧ b ≤ 0xEF then some (2, b.toNat - 0xE0, 0x80, 0xBF)
  else if b = 0xF0 then some (3, 0, 0x90, 0xBF)
  else if 0xF1 ≤ b ∧ b ≤ 0xF3 then some (3, b.toNat - 0xF0, 0x80, 0xBF)
  else if b = 0xF4 then some (3, 4, 0x80, 0x8F)
  else none

/-- Reads `count` further continuation bytes from offset `start`; answers the
code point, or how many of them were there. -/
def tails (text : Bytes) : Nat → Nat → Nat → Except Nat Nat
  | 0, _, value => .ok value
  | count + 1, start, value =>
    match text[start]?.bind tail? with
    | some bits =>
      match tails text count (start + 1) (value * 64 + bits) with
      | .ok result => .ok result
      | .error seen => .error (seen + 1)
    | none => .error 0

/-- Reads the character that starts at offset `start`: its code point and width,
or the width of the ill-formed part that starts there. -/
def read (text : Bytes) (start : Nat) : Except Nat (Nat × Nat) :=
  match text[start]? with
  | none => .error 0
  | some first =>
    match lead? first with
    | none => .error 1
    | some (0, value, _, _) => .ok (value, 1)
    | some (count + 1, value, low, high) =>
      match text[start + 1]? with
      | none => .error 1
      | some second =>
        if low ≤ second ∧ second ≤ high then
          match tails text count (start + 2) (value * 64 + (second.toNat - 0x80)) with
          | .ok result => .ok (result, count + 2)
          | .error seen => .error (seen + 2)
        else .error 1

/-- The code point and the width of the character that starts at an offset. -/
def decode? (text : Bytes) (start : Nat) : Option (Nat × Nat) :=
  match read text start with
  | .ok result => some result
  | .error _ => none

/-- The bytes of a code point. -/
def encode (c : Nat) : List Nat :=
  if c < 0x80 then [c]
  else if c < 0x800 then [0xC0 + c / 64, 0x80 + c % 64]
  else if c < 0x10000 then [0xE0 + c / 4096, 0x80 + c / 64 % 64, 0x80 + c % 64]
  else [0xF0 + c / 262144, 0x80 + c / 4096 % 64, 0x80 + c / 64 % 64, 0x80 + c % 64]

/-- The number of bytes of a code point. -/
def width (c : Nat) : Nat :=
  if c < 0x80 then 1 else if c < 0x800 then 2 else if c < 0x10000 then 3 else 4

/-- The width counts the bytes. -/
theorem length_encode (c : Nat) : (encode c).length = width c := by
  unfold encode width
  split
  · rfl
  · split
    · rfl
    · split <;> rfl

/-- The bytes of a code point are bytes. -/
theorem lt_of_mem_encode {c : Nat} (hc : c ≤ 0x10FFFF) {b : Nat} (hb : b ∈ encode c) :
    b < 256 := by
  unfold encode at hb
  split at hb
  · simp at hb; omega
  · split at hb
    · simp at hb; omega
    · split at hb <;> simp at hb <;> omega

/-- Whether a byte continues a character. -/
def isTail (b : UInt8) : Bool := (tail? b).isSome

/-- The code point of the character that ends just before offset `stop`. -/
def decodeBefore? (text : Bytes) (stop : Nat) : Option Nat :=
  [1, 2, 3, 4].findSome? fun width =>
    if width ≤ stop then
      match decode? text (stop - width) with
      | some (value, w) => if w = width then some value else none
      | none => none
    else none

end Utf8

namespace Bytes

/-- Reads characters up to the end; `fuel` bounds their number. -/
private def readChars (text : Bytes) (broken : Option Char) : Nat → Nat → String → Option String
  | 0, _, acc => some acc
  | fuel + 1, start, acc =>
    if start < text.size then
      match Utf8.read text start with
      | .ok (value, width) =>
        readChars text broken fuel (start + width) (acc.push (Char.ofNat value))
      | .error width =>
        match broken with
        | some c => readChars text broken fuel (start + max width 1) (acc.push c)
        | none => none
    else some acc

/-- The string whose UTF-8 bytes these are, if there is one. -/
def toString? (text : Bytes) : Option String := readChars text none text.size 0 ""

/-- The text as a string, each maximal ill-formed part replaced by U+FFFD. -/
def toStringLossy (text : Bytes) : String :=
  (readChars text (some (Char.ofNat 0xFFFD)) text.size 0 "").getD ""

end Bytes

end Glr
