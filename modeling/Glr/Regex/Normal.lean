import Glr.Regex.Extent

/-!
# Glr.Regex.Normal

Expressions in normal form, built from their parts: a sequence has no sequence
and no empty text among its parts, an alternative is no alternative itself,
alternatives of one character each are a set of characters, and what all
alternatives start with stands in front of them.  Main statements: the parts of
a sequence are those of what it is built from (`parts_sequence`), the bytes of a
text are read back (`literal?_literal`), and what takes no bytes is repeated at
most once (`repeated_of_mostLength`).
-/

namespace Glr.Regex.Node

open Unicode (CharSet)

/-! ## Texts and sets -/

/-- Some expressions, one after another. -/
def seqs : List Node → Node
  | [] => .empty
  | [n] => n
  | n :: ns => .seq n (seqs ns)

/-- Some bytes, one after another. -/
def literal (bs : List Nat) : Node := seqs (bs.map fun b => .bytes (.singleton b))

/-- One character of a set: of a single one, its bytes. -/
def ofChars (s : CharSet) : Node :=
  if s.isEmpty then .bytes .empty
  else
    match s.single? with
    | some c => literal (Utf8.encode c)
    | none => .chars s

/-! ## Sequences -/

/-- The parts of a sequence, none of which is a sequence or empty. -/
def parts : Node → List Node
  | .empty => []
  | .seq a b => a.parts ++ b.parts
  | n => [n]

/-- Some expressions in sequence. -/
def sequence (ns : List Node) : Node := seqs (ns.flatMap parts)

/-- A part has itself as its only part. -/
theorem parts_of_mem_parts {n p : Node} (h : p ∈ n.parts) : p.parts = [p] := by
  induction n with
  | empty => simp [parts] at h
  | seq a b iha ihb =>
    rcases List.mem_append.mp (by simpa [parts] using h) with h | h
    · exact iha h
    · exact ihb h
  | chars s => obtain rfl := List.mem_singleton.mp h; rfl
  | bytes s => obtain rfl := List.mem_singleton.mp h; rfl
  | look l => obtain rfl := List.mem_singleton.mp h; rfl
  | alt a b => obtain rfl := List.mem_singleton.mp h; rfl
  | times body least most greedy => obtain rfl := List.mem_singleton.mp h; rfl
  | group index body => obtain rfl := List.mem_singleton.mp h; rfl

/-- Parts that are put one after another are the parts of the whole. -/
theorem parts_seqs {ps : List Node} (h : ∀ p ∈ ps, p.parts = [p]) : (seqs ps).parts = ps := by
  induction ps using seqs.induct with
  | case1 => rfl
  | case2 p => exact h p (by simp)
  | case3 p ps hne ih =>
    rw [seqs]
    · rw [parts, h p (by simp), ih fun q hq => h q (by simp [hq])]
      rfl
    · exact hne

/-- A sequence has the parts of what it is built from. -/
theorem parts_sequence (ns : List Node) : (sequence ns).parts = ns.flatMap parts := by
  refine parts_seqs fun p hp => ?_
  obtain ⟨n, _, hp⟩ := List.mem_flatMap.mp hp
  exact parts_of_mem_parts hp

/-! ## Alternatives -/

/-- Some expressions to choose from, the earlier the better. -/
def alts : List Node → Node
  | [] => .bytes .empty
  | [n] => n
  | n :: ns => .alt n (alts ns)

/-- What an expression chooses from. -/
def options : Node → List Node
  | .alt a b => a.options ++ b.options
  | n => [n]

/-- The byte of an expression that matches no other text. -/
def byte? : Node → Option Nat
  | .bytes s => s.single?
  | _ => none

/-- The bytes of an expression that matches no other text. -/
def literal? (n : Node) : Option (List Nat) :=
  match n.parts with
  | [] => none
  | ps => ps.mapM byte?

/-- The bytes of a text are read back. -/
theorem literal?_literal {bs : List Nat} (h : bs ≠ []) : (literal bs).literal? = some bs := by
  have hp : (literal bs).parts = bs.map fun b => .bytes (.singleton b) :=
    parts_seqs fun p hp => by
      obtain ⟨b, _, rfl⟩ := List.mem_map.mp hp
      rfl
  have hm (bs : List Nat) : (bs.map fun b => bytes (.singleton b)).mapM byte? = some bs := by
    induction bs with
    | nil => rfl
    | cons b bs ih =>
      rw [List.map_cons, List.mapM_cons, ih, byte?, CharSet.single?_singleton]
      rfl
  obtain ⟨b, rest, rfl⟩ := List.exists_cons_of_ne_nil h
  unfold literal?
  rw [hp]
  exact hm (b :: rest)

/-- The character of an expression that matches no other text. -/
def char? (n : Node) : Option Nat := do
  let text := (← n.literal?).map Nat.toUInt8
  let (c, width) ← Utf8.decode? text.toArray 0
  if width = text.length then some c else none

/-- The characters of a set of several, if they are characters. -/
def charSet? : Node → Option CharSet
  | .chars s => some s
  | .bytes s => if s.below 128 && s.single?.isNone then some s else none
  | _ => none

/-- The bytes of a set of several, if they are bytes. -/
def byteSet? : Node → Option CharSet
  | .chars s => if s.below 128 then some s else none
  | .bytes s => if s.single?.isNone then some s else none
  | _ => none

/-- The set of all alternatives, if each of them is a character, each a byte or
each a set. -/
def merged? (ns : List Node) : Option Node :=
  (ns.mapM char?).map (fun cs => ofChars (.ofElements cs))
    <|> (ns.mapM byte?).map (fun bs => .bytes (.ofElements bs))
    <|> (ns.mapM charSet?).map (fun ss => ofChars (.unions ss))
    <|> (ns.mapM byteSet?).map (fun ss => .bytes (.unions ss))

/-- One of some alternatives, or the set of them. -/
def choice (ns : List Node) : Node := (merged? ns).getD (alts ns)

/-- The parts of a sequence, adjacent bytes taken together. -/
def pieces (n : Node) : List (List Node) :=
  n.parts.splitBy fun a b => a.byte?.isSome && b.byte?.isSome

/-- What two lists start with. -/
def commonStart (xs ys : List (List Node)) : List (List Node) :=
  ((xs.zip ys).takeWhile fun p => p.1 = p.2).map Prod.fst

/-- What all alternatives start with in front of what they go on with, if each
of them is a sequence. -/
def factored? (ns : List Node) : Option Node :=
  match ns.map pieces with
  | [] => none
  | first :: rest =>
    let start := rest.foldl commonStart first
    if start.isEmpty || (first :: rest).any (·.length < 2) then none
    else
      let tails := (first :: rest).map fun ps => seqs (ps.drop start.length).flatten
      some (sequence (start.flatten ++ [choice (tails.flatMap options)]))

/-- Some expressions to choose from, the earlier the better. -/
def alternation (ns : List Node) : Node :=
  match ns.flatMap options with
  | [n] => n
  | ns => (merged? ns <|> factored? ns).getD (alts ns)

/-! ## Repetition -/

/-- An expression repeated.  What takes no bytes matches once as well as more
often. -/
def repeated (body : Node) (least : Nat) (most : Option Nat) (greedy : Bool) : Node :=
  let once := body.mostLength = some 0
  let least := if once then min least 1 else least
  let most := if once then some (min (most.getD 1) 1) else most
  if least = 0 ∧ most = some 0 then .empty
  else if least = 1 ∧ most = some 1 then body
  else .times body least most greedy

/-- What takes no bytes is repeated at most once. -/
theorem repeated_of_mostLength {body : Node} (h : body.mostLength = some 0) (least : Nat)
    (most : Option Nat) (greedy : Bool) :
    repeated body least most greedy =
      repeated body (min least 1) (some (min (most.getD 1) 1)) greedy := by
  simp [repeated, h]

end Glr.Regex.Node
