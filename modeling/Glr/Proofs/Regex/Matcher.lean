import Glr.Proofs.Regex.Prefix
import Glr.Proofs.Text.Utf8
import Mathlib.Logic.Relation

/-!
# Glr.Proofs.Regex.Matcher

What a run of a program answers.  A path of a program goes from address to address, at an offset
of the text that grows where text is taken.  A run of all threads together, in which a thread is
dropped that comes to an address for the second time, finds an end exactly if some path from the
start leads to a match,

```
endFrom? = some m   ⟹   a path ends in a match at m
endFrom? = none     ⟹   no path ends in a match
```

A thread that is dropped loses nothing: what it would come to, the one before it comes to as well.
-/

namespace Glr.Regex

open Relation

/-! ## Paths -/

/-- From an address to the next one that takes no text. -/
inductive Passes (instrs : Array Instr) (text : Bytes) (base i : Nat) : Nat → Nat → Prop where
  | first {pc a b : Nat} (h : instrs[pc]? = some (.split a b)) : Passes instrs text base i pc a
  | second {pc a b : Nat} (h : instrs[pc]? = some (.split a b)) : Passes instrs text base i pc b
  | look {pc next : Nat} {l : Look} (h : instrs[pc]? = some (.look l next))
      (hl : l.holds text base i = true) : Passes instrs text base i pc next

/-- From an address to the next one and the offset behind the text that is taken. -/
inductive Takes (instrs : Array Instr) (text : Bytes) (i : Nat) : Nat → Nat → Nat → Prop where
  | chars {pc next c width : Nat} {s : Unicode.CharSet} (h : instrs[pc]? = some (.chars s next))
      (hc : Utf8.decode? text i = some (c, width)) (hs : s.contains c = true) :
      Takes instrs text i pc next (i + width)
  | bytes {pc next : Nat} {b : UInt8} {s : Unicode.CharSet}
      (h : instrs[pc]? = some (.bytes s next)) (hb : text[i]? = some b)
      (hs : s.contains b.toNat = true) : Takes instrs text i pc next (i + 1)

/-- One step of a path. -/
inductive Goes (instrs : Array Instr) (text : Bytes) (base : Nat) :
    Nat × Nat → Nat × Nat → Prop where
  | passes {pc next i : Nat} (h : Passes instrs text base i pc next) :
      Goes instrs text base (pc, i) (next, i)
  | takes {pc next i j : Nat} (h : Takes instrs text i pc next j) :
      Goes instrs text base (pc, i) (next, j)

/-- Where paths lead. -/
abbrev Leads (instrs : Array Instr) (text : Bytes) (base : Nat) : Nat × Nat → Nat × Nat → Prop :=
  ReflTransGen (Goes instrs text base)

variable {instrs : Array Instr} {text : Bytes} {base i j start stop stamp fuel pc next : Nat}
  {seen : Array Nat} {threads : Array Thread} {best : Option Nat}

theorem Takes.bounds (h : Takes instrs text i pc next j) : i < j ∧ j ≤ text.size := by
  cases h with
  | chars _ hc _ =>
    obtain ⟨hpos, hle⟩ := Utf8.decode?_bounds hc
    exact ⟨by omega, hle⟩
  | bytes _ hb _ => exact ⟨Nat.lt_succ_self i, (Array.getElem?_eq_some_iff.mp hb).1⟩

/-! ## What is found is there -/

theorem mem_spread {pending : List Nat} {out : Array Nat}
    (h : pc ∈ (spread instrs text base i stamp fuel pending seen out).2) :
    pc ∈ out ∨ ∃ p ∈ pending, Leads instrs text base (p, i) (pc, i) := by
  induction fuel generalizing pending seen out with
  | zero => exact .inl (by simpa only [spread] using h)
  | succ fuel ih =>
    cases pending with
    | nil => exact .inl (by simpa only [spread] using h)
    | cons p pending =>
      have step {rest : List Nat} {seen' out' : Array Nat}
          (h : pc ∈ (spread instrs text base i stamp fuel rest seen' out').2)
          (hrest : ∀ q ∈ rest, q ∈ pending ∨ Passes instrs text base i p q)
          (hout : pc ∈ out' → pc ∈ out ∨ pc = p) :
          pc ∈ out ∨ ∃ q ∈ p :: pending, Leads instrs text base (q, i) (pc, i) := by
        rcases ih h with h | ⟨q, hq, hlead⟩
        · rcases hout h with h | rfl
          · exact .inl h
          · exact .inr ⟨pc, .head _, .refl⟩
        · rcases hrest q hq with hq | hq
          · exact .inr ⟨q, .tail _ hq, hlead⟩
          · exact .inr ⟨p, .head _, .head (.passes hq) hlead⟩
      simp only [spread] at h
      split at h
      · exact step h (fun q hq => .inl hq) .inl
      split at h
      · exact step h (fun q hq => .inl hq) .inl
      · rename_i a b hpc
        refine step h (fun q hq => ?_) .inl
        rcases List.mem_cons.mp hq with rfl | hq
        · exact .inr (.first hpc)
        rcases List.mem_cons.mp hq with rfl | hq
        · exact .inr (.second hpc)
        · exact .inl hq
      · rename_i l target hpc
        split at h
        · rename_i hl
          refine step h (fun q hq => ?_) .inl
          rcases List.mem_cons.mp hq with rfl | hq
          · exact .inr (.look hpc hl)
          · exact .inl hq
        · exact step h (fun q hq => .inl hq) .inl
      · refine step h (fun q hq => .inl hq) fun h => ?_
        exact (Array.mem_push.mp h).imp_right id

/-- What threads at one offset lead to is where a path goes from one of them. -/
theorem mem_advance {pcs : List Nat} {before : Array Thread} {t : Thread}
    (h : t ∈ (advance instrs (Utf8.decode? text i) text[i]? pcs before).1) :
    t ∈ before ∨ ∃ pc ∈ pcs, Takes instrs text i pc t.pc (i + 1 + t.wait) := by
  induction pcs generalizing before with
  | nil => exact .inl h
  | cons pc pcs ih =>
    have step {before' : Array Thread}
        (h : t ∈ (advance instrs (Utf8.decode? text i) text[i]? pcs before').1)
        (hbefore : t ∈ before' → t ∈ before ∨ Takes instrs text i pc t.pc (i + 1 + t.wait)) :
        t ∈ before ∨ ∃ p ∈ pc :: pcs, Takes instrs text i p t.pc (i + 1 + t.wait) := by
      rcases ih h with h | ⟨p, hp, htakes⟩
      · exact (hbefore h).imp_right fun h => ⟨pc, .head _, h⟩
      · exact .inr ⟨p, .tail _ hp, htakes⟩
    rw [advance] at h
    split at h
    · exact .inl h
    · rename_i s target hpc
      split at h
      · rename_i c width hc
        refine step h fun h => ?_
        split at h
        · rename_i hs
          refine (Array.mem_push.mp h).imp_right ?_
          rintro rfl
          have hwidth := (Utf8.decode?_bounds hc).1
          have heq : i + 1 + (width - 1) = i + width := by omega
          rw [heq]
          exact .chars hpc hc hs
        · exact .inl h
      · exact step h .inl
    · rename_i s target hpc
      split at h
      · rename_i b hb
        refine step h fun h => ?_
        split at h
        · rename_i hs
          refine (Array.mem_push.mp h).imp_right ?_
          rintro rfl
          exact .bytes hpc hb hs
        · exact .inl h
      · exact step h .inl
    · exact step h .inl

/-- A match at one offset is the end of a path. -/
theorem exists_done_of_advance {char : Option (Nat × Nat)} {byte : Option UInt8} {pcs : List Nat}
    {before : Array Thread} (h : (advance instrs char byte pcs before).2 = true) :
    ∃ pc ∈ pcs, instrs[pc]? = some .done := by
  induction pcs generalizing before with
  | nil => contradiction
  | cons pc pcs ih =>
    have step {before' : Array Thread} (h : (advance instrs char byte pcs before').2 = true) :
        ∃ p ∈ pc :: pcs, instrs[p]? = some .done :=
      (ih h).imp fun p hp => ⟨.tail _ hp.1, hp.2⟩
    rw [advance] at h
    split at h
    · rename_i hpc
      exact ⟨pc, .head _, hpc⟩
    · split at h <;> exact step h
    · split at h <;> exact step h
    · exact step h

/-- What the threads at one offset lead to: other threads by a path, and a match by one that ends
there. -/
theorem stepThreads_sound (instrs : Array Instr) (text : Bytes) (base i : Nat) (ts : List Thread)
    (seen : Array Nat) (before : Array Thread) :
    let r := stepThreads instrs text base i (Utf8.decode? text i) ts seen before
    (∀ t' ∈ r.2.1, t' ∈ before ∨ ∃ t ∈ ts,
      Leads instrs text base (t.pc, i + t.wait) (t'.pc, i + 1 + t'.wait)) ∧
    (r.2.2 = true → ∃ t ∈ ts, ∃ pc, instrs[pc]? = some .done ∧
      Leads instrs text base (t.pc, i + t.wait) (pc, i)) := by
  induction ts generalizing seen before with
  | nil => exact ⟨fun t' h => .inl h, fun h => absurd h Bool.false_ne_true⟩
  | cons t ts ih =>
    rcases t with ⟨pc, wait | wait⟩
    · simp only [stepThreads]
      have hleaves : ∀ q ∈ (spread instrs text base i (i + 1) (2 * instrs.size + 2) [pc] seen
          #[]).2.toList, Leads instrs text base (pc, i) (q, i) := by
        intro q hq
        rcases mem_spread (Array.mem_toList_iff.mp hq) with h | ⟨p, hp, h⟩
        · exact absurd h (Array.not_mem_empty q)
        · rwa [← List.mem_singleton.mp hp]
      generalize spread instrs text base i (i + 1) (2 * instrs.size + 2) [pc] seen #[] = r
        at hleaves
      obtain ⟨reached, leaves⟩ := r
      have hnext : ∀ t' ∈ (advance instrs (Utf8.decode? text i) text[i]? leaves.toList before).1,
          t' ∈ before ∨ ∃ t ∈ (⟨pc, 0⟩ : Thread) :: ts,
            Leads instrs text base (t.pc, i + t.wait) (t'.pc, i + 1 + t'.wait) := by
        intro t' ht'
        refine (mem_advance ht').imp_right ?_
        rintro ⟨q, hq, htakes⟩
        exact ⟨_, .head _, (hleaves q hq).tail (.takes htakes)⟩
      have hdone
          (h : (advance instrs (Utf8.decode? text i) text[i]? leaves.toList before).2 = true) :
          ∃ t ∈ (⟨pc, 0⟩ : Thread) :: ts, ∃ q, instrs[q]? = some .done ∧
            Leads instrs text base (t.pc, i + t.wait) (q, i) := by
        obtain ⟨q, hq, hend⟩ := exists_done_of_advance h
        exact ⟨_, .head _, q, hend, hleaves q hq⟩
      cases hadvance : advance instrs (Utf8.decode? text i) text[i]? leaves.toList before with
      | mk more found =>
        rw [hadvance] at hnext hdone
        cases found with
        | true => exact ⟨hnext, fun _ => hdone rfl⟩
        | false =>
          obtain ⟨hmore, hfound⟩ := ih reached more
          refine ⟨fun t' ht' => ?_, fun h => ?_⟩
          · rcases hmore t' ht' with h | ⟨t, ht, h⟩
            · exact hnext t' h
            · exact .inr ⟨t, .tail _ ht, h⟩
          · obtain ⟨t, ht, h⟩ := hfound h
            exact ⟨t, .tail _ ht, h⟩
    · simp only [stepThreads]
      obtain ⟨hmore, hfound⟩ := ih seen (before.push ⟨pc, wait⟩)
      refine ⟨fun t' ht' => ?_, fun h => ?_⟩
      · rcases hmore t' ht' with h | ⟨t, ht, h⟩
        · refine (Array.mem_push.mp h).imp_right ?_
          rintro rfl
          refine ⟨_, .head _, ?_⟩
          rw [show i + 1 + wait = i + (wait + 1) by omega]
        · exact .inr ⟨t, .tail _ ht, h⟩
      · obtain ⟨t, ht, h⟩ := hfound h
        exact ⟨t, .tail _ ht, h⟩

/-- The end that a run answers is the end of a path. -/
theorem runFrom_sound (h : runFrom instrs text base fuel i threads seen best = some stop) :
    best = some stop ∨ ∃ t ∈ threads, ∃ pc, instrs[pc]? = some .done ∧
      Leads instrs text base (t.pc, i + t.wait) (pc, stop) := by
  induction fuel generalizing i threads seen best with
  | zero => exact .inl h
  | succ fuel ih =>
    simp only [runFrom] at h
    split at h
    · exact .inl h
    obtain ⟨hnext, hfound⟩ := stepThreads_sound instrs text base i threads.toList seen #[]
    rcases ih h with h | ⟨t', ht', pc, hdone, hlead⟩
    · split at h
      · rename_i hmatch
        obtain rfl := Option.some.inj h
        obtain ⟨t, ht, hend⟩ := hfound hmatch
        exact .inr ⟨t, Array.mem_toList_iff.mp ht, hend⟩
      · exact .inl h
    · rcases hnext t' ht' with h | ⟨t, ht, hfirst⟩
      · exact absurd h (Array.not_mem_empty t')
      · exact .inr ⟨t, Array.mem_toList_iff.mp ht, pc, hdone, hfirst.trans hlead⟩

/-! ## What is there is found -/

/-- An instruction that takes text or ends a match. -/
inductive Leaf (instrs : Array Instr) (pc : Nat) : Prop where
  | chars {s : Unicode.CharSet} {next : Nat} (h : instrs[pc]? = some (.chars s next))
  | bytes {s : Unicode.CharSet} {next : Nat} (h : instrs[pc]? = some (.bytes s next))
  | done (h : instrs[pc]? = some .done)

/-- The addresses that are marked at an offset, and those that are pending there, hold all that a
marked one passes on to; the leaves among the marked ones are collected. -/
structure Closed (instrs : Array Instr) (text : Bytes) (base i : Nat) (seen : Array Nat)
    (pending : List Nat) (collected : Nat → Prop) : Prop where
  passes : ∀ pc next, seen[pc]? = some (i + 1) → Passes instrs text base i pc next →
    next < instrs.size → seen[next]? = some (i + 1) ∨ next ∈ pending
  leaf : ∀ pc, seen[pc]? = some (i + 1) → Leaf instrs pc → collected pc

variable {p : Nat} {pending pending' : List Nat} {collected collected' : Nat → Prop}

/-- What is marked already, or is no address, need not be pending. -/
theorem Closed.skip (h : Closed instrs text base i seen (p :: pending) collected)
    (hp : p < instrs.size → seen[p]? = some (i + 1)) :
    Closed instrs text base i seen pending collected := by
  refine ⟨fun pc next hpc hpass hnext => ?_, h.leaf⟩
  rcases h.passes pc next hpc hpass hnext with hseen | hmem
  · exact .inl hseen
  · rcases List.mem_cons.mp hmem with rfl | hmem
    · exact .inl (hp hnext)
    · exact .inr hmem

/-- Marks an address: what it passes on to becomes pending. -/
theorem Closed.mark (h : Closed instrs text base i seen (p :: pending) collected)
    (hsize : seen.size = instrs.size)
    (hpass : ∀ next, Passes instrs text base i p next → next ∈ pending') (hsub : pending ⊆ pending')
    (hleaf : Leaf instrs p → collected' p) (hmono : ∀ pc, collected pc → collected' pc) :
    Closed instrs text base i (seen.setIfInBounds p (i + 1)) pending' collected' := by
  have hmarked (q : Nat) (hq : (seen.setIfInBounds p (i + 1))[q]? = some (i + 1)) :
      q = p ∨ seen[q]? = some (i + 1) := by
    rw [Array.getElem?_setIfInBounds] at hq
    split at hq
    · rename_i heq
      exact .inl heq.symm
    · exact .inr hq
  have hstill (q : Nat) (hq : seen[q]? = some (i + 1)) :
      (seen.setIfInBounds p (i + 1))[q]? = some (i + 1) := by
    rw [Array.getElem?_setIfInBounds]
    split
    · rename_i heq
      rw [if_pos (heq ▸ (Array.getElem?_eq_some_iff.mp hq).1)]
    · exact hq
  constructor
  · intro pc next hpc hpass' hnext
    rcases hmarked pc hpc with rfl | hpc
    · exact .inr (hpass next hpass')
    · rcases h.passes pc next hpc hpass' hnext with hseen | hmem
      · exact .inl (hstill next hseen)
      · rcases List.mem_cons.mp hmem with rfl | hmem
        · rw [Array.getElem?_setIfInBounds, if_pos rfl, if_pos (hsize ▸ hnext)]
          exact .inl rfl
        · exact .inr (hsub hmem)
  · intro pc hpc hl
    rcases hmarked pc hpc with rfl | hpc
    · exact hleaf hl
    · exact hmono pc (h.leaf pc hpc hl)

/-- The addresses that are not marked at an offset. -/
def unmarked (seen : Array Nat) (stamp : Nat) : Nat := seen.countP (· != stamp)

theorem unmarked_set (hp : p < seen.size) (hnew : ¬(seen[p]? == some stamp) = true) :
    unmarked (seen.setIfInBounds p stamp) stamp + 1 = unmarked seen stamp := by
  have hne : seen[p] ≠ stamp := by simpa [Array.getElem?_eq_getElem hp] using hnew
  have hpos : 0 < seen.countP (· != stamp) :=
    Array.countP_pos_iff.mpr ⟨seen[p], Array.getElem_mem hp, by simpa using hne⟩
  rw [Array.setIfInBounds_def, dif_pos hp, unmarked, unmarked, Array.countP_set]
  simp only [bne_iff_ne, ne_eq, hne, not_false_eq_true, if_true, bne_self_eq_false,
    Bool.false_eq_true, if_false]
  omega

/-- What follows from the addresses that are pending is marked in the end. -/
theorem spread_complete {out : Array Nat} {handled : Nat → Prop} (hsize : seen.size = instrs.size)
    (hfuel : 2 * unmarked seen (i + 1) + pending.length ≤ fuel)
    (h : Closed instrs text base i seen pending fun pc => handled pc ∨ pc ∈ out) :
    let r := spread instrs text base i (i + 1) fuel pending seen out
    r.1.size = instrs.size ∧ (∀ pc : Nat, seen[pc]? = some (i + 1) → r.1[pc]? = some (i + 1)) ∧
      (∀ p ∈ pending, p < instrs.size → r.1[p]? = some (i + 1)) ∧
      Closed instrs text base i r.1 [] fun pc => handled pc ∨ pc ∈ r.2 := by
  induction fuel generalizing pending seen out with
  | zero =>
    obtain rfl : pending = [] := List.length_eq_zero_iff.mp (by omega)
    simp only [spread]
    exact ⟨hsize, fun _ h => h, by simp, h⟩
  | succ fuel ih =>
    cases pending with
    | nil =>
      simp only [spread]
      exact ⟨hsize, fun _ h => h, by simp, h⟩
    | cons p pending =>
      rw [List.length_cons] at hfuel
      simp only [spread]
      split
      · rename_i hseen
        have hseen : seen[p]? = some (i + 1) := by simpa using hseen
        obtain ⟨hsize', hkept, hpending, hclosed⟩ := ih hsize (by omega) (h.skip fun _ => hseen)
        refine ⟨hsize', hkept, fun q hq hlt => ?_, hclosed⟩
        rcases List.mem_cons.mp hq with rfl | hq
        · exact hkept q hseen
        · exact hpending q hq hlt
      rename_i hnew
      rcases Nat.lt_or_ge p instrs.size with hlt | hge
      · have hcount := unmarked_set (hsize ▸ hlt) hnew
        have hmarked : (seen.setIfInBounds p (i + 1))[p]? = some (i + 1) := by
          rw [Array.getElem?_setIfInBounds, if_pos rfl, if_pos (hsize ▸ hlt)]
        have hkept (q : Nat) (hq : seen[q]? = some (i + 1)) :
            (seen.setIfInBounds p (i + 1))[q]? = some (i + 1) := by
          rw [Array.getElem?_setIfInBounds]
          split
          · rename_i heq
            rw [if_pos (heq ▸ (Array.getElem?_eq_some_iff.mp hq).1)]
          · exact hq
        -- the address is marked; what it passes on to is pending, and a leaf is collected
        have step {pending' : List Nat} {out' : Array Nat} (hsub : pending ⊆ pending')
            (hlength : pending'.length ≤ pending.length + 2)
            (hclosed : Closed instrs text base i (seen.setIfInBounds p (i + 1)) pending'
              fun pc => handled pc ∨ pc ∈ out') :
            let r := spread instrs text base i (i + 1) fuel pending' (seen.setIfInBounds p (i + 1))
              out'
            r.1.size = instrs.size ∧
              (∀ pc : Nat, seen[pc]? = some (i + 1) → r.1[pc]? = some (i + 1)) ∧
              (∀ q ∈ p :: pending, q < instrs.size → r.1[q]? = some (i + 1)) ∧
              Closed instrs text base i r.1 [] fun pc => handled pc ∨ pc ∈ r.2 := by
          obtain ⟨hsize', hkept', hpending, hclosed'⟩ :=
            ih (by rwa [Array.size_setIfInBounds]) (by omega) hclosed
          refine ⟨hsize', fun q hq => hkept' q (hkept q hq), fun q hq hlt => ?_, hclosed'⟩
          rcases List.mem_cons.mp hq with rfl | hq
          · exact hkept' q hmarked
          · exact hpending q (hsub hq) hlt
        split
        · rename_i hnone
          exact absurd (Array.getElem?_eq_none_iff.mp hnone) (Nat.not_le.mpr hlt)
        · rename_i a b hpc
          refine step (fun q hq => .tail _ (.tail _ hq)) (by simp) (h.mark hsize ?_
            (fun q hq => .tail _ (.tail _ hq)) ?_ fun _ => id)
          · rintro q (hq | hq | ⟨hq, -⟩) <;> rw [hpc] at hq <;> cases hq
            exacts [.head _, .tail _ (.head _)]
          · rintro (hq | hq | hq) <;> rw [hpc] at hq <;> cases hq
        · rename_i l target hpc
          have hleaf : Leaf instrs p → handled p ∨ p ∈ out := by
            rintro (hq | hq | hq) <;> rw [hpc] at hq <;> cases hq
          split
          · refine step (fun q hq => .tail _ hq) (by simp) (h.mark hsize ?_ (fun q hq => .tail _ hq)
              hleaf fun _ => id)
            rintro q (hq | hq | ⟨hq, -⟩) <;> rw [hpc] at hq <;> cases hq
            exact .head _
          · rename_i hl
            refine step (fun _ => id) (by simp) (h.mark hsize ?_ (fun _ => id) hleaf fun _ => id)
            rintro q (hq | hq | ⟨hq, hholds⟩) <;> rw [hpc] at hq <;> cases hq
            exact absurd hholds hl
        · rename_i instr hsplit hlook hpc
          refine step (fun _ => id) (by simp) (h.mark hsize ?_ (fun _ => id)
            (fun _ => .inr Array.mem_push_self) fun q hq =>
              hq.imp_right fun hq => Array.mem_push_of_mem _ hq)
          rintro q (hq | hq | ⟨hq, -⟩)
          · exact absurd (Option.some.inj (hpc.symm.trans hq)) (hsplit _ _)
          · exact absurd (Option.some.inj (hpc.symm.trans hq)) (hsplit _ _)
          · exact absurd (Option.some.inj (hpc.symm.trans hq)) (hlook _ _)
      · have hout : seen.setIfInBounds p (i + 1) = seen := by
          rw [Array.setIfInBounds_def, dif_neg (by omega)]
        rw [hout]
        split
        · obtain ⟨hsize', hkept, hpending, hclosed⟩ :=
            ih hsize (by omega) (h.skip fun hlt => absurd hlt (by omega))
          refine ⟨hsize', hkept, fun q hq hlt => ?_, hclosed⟩
          rcases List.mem_cons.mp hq with rfl | hq
          · exact absurd hlt (by omega)
          · exact hpending q hq hlt
        all_goals
          rename_i hpc
          exact absurd (Array.getElem?_eq_some_iff.mp hpc).1 (by omega)

/-- An address has been handled at an offset: it ends no match, and where it takes text there is a
thread to go on. -/
structure Advanced (instrs : Array Instr) (text : Bytes) (i : Nat) (after : Array Thread)
    (pc : Nat) : Prop where
  open_ : instrs[pc]? ≠ some .done
  takes : ∀ next j, Takes instrs text i pc next j → ∃ wait, ⟨next, wait⟩ ∈ after ∧ i + 1 + wait = j

theorem Advanced.mono {after after' : Array Thread} (h : Advanced instrs text i after pc)
    (hsub : ∀ t ∈ after, t ∈ after') : Advanced instrs text i after' pc :=
  ⟨h.open_, fun next j hj => (h.takes next j hj).imp fun _ hw => ⟨hsub _ hw.1, hw.2⟩⟩

theorem Leaf.of_takes (h : Takes instrs text i pc next j) : Leaf instrs pc := by
  cases h with
  | chars h _ _ => exact .chars h
  | bytes h _ _ => exact .bytes h

theorem advance_complete (instrs : Array Instr) (text : Bytes) (i : Nat) (pcs : List Nat)
    (before : Array Thread)
    (h : (advance instrs (Utf8.decode? text i) text[i]? pcs before).2 = false) :
    let r := advance instrs (Utf8.decode? text i) text[i]? pcs before
    (∀ t ∈ before, t ∈ r.1) ∧ ∀ pc ∈ pcs, Advanced instrs text i r.1 pc := by
  induction pcs generalizing before with
  | nil => exact ⟨fun _ h => h, by simp⟩
  | cons pc pcs ih =>
    -- the rest of the threads go on with what this one adds
    have step (before' : Array Thread)
        (heq : advance instrs (Utf8.decode? text i) text[i]? (pc :: pcs) before =
          advance instrs (Utf8.decode? text i) text[i]? pcs before')
        (hsub : ∀ t ∈ before, t ∈ before') (hpc : Advanced instrs text i before' pc) :
        let r := advance instrs (Utf8.decode? text i) text[i]? (pc :: pcs) before
        (∀ t ∈ before, t ∈ r.1) ∧ ∀ q ∈ pc :: pcs, Advanced instrs text i r.1 q := by
      rw [heq] at h ⊢
      obtain ⟨hkept, hrest⟩ := ih before' h
      refine ⟨fun t ht => hkept t (hsub t ht), fun q hq => ?_⟩
      rcases List.mem_cons.mp hq with rfl | hq
      · exact hpc.mono hkept
      · exact hrest q hq
    cases hpc : instrs[pc]? with
    | none =>
      refine step before (by simp only [advance, hpc]) (fun _ h => h)
        ⟨by simp [hpc], fun next j hj => ?_⟩
      rcases hj with ⟨h', -, -⟩ | ⟨h', -, -⟩ <;> rw [hpc] at h' <;> cases h'
    | some instr =>
      cases instr with
      | done =>
        rw [advance, hpc] at h
        contradiction
      | split a b =>
        refine step before (by simp only [advance, hpc]) (fun _ h => h)
          ⟨by simp [hpc], fun next j hj => ?_⟩
        rcases hj with ⟨h', -, -⟩ | ⟨h', -, -⟩ <;> rw [hpc] at h' <;> cases h'
      | look l target =>
        refine step before (by simp only [advance, hpc]) (fun _ h => h)
          ⟨by simp [hpc], fun next j hj => ?_⟩
        rcases hj with ⟨h', -, -⟩ | ⟨h', -, -⟩ <;> rw [hpc] at h' <;> cases h'
      | chars s target =>
        cases hc : Utf8.decode? text i with
        | none =>
          rw [← hc]
          refine step before (by simp only [advance, hpc, hc]) (fun _ h => h)
            ⟨by simp [hpc], fun next j hj => ?_⟩
          rcases hj with ⟨-, hc', -⟩ | ⟨h', -, -⟩
          · rw [hc] at hc'
            contradiction
          · rw [hpc] at h'
            cases h'
        | some p =>
          obtain ⟨c, width⟩ := p
          rw [← hc]
          refine step (if s.contains c then before.push ⟨target, width - 1⟩ else before)
            (by simp only [advance, hpc, hc]) (fun t ht => ?_)
            ⟨by simp [hpc], fun next j hj => ?_⟩
          · split
            · exact Array.mem_push_of_mem _ ht
            · exact ht
          · rcases hj with ⟨h', hc', hs⟩ | ⟨h', -, -⟩ <;> rw [hpc] at h' <;> cases h'
            rw [hc] at hc'
            cases hc'
            have hwidth := (Utf8.decode?_bounds hc).1
            rw [if_pos hs]
            exact ⟨width - 1, Array.mem_push_self, by omega⟩
      | bytes s target =>
        cases hb : text[i]? with
        | none =>
          rw [← hb]
          refine step before (by simp only [advance, hpc, hb]) (fun _ h => h)
            ⟨by simp [hpc], fun next j hj => ?_⟩
          rcases hj with ⟨h', -, -⟩ | ⟨-, hb', -⟩
          · rw [hpc] at h'
            cases h'
          · rw [hb] at hb'
            contradiction
        | some b =>
          rw [← hb]
          refine step (if s.contains b.toNat then before.push ⟨target, 0⟩ else before)
            (by simp only [advance, hpc, hb]) (fun t ht => ?_)
            ⟨by simp [hpc], fun next j hj => ?_⟩
          · split
            · exact Array.mem_push_of_mem _ ht
            · exact ht
          · rcases hj with ⟨h', -, -⟩ | ⟨h', hb', hs⟩ <;> rw [hpc] at h' <;> cases h'
            rw [hb] at hb'
            cases hb'
            rw [if_pos hs]
            exact ⟨0, Array.mem_push_self, rfl⟩

/-- What the threads at an offset come to has been handled there, unless one of them matches. -/
theorem stepThreads_complete {ts : List Thread} {before : Array Thread}
    (hsize : seen.size = instrs.size)
    (h : Closed instrs text base i seen [] (Advanced instrs text i before))
    (hfound : (stepThreads instrs text base i (Utf8.decode? text i) ts seen before).2.2 = false) :
    let r := stepThreads instrs text base i (Utf8.decode? text i) ts seen before
    r.1.size = instrs.size ∧ (∀ pc : Nat, seen[pc]? = some (i + 1) → r.1[pc]? = some (i + 1)) ∧
      (∀ t ∈ before, t ∈ r.2.1) ∧ Closed instrs text base i r.1 [] (Advanced instrs text i r.2.1) ∧
      ∀ t ∈ ts, (t.wait = 0 → t.pc < instrs.size → r.1[t.pc]? = some (i + 1)) ∧
        ∀ wait, t.wait = wait + 1 → ⟨t.pc, wait⟩ ∈ r.2.1 := by
  induction ts generalizing seen before with
  | nil => exact ⟨hsize, fun _ h => h, fun _ h => h, h, by simp⟩
  | cons t ts ih =>
    rcases t with ⟨pc, wait | wait⟩
    · simp only [stepThreads] at hfound ⊢
      have hpending : Closed instrs text base i seen [pc]
          fun q => Advanced instrs text i before q ∨ q ∈ (#[] : Array Nat) :=
        ⟨fun q next hq hpass hlt => (h.passes q next hq hpass hlt).imp_right fun h => by
            contradiction, fun q hq hl => .inl (h.leaf q hq hl)⟩
      have hfuel : 2 * unmarked seen (i + 1) + [pc].length ≤ 2 * instrs.size + 2 := by
        have : unmarked seen (i + 1) ≤ seen.size := Array.countP_le_size
        rw [List.length_singleton]
        omega
      obtain ⟨hsize', hkept, hmarked, hclosed⟩ := spread_complete hsize hfuel hpending
      generalize spread instrs text base i (i + 1) (2 * instrs.size + 2) [pc] seen #[] = r
        at hfound hsize' hkept hmarked hclosed ⊢
      obtain ⟨reached, leaves⟩ := r
      have hadvance := advance_complete instrs text i leaves.toList before
      cases hr : advance instrs (Utf8.decode? text i) text[i]? leaves.toList before with
      | mk more found =>
        rw [hr] at hfound hadvance
        cases found with
        | true => contradiction
        | false =>
          obtain ⟨hsub, hleaves⟩ := hadvance rfl
          have hclosed' : Closed instrs text base i reached [] (Advanced instrs text i more) := by
            refine ⟨hclosed.passes, fun q hq hl => ?_⟩
            rcases hclosed.leaf q hq hl with hold | hnew
            · exact hold.mono hsub
            · exact hleaves q (Array.mem_toList_iff.mpr hnew)
          obtain ⟨hsize'', hkept', hmore, hclosed'', hrest⟩ := ih hsize' hclosed' hfound
          refine ⟨hsize'', fun q hq => hkept' q (hkept q hq), fun t ht => hmore t (hsub t ht),
            hclosed'', fun t ht => ?_⟩
          rcases List.mem_cons.mp ht with rfl | ht
          · exact ⟨fun _ hlt => hkept' pc (hmarked pc (.head _) hlt), fun w hw => by contradiction⟩
          · exact hrest t ht
    · simp only [stepThreads] at hfound ⊢
      have hsub : ∀ t ∈ before, t ∈ before.push ⟨pc, wait⟩ := fun t ht => Array.mem_push_of_mem _ ht
      obtain ⟨hsize', hkept, hmore, hclosed, hrest⟩ :=
        ih hsize ⟨h.passes, fun q hq hl => (h.leaf q hq hl).mono hsub⟩ hfound
      refine ⟨hsize', hkept, fun t ht => hmore t (hsub t ht), hclosed, fun t ht => ?_⟩
      rcases List.mem_cons.mp ht with rfl | ht
      · refine ⟨fun h => absurd h (Nat.succ_ne_zero wait), fun w hw => ?_⟩
        obtain rfl := Nat.succ.inj hw
        exact hmore _ Array.mem_push_self
      · exact hrest t ht

/-- Nothing is marked with a later stamp. -/
theorem le_of_mem_spread (instrs : Array Instr) (text : Bytes) (base i fuel : Nat)
    (pending : List Nat) (out : Array Nat) (h : ∀ v ∈ seen, v ≤ stamp) :
    ∀ v ∈ (spread instrs text base i stamp fuel pending seen out).1, v ≤ stamp := by
  induction fuel generalizing pending seen out with
  | zero => simpa only [spread] using h
  | succ fuel ih =>
    cases pending with
    | nil => simpa only [spread] using h
    | cons p pending =>
      have hset : ∀ v ∈ seen.setIfInBounds p stamp, v ≤ stamp := by
        intro v hv
        rcases Array.mem_or_eq_of_mem_setIfInBounds hv with hv | rfl
        · exact h v hv
        · exact le_rfl
      simp only [spread]
      split
      · exact ih _ _ h
      split
      · exact ih _ _ hset
      · exact ih _ _ hset
      · split
        · exact ih _ _ hset
        · exact ih _ _ hset
      · exact ih _ _ hset

theorem le_of_mem_stepThreads (instrs : Array Instr) (text : Bytes) (base i : Nat)
    (char : Option (Nat × Nat)) (ts : List Thread) (before : Array Thread)
    (h : ∀ v ∈ seen, v ≤ i + 1) :
    ∀ v ∈ (stepThreads instrs text base i char ts seen before).1, v ≤ i + 1 := by
  induction ts generalizing seen before with
  | nil => exact h
  | cons t ts ih =>
    rcases t with ⟨pc, wait | wait⟩
    · simp only [stepThreads]
      have hspread := le_of_mem_spread instrs text base i (2 * instrs.size + 2) [pc] #[] h
      split
      · exact hspread
      · exact ih _ hspread
    · simpa only [stepThreads] using ih _ h

/-- A path to a match starts at an instruction. -/
theorem Leads.lt_size {x y : Nat × Nat} (h : Leads instrs text base x y)
    (hdone : instrs[y.1]? = some .done) : x.1 < instrs.size := by
  have hpass {pc next i : Nat} (h : Passes instrs text base i pc next) : pc < instrs.size := by
    cases h <;> exact (Array.getElem?_eq_some_iff.mp ‹_›).1
  have htake {pc next i j : Nat} (h : Takes instrs text i pc next j) : pc < instrs.size := by
    cases h <;> exact (Array.getElem?_eq_some_iff.mp ‹instrs[pc]? = _›).1
  rcases h.cases_head with rfl | ⟨z, hgo, -⟩
  · exact (Array.getElem?_eq_some_iff.mp hdone).1
  · cases hgo with
    | passes hp => exact hpass hp
    | takes ht => exact htake ht

/-- A run that answers no end has seen no path to a match. -/
theorem runFrom_complete (hsize : seen.size = instrs.size) (hold : ∀ v ∈ seen, v ≤ i)
    (hfuel : text.size < i + fuel)
    (hnone : runFrom instrs text base fuel i threads seen none = none) {t : Thread}
    (ht : t ∈ threads) (hin : i + t.wait ≤ text.size) (hdone : instrs[pc]? = some .done) :
    ¬Leads instrs text base (t.pc, i + t.wait) (pc, stop) := by
  induction fuel generalizing i threads seen t with
  | zero => omega
  | succ fuel ih =>
    simp only [runFrom] at hnone
    split at hnone
    · rename_i hempty
      rw [Array.isEmpty_iff.mp hempty] at ht
      exact absurd ht (Array.not_mem_empty t)
    have hfound : (stepThreads instrs text base i (Utf8.decode? text i) threads.toList seen
        #[]).2.2 = false := by
      rw [Bool.eq_false_iff]
      intro hmatch
      rw [if_pos hmatch] at hnone
      obtain ⟨e, -, he⟩ := le_runFrom (Nat.le_succ i)
      rw [hnone] at he
      contradiction
    rw [if_neg (by simp [hfound])] at hnone
    -- no stamp is as late as that of this offset yet
    have hclosed : Closed instrs text base i seen [] (Advanced instrs text i #[]) := by
      have hno (q : Nat) (hq : seen[q]? = some (i + 1)) : False := by
        have := hold _ (Array.mem_of_getElem? hq)
        omega
      exact ⟨fun q _ hq => (hno q hq).elim, fun q hq => (hno q hq).elim⟩
    obtain ⟨hsize', -, -, hclosed', hrest⟩ := stepThreads_complete hsize hclosed hfound
    have hold' := le_of_mem_stepThreads instrs text base i (Utf8.decode? text i) threads.toList #[]
      fun v hv => Nat.le_succ_of_le (hold v hv)
    have hnext {t' : Thread}
        (ht' : t' ∈ (stepThreads instrs text base i (Utf8.decode? text i) threads.toList seen
          #[]).2.1) (hin' : i + 1 + t'.wait ≤ text.size) :
        ¬Leads instrs text base (t'.pc, i + 1 + t'.wait) (pc, stop) :=
      ih hsize' hold' (by omega) hnone ht' hin'
    generalize stepThreads instrs text base i (Utf8.decode? text i) threads.toList seen #[] = r
      at hclosed' hrest hnext
    obtain ⟨hzero, hsucc⟩ := hrest t (Array.mem_toList_iff.mpr ht)
    -- a path from a marked address stays on marked ones until it takes text
    have hmarked {x y : Nat × Nat} (hlead : Leads instrs text base x y) :
        y = (pc, stop) → x.2 = i → r.1[x.1]? = some (i + 1) → False := by
      induction hlead using ReflTransGen.head_induction_on with
      | refl =>
        rintro rfl rfl hx
        exact (hclosed'.leaf pc hx (.done hdone)).open_ hdone
      | @head x z hgo hlead ihlead =>
        intro hy hi hx
        cases hgo with
        | passes hpass =>
          obtain rfl : _ = i := hi
          have hlt := Leads.lt_size hlead (by rwa [hy])
          exact ihlead hy rfl ((hclosed'.passes _ _ hx hpass hlt).resolve_right (by simp))
        | takes htake =>
          obtain rfl : _ = i := hi
          obtain ⟨wait, hmem, rfl⟩ := (hclosed'.leaf _ hx (.of_takes htake)).takes _ _ htake
          exact hnext hmem htake.bounds.2 (hy ▸ hlead)
    intro hlead
    rcases t with ⟨q, wait | wait⟩
    · exact hmarked hlead rfl rfl (hzero rfl (Leads.lt_size hlead hdone))
    · refine hnext (hsucc wait rfl) (by simp only at hin ⊢; omega) ?_
      rw [show i + 1 + wait = i + (wait + 1) by omega]
      exact hlead

/-! ## Patterns -/

variable {r : Regex}

/-- The end of a match is where a path from the start of the program ends. -/
theorem endFrom?_sound (h : r.endFrom? text base start = some stop) :
    ∃ pc, r.program.instrs[pc]? = some .done ∧
      Leads r.program.instrs text base (r.program.start, start) (pc, stop) := by
  rcases runFrom_sound h with h | ⟨t, ht, pc, hdone, hlead⟩
  · contradiction
  · obtain rfl := List.mem_singleton.mp (Array.mem_toList_iff.mpr ht)
    exact ⟨pc, hdone, hlead⟩

/-- Where there is no match no path leads to one. -/
theorem endFrom?_complete (hstart : start ≤ text.size) (h : r.endFrom? text base start = none)
    (hdone : r.program.instrs[pc]? = some .done) :
    ¬Leads r.program.instrs text base (r.program.start, start) (pc, stop) := by
  refine runFrom_complete (by simp) (fun v hv => ?_) (by omega) h (t := ⟨r.program.start, 0⟩)
    (by simp) hstart hdone
  rw [Array.eq_of_mem_replicate hv]
  exact Nat.zero_le start

end Glr.Regex
