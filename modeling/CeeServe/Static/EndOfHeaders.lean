import CeeServe.Lib.CString
import CeeServe.Lib.Search
import Mathlib.Tactic.Common

/-! # The head scanner of static.c

`end_of_headers` looks for CR LF CR LF over the raw buffer. It returns the index
behind the first one whose start is below `BSIZE-4`.
-/
namespace CeeServe.Static
open CString Search

def bsize : ℕ := 4096

/-- The `for` loop of `end_of_headers`; the list is `data[i..]`. -/
def endOfHeadersLoop : List UInt8 → ℕ → ℤ
  | [], _ => -1
  | c :: rest, i =>
    if i < bsize - 4 then
      if (c :: rest).take 4 = [cr, lf, cr, lf] then i + 4 else endOfHeadersLoop rest (i + 1)
    else -1

def endOfHeaders (data : List UInt8) : ℤ := endOfHeadersLoop data 0

def terminator : List UInt8 := [cr, lf, cr, lf]

theorem terminator_prefix_iff (s : List UInt8) : terminator <+: s ↔ s.take 4 = [cr, lf, cr, lf] := by
  rw [List.prefix_iff_eq_take]
  exact eq_comm

theorem endOfHeadersLoop_cases (s : List UInt8) (k : ℕ) :
    (endOfHeadersLoop s k = -1 ∧ ∀ j, k + j < bsize - 4 → ¬ OccursAt terminator s j) ∨
      ∃ j, endOfHeadersLoop s k = ((k + j : ℕ) : ℤ) + 4 ∧ k + j < bsize - 4 ∧
        OccursAt terminator s j ∧ ∀ j' < j, ¬ OccursAt terminator s j' := by
  induction s generalizing k with
  | nil => exact Or.inl ⟨rfl, fun j _ => by simp [OccursAt, terminator]⟩
  | cons c s ih =>
    rw [endOfHeadersLoop]
    by_cases hk : k < bsize - 4
    · rw [if_pos hk]
      by_cases ht : (c :: s).take 4 = [cr, lf, cr, lf]
      · rw [if_pos ht]
        right
        exact ⟨0, by simp, by omega, occursAt_zero.mpr ((terminator_prefix_iff _).mpr ht),
          fun j' hj' => absurd hj' (Nat.not_lt_zero j')⟩
      · rw [if_neg ht]
        have h0 : ¬ OccursAt terminator (c :: s) 0 := fun h =>
          ht ((terminator_prefix_iff _).mp (occursAt_zero.mp h))
        rcases ih (k + 1) with ⟨hret, hnone⟩ | ⟨j, hret, hj, hocc, hleast⟩
        · left
          refine ⟨hret, fun j hj => ?_⟩
          cases j with
          | zero => exact h0
          | succ j => exact fun h => hnone j (by omega) (occursAt_cons_succ.mp h)
        · right
          refine ⟨j + 1, ?_, by omega, occursAt_cons_succ.mpr hocc, fun j' hj' => ?_⟩
          · rw [hret]
            congr 2
            omega
          · cases j' with
            | zero => exact h0
            | succ j' => exact fun h => hleast j' (by omega) (occursAt_cons_succ.mp h)
    · rw [if_neg hk]
      exact Or.inl ⟨rfl, fun j hj => by omega⟩

theorem endOfHeaders_cases (data : List UInt8) :
    (endOfHeaders data = -1 ∧ ∀ i < bsize - 4, ¬ OccursAt terminator data i) ∨
      ∃ i < bsize - 4, endOfHeaders data = (i : ℤ) + 4 ∧
        OccursAt terminator data i ∧ ∀ j < i, ¬ OccursAt terminator data j := by
  rcases endOfHeadersLoop_cases data 0 with ⟨hret, hnone⟩ | ⟨i, hret, hi, hocc, hleast⟩
  · exact Or.inl ⟨hret, fun i hi => hnone i (by omega)⟩
  · rw [Nat.zero_add] at hret hi
    exact Or.inr ⟨i, hi, hret, hocc, hleast⟩

theorem endOfHeaders_eq_neg_one_iff (data : List UInt8) :
    endOfHeaders data = -1 ↔ ∀ i < bsize - 4, ¬ OccursAt terminator data i := by
  rcases endOfHeaders_cases data with ⟨hret, hnone⟩ | ⟨i, hi, hret, hocc, -⟩
  · exact ⟨fun _ => hnone, fun _ => hret⟩
  · refine ⟨fun h => ?_, fun h => absurd hocc (h i hi)⟩
    rw [hret] at h
    omega

theorem endOfHeaders_eq_iff (data : List UInt8) (i : ℕ) :
    endOfHeaders data = (i : ℤ) + 4 ↔
      i < bsize - 4 ∧ OccursAt terminator data i ∧ ∀ j < i, ¬ OccursAt terminator data j := by
  rcases endOfHeaders_cases data with ⟨hret, hnone⟩ | ⟨k, hk, hret, hocc, hleast⟩
  · rw [hret]
    refine ⟨fun h => by omega, fun h => absurd h.2.1 (hnone i h.1)⟩
  · rw [hret]
    constructor
    · intro h
      obtain rfl : k = i := by omega
      exact ⟨hk, hocc, hleast⟩
    · rintro ⟨-, hocc', hleast'⟩
      rcases Nat.lt_trichotomy k i with h | rfl | h
      · exact absurd hocc (hleast' k h)
      · rfl
      · exact absurd hocc' (hleast i h)

/-- The buffer's first terminator is found, wherever it stands, and -1 returned exactly
when there is none. -/
structure FindsTerminator (buffer : List UInt8) : Prop where
  found : ∀ i, OccursAt terminator buffer i → (∀ j < i, ¬ OccursAt terminator buffer j) →
    endOfHeaders buffer = (i : ℤ) + 4
  absent : endOfHeaders buffer = -1 ↔ ∀ i, ¬ OccursAt terminator buffer i

/-- The loop bound leaves out one place: a terminator that ends the buffer. -/
theorem findsTerminator_iff (buffer : List UInt8) (hlen : buffer.length = bsize) :
    FindsTerminator buffer ↔ firstAt terminator buffer ≠ some (bsize - 4) := by
  have hterm : terminator.length = 4 := rfl
  constructor
  · intro h hlast
    obtain ⟨hocc, hleast⟩ := firstAt_eq_some_iff.mp hlast
    have hret := h.found _ hocc hleast
    rw [(endOfHeaders_eq_neg_one_iff buffer).mpr hleast] at hret
    omega
  · intro hlast
    have hbound : ∀ i, OccursAt terminator buffer i → (∀ j < i, ¬ OccursAt terminator buffer j) → i < bsize - 4 := by
      intro i hocc hleast
      have hle := hocc.le_length (by decide)
      have hne : i ≠ bsize - 4 := fun h => hlast (h ▸ firstAt_eq_some_iff.mpr ⟨hocc, hleast⟩)
      omega
    refine ⟨fun i hocc hleast => (endOfHeaders_eq_iff buffer i).mpr ⟨hbound i hocc hleast, hocc, hleast⟩, ?_⟩
    rw [endOfHeaders_eq_neg_one_iff]
    refine ⟨fun hnone i hocc => ?_, fun hnone i _ => hnone i⟩
    cases hf : firstAt terminator buffer with
    | none => exact firstAt_eq_none_iff.mp hf i hocc
    | some k =>
      obtain ⟨hk, hleast⟩ := firstAt_eq_some_iff.mp hf
      exact hnone k (hbound k hk hleast) hk

/-- A head at the front of a buffer of zeros. -/
theorem findsTerminator_head :
    FindsTerminator (ascii "GET / H\r\n\r\n" ++ List.replicate (bsize - 11) nul) ↔
      firstAt terminator (ascii "GET / H\r\n\r\n" ++ List.replicate (bsize - 11) nul) ≠ some (bsize - 4) :=
  findsTerminator_iff _ (by decide +kernel)

/-- A head of exactly 4096 bytes. -/
def fullBuffer : List UInt8 := ascii "GET / H\r\nA:" ++ List.replicate (bsize - 15) 97 ++ terminator

theorem fullBuffer_not_found : fullBuffer.length = bsize ∧ ¬ FindsTerminator fullBuffer := by
  have hocc : OccursAt terminator fullBuffer (bsize - 4) := by decide +kernel
  have hret : endOfHeaders fullBuffer = -1 := by decide +kernel
  exact ⟨by decide +kernel, fun h => h.absent.mp hret _ hocc⟩

end CeeServe.Static
