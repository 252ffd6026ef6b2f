import Mathlib.Data.List.Basic
import Mathlib.Logic.Nontrivial.Basic

/-! # Writes that accept a part

A program writes buffers one after the other, and each write accepts some number of
elements from the front of its buffer. Nothing is skipped as long as a write that
accepts less than it was given is the last one that accepts anything. After a write
that does, the stream has a gap whatever was to follow.
-/
namespace CeeServe.PartialWrites
variable {α : Type*}

/-- What is accepted of the buffers. -/
def written (bufs : List (List α)) (accepted : List ℕ) : List α :=
  (List.zipWith (fun b n => b.take n) bufs accepted).flatten

/-- Nothing is accepted behind a write that accepted less than its buffer. -/
def NoneAfterShort (bufs : List (List α)) (accepted : List ℕ) : Prop :=
  (bufs.zip accepted).Pairwise fun p q => p.2 < p.1.length → q.2 = 0

@[simp] theorem written_cons (b : List α) (bufs : List (List α)) (n : ℕ) (accepted : List ℕ) :
    written (b :: bufs) (n :: accepted) = b.take n ++ written bufs accepted := rfl

@[simp] theorem written_nil_left (accepted : List ℕ) : written ([] : List (List α)) accepted = [] := rfl

@[simp] theorem written_nil_right (bufs : List (List α)) : written bufs [] = [] := by
  cases bufs <;> rfl

theorem written_append (bufs bufs' : List (List α)) (accepted : List ℕ) :
    written (bufs ++ bufs') accepted =
      written bufs accepted ++ written bufs' (accepted.drop bufs.length) := by
  induction bufs generalizing accepted with
  | nil => simp
  | cons b bufs ih =>
    cases accepted with
    | nil => simp
    | cons n accepted => simp [ih]

theorem written_take (bufs : List (List α)) (accepted : List ℕ) (k : ℕ) :
    written (bufs.take k) accepted <+: written bufs accepted := by
  have happend := written_append (bufs.take k) (bufs.drop k) accepted
  rw [List.take_append_drop] at happend
  exact ⟨_, happend.symm⟩

theorem written_eq_nil {bufs : List (List α)} {accepted : List ℕ} (h : ∀ p ∈ bufs.zip accepted, p.2 = 0) :
    written bufs accepted = [] := by
  induction bufs generalizing accepted with
  | nil => rfl
  | cons b bufs ih =>
    cases accepted with
    | nil => rfl
    | cons n accepted =>
      rw [List.zip_cons_cons, List.forall_mem_cons] at h
      obtain ⟨rfl, hrest⟩ := h
      simpa using ih hrest

theorem written_noneAfterShort {bufs : List (List α)} {accepted : List ℕ} (h : NoneAfterShort bufs accepted) :
    written bufs accepted <+: bufs.flatten := by
  induction bufs generalizing accepted with
  | nil => exact List.prefix_refl _
  | cons b bufs ih =>
    cases accepted with
    | nil => exact List.nil_prefix
    | cons n accepted =>
      obtain ⟨hshort, hrest⟩ := List.pairwise_cons.mp h
      rw [written_cons, List.flatten_cons]
      by_cases hn : n < b.length
      · rw [written_eq_nil fun p hp => hshort p hp hn, List.append_nil]
        exact (List.take_prefix n b).trans (List.prefix_append b _)
      · rw [List.take_of_length_le (Nat.le_of_not_lt hn)]
        exact (List.prefix_append_right_inj b).mpr (ih hrest)

/-- Only the lengths of the buffers matter. -/
theorem noneAfterShort_congr {bufs bufs' : List (List α)} (h : bufs.map List.length = bufs'.map List.length)
    {accepted : List ℕ} : NoneAfterShort bufs accepted ↔ NoneAfterShort bufs' accepted := by
  have hmap : ∀ bufs : List (List α), NoneAfterShort bufs accepted ↔
      ((bufs.map List.length).zip accepted).Pairwise fun p q => p.2 < p.1 → q.2 = 0 := by
    intro bufs
    rw [List.zip_map_left, List.pairwise_map]
    rfl
  rw [hmap bufs, hmap bufs', h]

theorem length_written_le (bufs : List (List α)) (accepted : List ℕ) :
    (written bufs accepted).length ≤ bufs.flatten.length := by
  induction bufs generalizing accepted with
  | nil => exact Nat.le_refl 0
  | cons b bufs ih =>
    cases accepted with
    | nil => exact Nat.zero_le _
    | cons n accepted =>
      have hrest := ih accepted
      simp only [written_cons, List.flatten_cons, List.length_append, List.length_take]
      omega

theorem length_written_lt {bufs : List (List α)} {accepted : List ℕ} {p : List α × ℕ}
    (hp : p ∈ bufs.zip accepted) (hshort : p.2 < p.1.length) :
    (written bufs accepted).length < bufs.flatten.length := by
  induction bufs generalizing accepted with
  | nil => cases hp
  | cons b bufs ih =>
    cases accepted with
    | nil => cases hp
    | cons n accepted =>
      have hle := length_written_le bufs accepted
      simp only [written_cons, List.flatten_cons, List.length_append, List.length_take]
      rcases List.mem_cons.mp hp with rfl | hp
      · dsimp only at hshort
        omega
      · have hrest := ih hp
        omega

/-- Fill a buffer with one element. -/
def fill (y : α) (b : List α) : List α := List.replicate b.length y

theorem written_fill (y : α) (bufs : List (List α)) (accepted : List ℕ) :
    ∀ x ∈ written (bufs.map (fill y)) accepted, x = y := by
  intro x hx
  obtain ⟨b, hb, hxb⟩ := List.mem_flatten.mp hx
  obtain ⟨i, hi, rfl⟩ := List.getElem_of_mem hb
  rw [List.getElem_zipWith, List.getElem_map] at hxb
  exact List.eq_of_mem_replicate (List.mem_of_mem_take hxb)

theorem written_fill_ne_nil (y : α) {bufs : List (List α)} {accepted : List ℕ} {q : List α × ℕ}
    (hq : q ∈ bufs.zip accepted) (hle : q.2 ≤ q.1.length) (hpos : q.2 ≠ 0) :
    written (bufs.map (fill y)) accepted ≠ [] := by
  induction bufs generalizing accepted with
  | nil => cases hq
  | cons b bufs ih =>
    cases accepted with
    | nil => cases hq
    | cons n accepted =>
      rw [List.map_cons, written_cons, Ne, List.append_eq_nil_iff]
      rintro ⟨hfirst, hrest⟩
      rcases List.mem_cons.mp hq with rfl | hq
      · have hlen := congrArg List.length hfirst
        simp only [fill, List.length_take, List.length_replicate, List.length_nil] at hlen
        dsimp only at hle hpos
        omega
      · exact ih hq hrest

/-- When something is accepted behind a short write, the buffers behind it can be filled
so that what was accepted is no prefix of what was to be written, whatever ends it. -/
theorem exists_gap [Nontrivial α] {bufs : List (List α)} {accepted : List ℕ}
    (hle : ∀ p ∈ bufs.zip accepted, p.2 ≤ p.1.length) (h : ¬ NoneAfterShort bufs accepted) :
    ∃ (i : ℕ) (y : α), ∀ rest, ¬ written (bufs.take (i + 1) ++ (bufs.map (fill y)).drop (i + 1)) accepted <+:
      (bufs.take (i + 1)).flatten ++ rest := by
  rw [NoneAfterShort, List.pairwise_iff_getElem] at h
  push Not at h
  obtain ⟨i, j, hi, hj, hij, hshort, hpos⟩ := h
  have hi' := hi
  have hj' := hj
  rw [List.length_zip] at hi' hj'
  have hfront : (bufs.take (i + 1)).length = i + 1 := by
    rw [List.length_take]
    omega
  -- the short write is one of the first `i + 1`, the later one is not
  have hp : (bufs.zip accepted)[i] ∈ (bufs.take (i + 1)).zip accepted := by
    refine List.mem_iff_getElem.mpr ⟨i, by rw [List.length_zip]; omega, ?_⟩
    simp
  have hq : (bufs.zip accepted)[j] ∈ (bufs.drop (i + 1)).zip (accepted.drop (i + 1)) := by
    refine List.mem_iff_getElem.mpr ⟨j - (i + 1), by simp only [List.length_zip, List.length_drop]; omega, ?_⟩
    have hback : i + 1 + (j - (i + 1)) = j := by omega
    simp [hback]
  have hlt := length_written_lt hp hshort
  obtain ⟨y, hy⟩ := exists_ne (bufs.take (i + 1)).flatten[(written (bufs.take (i + 1)) accepted).length]
  refine ⟨i, y, fun rest hprefix => hy ?_⟩
  have hne := written_fill_ne_nil y hq (hle _ (List.getElem_mem hj)) hpos
  rw [written_append, hfront, ← List.map_drop] at hprefix
  obtain ⟨c, t, hct⟩ := List.exists_cons_of_ne_nil hne
  have hc : c = y := written_fill y _ _ c (by rw [hct]; exact List.mem_cons_self)
  obtain ⟨u, hu⟩ := hprefix
  rw [hct, hc, List.append_assoc, List.cons_append] at hu
  have hat : _ = ((bufs.take (i + 1)).flatten ++ rest)[(written (bufs.take (i + 1)) accepted).length]? :=
    congrArg (fun l => l[(written (bufs.take (i + 1)) accepted).length]?) hu
  rw [List.getElem?_append_right (Nat.le_refl _), Nat.sub_self, List.getElem?_cons_zero,
    List.getElem?_append_left hlt, List.getElem?_eq_getElem hlt] at hat
  exact Option.some.inj hat

end CeeServe.PartialWrites
