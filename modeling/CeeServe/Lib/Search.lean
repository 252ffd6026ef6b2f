import Mathlib.Data.List.Basic
import Mathlib.Data.List.Infix
import Mathlib.Data.Nat.Find

/-! # First occurrence of a pattern in a list

`OccursAt` places a pattern at an index; `firstAt` searches the least such index.
An occurrence that ends inside a prefix does not depend on what follows it.
-/
namespace CeeServe.Search
variable {α : Type*} [DecidableEq α]

def OccursAt (pat s : List α) (i : ℕ) : Prop := pat <+: s.drop i

instance (pat s : List α) (i : ℕ) : Decidable (OccursAt pat s i) :=
  inferInstanceAs (Decidable (pat <+: s.drop i))

def firstAt (pat : List α) : List α → Option ℕ
  | [] => if pat <+: [] then some 0 else none
  | c :: s => if pat <+: c :: s then some 0 else (firstAt pat s).map (· + 1)

variable {pat s : List α} {i : ℕ}

omit [DecidableEq α] in
@[simp] theorem occursAt_zero : OccursAt pat s 0 ↔ pat <+: s := by
  simp [OccursAt]

omit [DecidableEq α] in
@[simp] theorem occursAt_cons_succ {c : α} : OccursAt pat (c :: s) (i + 1) ↔ OccursAt pat s i := by
  simp [OccursAt]

omit [DecidableEq α] in
theorem OccursAt.le_length (h : OccursAt pat s i) (hne : pat ≠ []) : i + pat.length ≤ s.length := by
  have hle := List.IsPrefix.length_le h
  have hpos := List.length_pos_iff.mpr hne
  rw [List.length_drop] at hle
  omega

omit [DecidableEq α] in
theorem occursAt_iff_getElem : OccursAt pat s i ↔ ∀ k < pat.length, pat[k]? = s[i + k]? := by
  rw [OccursAt, List.prefix_iff_getElem?]
  constructor
  · intro h k hk
    have hk' := h k hk
    rw [List.getElem?_drop] at hk'
    rw [List.getElem?_eq_getElem hk, hk']
  · intro h k hk
    rw [List.getElem?_drop, ← h k hk, List.getElem?_eq_getElem hk]

omit [DecidableEq α] in
/-- Two lists that agree on the window of an occurrence agree on the occurrence. -/
theorem occursAt_congr {t : List α} (h : ∀ k < pat.length, s[i + k]? = t[i + k]?) :
    OccursAt pat s i ↔ OccursAt pat t i := by
  rw [occursAt_iff_getElem, occursAt_iff_getElem]
  exact forall₂_congr (fun k hk => by rw [h k hk])

omit [DecidableEq α] in
theorem occursAt_append_left (b : List α) (h : i + pat.length ≤ s.length) :
    OccursAt pat (s ++ b) i ↔ OccursAt pat s i := by
  apply occursAt_congr
  intro k hk
  rw [List.getElem?_append_left (by omega)]

theorem firstAt_eq_some_iff :
    firstAt pat s = some i ↔ OccursAt pat s i ∧ ∀ j < i, ¬ OccursAt pat s j := by
  induction s generalizing i with
  | nil =>
    by_cases hp : pat = []
    · subst hp
      simp only [firstAt, List.nil_prefix, if_true, Option.some.injEq, OccursAt, List.drop_nil, true_and,
        not_true_eq_false, imp_false, not_lt]
      exact ⟨fun h j => by omega, fun h => by have := h 0; omega⟩
    · simp [firstAt, OccursAt, hp]
  | cons c s ih =>
    simp only [firstAt]
    by_cases h0 : pat <+: c :: s
    · rw [if_pos h0]
      constructor
      · intro h
        obtain rfl := Option.some.inj h
        exact ⟨occursAt_zero.mpr h0, fun j hj => absurd hj (Nat.not_lt_zero j)⟩
      · rintro ⟨-, hleast⟩
        cases i with
        | zero => rfl
        | succ i => exact absurd (occursAt_zero.mpr h0) (hleast 0 (Nat.succ_pos i))
    · rw [if_neg h0]
      cases i with
      | zero => simp [h0]
      | succ i =>
        simp only [Option.map_eq_some_iff, Nat.add_right_cancel_iff, exists_eq_right, ih,
          occursAt_cons_succ]
        refine and_congr_right fun _ => ⟨fun h j hj => ?_, fun h j hj => ?_⟩
        · cases j with
          | zero => simpa using h0
          | succ j => simpa using h j (by omega)
        · simpa using h (j + 1) (by omega)

theorem firstAt_eq_none_iff : firstAt pat s = none ↔ ∀ j, ¬ OccursAt pat s j := by
  constructor
  · intro h j hj
    obtain ⟨i, hi, hleast⟩ : ∃ i, OccursAt pat s i ∧ ∀ k < i, ¬ OccursAt pat s k :=
      ⟨Nat.find ⟨j, hj⟩, Nat.find_spec ⟨j, hj⟩, fun k hk => Nat.find_min ⟨j, hj⟩ hk⟩
    rw [firstAt_eq_some_iff.mpr ⟨hi, hleast⟩] at h
    cases h
  · intro h
    cases hf : firstAt pat s with
    | none => rfl
    | some i => exact absurd (firstAt_eq_some_iff.mp hf).1 (h i)

theorem firstAt_append (h : firstAt pat s = some i) (hne : pat ≠ []) (b : List α) :
    firstAt pat (s ++ b) = some i := by
  obtain ⟨hocc, hleast⟩ := firstAt_eq_some_iff.mp h
  have hle := hocc.le_length hne
  refine firstAt_eq_some_iff.mpr ⟨(occursAt_append_left b hle).mpr hocc, ?_⟩
  intro j hj hoccj
  exact hleast j hj ((occursAt_append_left b (by omega)).mp hoccj)

end CeeServe.Search
