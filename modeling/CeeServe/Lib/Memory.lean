import Mathlib.Data.Fintype.Order
import Mathlib.Data.List.GetD
import Mathlib.Logic.Nontrivial.Basic

/-! # Objects in memory

The size of a struct follows from the sizes of its members. Objects lie at addresses
that do not overlap, and a write stores values from the first address of the object
it names. Writes that are no longer than their objects leave everything else as it
was, wherever the objects lie; one that is longer changes something else for some
placement and some contents of the memory.
-/
namespace CeeServe.Memory

def alignUp (offset align : ℕ) : ℕ := (offset + align - 1) / align * align

/-- Where the members end when each starts at the next multiple of its size. -/
def layoutEnd : ℕ → List ℕ → ℕ
  | offset, [] => offset
  | offset, size :: sizes => layoutEnd (alignUp offset size + size) sizes

/-- The members, filled up to a multiple of the largest one. -/
def structSize (sizes : List ℕ) : ℕ := alignUp (layoutEnd 0 sizes) (sizes.foldr max 1)

variable {κ β : Type*} {size : κ → ℕ}

structure Placement (size : κ → ℕ) where
  base : κ → ℕ
  apart : ∀ k l, k ≠ l → base k + size k ≤ base l ∨ base l + size l ≤ base k

/-- The address belongs to an object. -/
def Placement.Holds (p : Placement size) (a : ℕ) : Prop := ∃ k, p.base k ≤ a ∧ a < p.base k + size k

/-- The elements of a finite type can be numbered from any one of them on. -/
theorem exists_slots [Finite κ] (k : κ) : ∃ slot : κ → ℕ, slot k = 0 ∧ Function.Injective slot := by
  obtain ⟨n, ⟨e⟩⟩ := Finite.exists_equiv_fin κ
  refine ⟨fun l => Equiv.swap (e k : ℕ) 0 (e l), Equiv.swap_apply_left _ _, ?_⟩
  exact (Equiv.injective _).comp (Fin.val_injective.comp e.injective)

/-- The objects can lie so that the address behind one of them belongs to none: that one
comes first, and every object gets one address more than the largest needs. -/
theorem exists_placement [Finite κ] (size : κ → ℕ) (k : κ) :
    ∃ p : Placement size, ¬ p.Holds (p.base k + size k) := by
  obtain ⟨bound, hbound⟩ := Finite.bddAbove_range size
  obtain ⟨slot, hk, hinj⟩ := exists_slots k
  have hnext : ∀ l l', slot l < slot l' → slot l * (bound + 1) + size l < slot l' * (bound + 1) := by
    intro l l' hlt
    have hmul := Nat.mul_le_mul_right (bound + 1) (Nat.succ_le_of_lt hlt)
    have hl : size l ≤ bound := hbound ⟨l, rfl⟩
    rw [Nat.succ_mul] at hmul
    omega
  refine ⟨⟨fun l => slot l * (bound + 1), fun l l' hne => ?_⟩, ?_⟩
  · rcases Nat.lt_trichotomy (slot l) (slot l') with hlt | heq | hlt
    · exact Or.inl (hnext l l' hlt).le
    · exact absurd (hinj heq) hne
    · exact Or.inr (hnext l' l hlt).le
  · rintro ⟨l, hlow, hhigh⟩
    rcases Nat.eq_zero_or_pos (slot l) with hl | hl
    · rw [hinj (hl.trans hk.symm)] at hhigh
      exact Nat.lt_irrefl _ hhigh
    · exact absurd hlow (Nat.not_le_of_lt (hnext k l (by rw [hk]; exact hl)))

structure Write (κ β : Type*) where
  object : κ
  values : List β

def Write.Covers (w : Write κ β) (p : Placement size) (a : ℕ) : Prop :=
  p.base w.object ≤ a ∧ a < p.base w.object + w.values.length

def Placement.store (p : Placement size) (mem : ℕ → β) (w : Write κ β) : ℕ → β := fun a =>
  if p.base w.object ≤ a then w.values.getD (a - p.base w.object) (mem a) else mem a

def Placement.replay (p : Placement size) (mem : ℕ → β) (ws : List (Write κ β)) : ℕ → β := ws.foldl p.store mem

theorem store_of_not_covers {p : Placement size} {w : Write κ β} {a : ℕ} (h : ¬ w.Covers p a) (mem : ℕ → β) :
    p.store mem w a = mem a := by
  unfold Placement.store
  split
  · rename_i hlow
    have hhigh : w.values.length ≤ a - p.base w.object := by
      have hnot : ¬ a < p.base w.object + w.values.length := fun hlt => h ⟨hlow, hlt⟩
      omega
    exact List.getD_eq_default _ _ hhigh
  · rfl

theorem store_of_covers {p : Placement size} {w : Write κ β} {a : ℕ} (h : w.Covers p a) :
    ∃ v, ∀ mem, p.store mem w a = v := by
  obtain ⟨hlow, hhigh⟩ := h
  have hlt : a - p.base w.object < w.values.length := by omega
  refine ⟨w.values[a - p.base w.object], fun mem => ?_⟩
  unfold Placement.store
  rw [if_pos hlow]
  exact List.getD_eq_getElem _ _ hlt

theorem replay_of_not_covers {p : Placement size} {ws : List (Write κ β)} {a : ℕ} (h : ∀ w ∈ ws, ¬ w.Covers p a)
    (mem : ℕ → β) : p.replay mem ws a = mem a := by
  induction ws generalizing mem with
  | nil => rfl
  | cons w ws ih =>
    obtain ⟨hw, hrest⟩ := List.forall_mem_cons.mp h
    exact (ih hrest (p.store mem w)).trans (store_of_not_covers hw mem)

/-- What a covered address holds in the end does not depend on what it held before. -/
theorem replay_of_covers {p : Placement size} {ws : List (Write κ β)} {a : ℕ} (h : ∃ w ∈ ws, w.Covers p a) :
    ∃ v, ∀ mem, p.replay mem ws a = v := by
  induction ws with
  | nil => simp at h
  | cons w ws ih =>
    by_cases hrest : ∃ w' ∈ ws, w'.Covers p a
    · obtain ⟨v, hv⟩ := ih hrest
      exact ⟨v, fun mem => hv (p.store mem w)⟩
    · have hnot : ∀ w' ∈ ws, ¬ w'.Covers p a := fun w' hw' hcovers => hrest ⟨w', hw', hcovers⟩
      obtain ⟨w', hw', hcovers⟩ := h
      rcases List.mem_cons.mp hw' with rfl | hw'
      · obtain ⟨v, hv⟩ := store_of_covers hcovers
        exact ⟨v, fun mem => (replay_of_not_covers hnot (p.store mem w')).trans (hv mem)⟩
      · exact absurd hcovers (hnot w' hw')

/-- Each write stays within the object it names exactly when no placement and no memory
shows a change outside the objects. -/
theorem inside_iff_unchanged [Finite κ] [Nontrivial β] {ws : List (Write κ β)} :
    (∀ w ∈ ws, w.values.length ≤ size w.object) ↔
      ∀ (p : Placement size) (mem : ℕ → β) (a : ℕ), ¬ p.Holds a → p.replay mem ws a = mem a := by
  constructor
  · intro h p mem a ha
    refine replay_of_not_covers (fun w hw hcovers => ha ⟨w.object, hcovers.1, ?_⟩) mem
    have hle := h w hw
    have hlt := hcovers.2
    omega
  · intro h w hw
    by_contra hlong
    obtain ⟨p, hp⟩ := exists_placement size w.object
    have hcovers : w.Covers p (p.base w.object + size w.object) := ⟨Nat.le_add_right _ _, by omega⟩
    obtain ⟨v, hv⟩ := replay_of_covers ⟨w, hw, hcovers⟩
    obtain ⟨v', hne⟩ := exists_ne v
    have hkept := h p (fun _ => v') _ hp
    exact hne (hkept.symm.trans (hv _))

end CeeServe.Memory
