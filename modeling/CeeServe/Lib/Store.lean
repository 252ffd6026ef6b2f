import Mathlib.Data.List.Basic
import Mathlib.Logic.Function.Basic

/-! # Memory objects: writes at the front and write-once cells

`overlay` writes a list over the front of an object of fixed size. A block fresh
from the allocator is a function that knows which of its cells were written;
`ofCells` is the block whose first cells are given, and `written` reads it up to
the first cell that was never written.
-/
namespace CeeServe.Store
variable {α : Type*}

/-- Write over the front of an object; nothing outside the object is written. -/
def overlay : List α → List α → List α
  | _, [] => []
  | [], old => old
  | c :: cs, _ :: old => c :: overlay cs old

@[simp] theorem overlay_nil (old : List α) : overlay [] old = old := by
  cases old <;> rfl

@[simp] theorem length_overlay (cs old : List α) : (overlay cs old).length = old.length := by
  induction old generalizing cs with
  | nil => cases cs <;> rfl
  | cons o old ih => cases cs <;> simp [overlay, ih]

theorem overlay_eq {cs old : List α} (h : cs.length ≤ old.length) :
    overlay cs old = cs ++ old.drop cs.length := by
  induction cs generalizing old with
  | nil => simp
  | cons c cs ih =>
    cases old with
    | nil => simp at h
    | cons o old =>
      simp only [List.length_cons, Nat.add_le_add_iff_right] at h
      simp [overlay, ih h]

/-- A block: the content of each cell, or `none` where nothing was written. -/
abbrev Block (α : Type*) := ℕ → Option α

def fresh : Block α := fun _ => none

/-- The block whose first cells are given. -/
def ofCells (cells : List (Option α)) : Block α := fun n => cells[n]?.join

/-- The elements from index 0 up to the first cell not written, of the first `n`. -/
def written : ℕ → Block α → List α
  | 0, _ => []
  | n + 1, b =>
    match b 0 with
    | none => []
    | some c => c :: written n (fun k => b (k + 1))

/-- All of a block of `n` cells, the cells never written holding `init`. -/
def contents (n : ℕ) (b : Block α) (init : ℕ → α) : List α :=
  (List.range n).map fun k => (b k).getD (init k)

@[simp] theorem ofCells_nil : ofCells ([] : List (Option α)) = fresh := by
  funext n
  simp [ofCells, fresh]

@[simp] theorem ofCells_append_none (cells : List (Option α)) : ofCells (cells ++ [none]) = ofCells cells := by
  funext n
  simp only [ofCells]
  rcases Nat.lt_trichotomy n cells.length with h | rfl | h
  · rw [List.getElem?_append_left h]
  · simp
  · rw [List.getElem?_eq_none (by simp; omega), List.getElem?_eq_none (by omega)]

/-- Writing the cell after the last one extends the block. -/
theorem update_ofCells (cells : List (Option α)) (c : α) :
    Function.update (ofCells cells) cells.length (some c) = ofCells (cells ++ [some c]) := by
  funext n
  rcases Nat.lt_trichotomy n cells.length with h | rfl | h
  · rw [Function.update_of_ne (by omega)]
    simp only [ofCells, List.getElem?_append_left h]
  · simp [ofCells]
  · rw [Function.update_of_ne (by omega)]
    simp only [ofCells]
    rw [List.getElem?_eq_none (by omega), List.getElem?_eq_none (by simp; omega)]

theorem ofCells_cons_succ (o : Option α) (cells : List (Option α)) :
    (fun k => ofCells (o :: cells) (k + 1)) = ofCells cells := by
  funext k
  simp [ofCells]

theorem written_ofCells_some {l : List α} {n : ℕ} (h : l.length ≤ n) :
    written n (ofCells (l.map some)) = l := by
  induction l generalizing n with
  | nil => cases n <;> simp [written, fresh]
  | cons c l ih =>
    obtain ⟨m, rfl⟩ : ∃ m, n = m + 1 := ⟨n - 1, by simp only [List.length_cons] at h; omega⟩
    simp only [List.map_cons, written, ofCells_cons_succ]
    simp only [ofCells, List.getElem?_cons_zero, Option.join_some]
    rw [ih (by simpa using h)]

theorem length_written_le (n : ℕ) (b : Block α) : (written n b).length ≤ n := by
  induction n generalizing b with
  | zero => simp [written]
  | succ n ih =>
    rw [written]
    split
    · exact Nat.zero_le _
    · rw [List.length_cons]
      exact Nat.succ_le_succ (ih _)

theorem mem_written_ofCells {n : ℕ} {cells : List (Option α)} {c : α} (h : c ∈ written n (ofCells cells)) :
    some c ∈ cells := by
  induction n generalizing cells with
  | zero => simp [written] at h
  | succ n ih =>
    cases cells with
    | nil => simp [written, fresh] at h
    | cons o cells =>
      rw [written, ofCells_cons_succ] at h
      cases o with
      | none => simp [ofCells] at h
      | some d =>
        rcases List.mem_cons.mp h with rfl | h
        · exact List.mem_cons_self
        · exact List.mem_cons_of_mem _ (ih h)

@[simp] theorem length_contents (n : ℕ) (b : Block α) (init : ℕ → α) : (contents n b init).length = n := by
  simp [contents]

theorem getElem?_contents {n k : ℕ} (hk : k < n) (b : Block α) (init : ℕ → α) :
    (contents n b init)[k]? = some ((b k).getD (init k)) := by
  simp [contents, hk]

end CeeServe.Store
