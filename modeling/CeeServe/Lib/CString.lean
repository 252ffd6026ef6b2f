import Mathlib.Data.List.Basic
import Mathlib.Data.List.TakeWhile

/-! # Byte strings as C reads them

A `char *` is the list of the bytes that lie in memory from the pointer on. Its
string ends before the first NUL; a region without a NUL has no string, and a
function that reads on past the region is undefined there (`none`).
-/
namespace CeeServe.CString

def nul : UInt8 := 0
def tab : UInt8 := 9
def lf : UInt8 := 10
def cr : UInt8 := 13
def sp : UInt8 := 32
def dot : UInt8 := 46
def slash : UInt8 := 47
def colon : UInt8 := 58

def crlf : List UInt8 := [cr, lf]

def ascii (s : String) : List UInt8 := s.toList.map Char.toUInt8

/-- White space of the C locale: space, TAB, LF, VT, FF and CR. -/
def isspace (c : UInt8) : Bool := c == sp || (tab ≤ c && c ≤ cr)

/-- The string that starts a region, its terminator implied at the end. -/
def cstr (s : List UInt8) : List UInt8 := s.takeWhile (fun c => c != nul)

/-- The string of a region that has to hold its own terminator. -/
def cstr? (s : List UInt8) : Option (List UInt8) := if nul ∈ s then some (cstr s) else none

/-- `strcmp(s, key) == 0`, byte by byte as long as both agree; `none` when the
comparison reads past the end of the region `s`. -/
def strcmpEq : List UInt8 → List UInt8 → Option Bool
  | [], _ => none
  | b :: _, [] => some (b == nul)
  | b :: s, k :: key => if b = k then strcmpEq s key else some false

@[simp] theorem cstr_nil : cstr [] = [] := rfl

theorem nul_not_mem_cstr (s : List UInt8) : nul ∉ cstr s := by
  intro h
  have := List.mem_takeWhile_imp h
  simp at this

theorem cstr_append {a : List UInt8} (ha : nul ∉ a) (b : List UInt8) : cstr (a ++ b) = a ++ cstr b := by
  apply List.takeWhile_append_of_pos
  intro c hc
  have hne : c ≠ nul := fun h => ha (h ▸ hc)
  simpa using hne

theorem cstr_of_not_mem {a : List UInt8} (ha : nul ∉ a) : cstr a = a := by
  simpa using cstr_append ha []

@[simp] theorem cstr_nul_cons (b : List UInt8) : cstr (nul :: b) = [] := by
  simp [cstr]

theorem cstr_append_nul {a : List UInt8} (ha : nul ∉ a) (b : List UInt8) : cstr (a ++ nul :: b) = a := by
  rw [cstr_append ha, cstr_nul_cons, List.append_nil]

theorem cstr_cases (s : List UInt8) : s = cstr s ∨ ∃ b, s = cstr s ++ nul :: b := by
  induction s with
  | nil => exact Or.inl rfl
  | cons c s ih =>
    by_cases hc : c = nul
    · subst hc
      exact Or.inr ⟨s, by simp⟩
    · have hcons : cstr (c :: s) = c :: cstr s := by simp [cstr, hc]
      rw [hcons]
      rcases ih with h | ⟨b, h⟩
      · exact Or.inl (congrArg (c :: ·) h)
      · exact Or.inr ⟨b, congrArg (c :: ·) h⟩

theorem cstr?_eq_some {s v : List UInt8} (h : cstr? s = some v) : nul ∉ v ∧ ∃ b, s = v ++ nul :: b := by
  unfold cstr? at h
  split at h
  · rename_i hn
    obtain rfl := Option.some.inj h
    refine ⟨nul_not_mem_cstr s, ?_⟩
    rcases cstr_cases s with hs | hs
    · exact absurd (hs ▸ hn) (nul_not_mem_cstr s)
    · exact hs
  · cases h

theorem cstr?_append_nul {a : List UInt8} (ha : nul ∉ a) (b : List UInt8) : cstr? (a ++ nul :: b) = some a := by
  rw [cstr?, if_pos (by simp), cstr_append_nul ha]

theorem strcmpEq_true {s key : List UInt8} (h : strcmpEq s key = some true) : ∃ r, s = key ++ nul :: r := by
  induction key generalizing s with
  | nil =>
    cases s with
    | nil => cases h
    | cons b s =>
      have hb : b = nul := by simpa [strcmpEq] using h
      exact ⟨s, by rw [hb, List.nil_append]⟩
  | cons k key ih =>
    cases s with
    | nil => cases h
    | cons b s =>
      by_cases hb : b = k
      · rw [strcmpEq, if_pos hb] at h
        obtain ⟨r, hr⟩ := ih h
        exact ⟨r, by rw [hr, hb, List.cons_append]⟩
      · simp [strcmpEq, hb] at h

theorem strcmpEq_terminated {a key : List UInt8} (ha : nul ∉ a) (hk : nul ∉ key) (b : List UInt8) :
    strcmpEq (a ++ nul :: b) key = some (decide (a = key)) := by
  induction a generalizing key with
  | nil =>
    cases key with
    | nil => simp [strcmpEq]
    | cons k key =>
      have hne : nul ≠ k := fun h => hk (h ▸ List.mem_cons_self)
      simp [strcmpEq, hne]
  | cons c a ih =>
    have hc : c ≠ nul := fun h => ha (h ▸ List.mem_cons_self)
    cases key with
    | nil => simp [strcmpEq, hc]
    | cons k key =>
      have ha' : nul ∉ a := fun h => ha (List.mem_cons_of_mem c h)
      have hk' : nul ∉ key := fun h => hk (List.mem_cons_of_mem k h)
      rw [List.cons_append, strcmpEq]
      by_cases hck : c = k
      · simp [hck, ih ha' hk']
      · simp [hck]

/-- A region never compares different from its own leading string. -/
theorem strcmpEq_self (s : List UInt8) : strcmpEq s (cstr s) ≠ some false := by
  rcases cstr_cases s with h | ⟨b, h⟩
  · rw [← h]
    have hs : nul ∉ s := h ▸ nul_not_mem_cstr s
    intro hf
    clear h
    induction s with
    | nil => cases hf
    | cons c s ih =>
      rw [strcmpEq, if_pos rfl] at hf
      exact ih (fun h => hs (List.mem_cons_of_mem c h)) hf
  · rw [h, cstr_append_nul (nul_not_mem_cstr s), strcmpEq_terminated (nul_not_mem_cstr s) (nul_not_mem_cstr s)]
    simp

end CeeServe.CString
