import CeeServe.Static.ServeFile

/-! # The copy loop of serve_file on a file that does not change

`fread` returns 4096 bytes as long as there are so many left, and at the end the rest
with the end-of-file indicator set: an empty rest when the length is a multiple of
4096. The loop sends exactly the bytes of the file.
-/
namespace CeeServe.Static

/-- The calls of `fread` on a file with these bytes. -/
def freadsOf (content : List UInt8) : List FreadResult :=
  (List.range (content.length / bsize + 1)).map fun k =>
    { bytes := (content.drop (bsize * k)).take bsize
      eof := decide (content.length < bsize * (k + 1))
      length_le := List.length_take_le _ _ }

def openFile (content : List UInt8) : Opened := ⟨content.length, freadsOf content⟩

abbrev FileSystem := List UInt8 → Option (List UInt8)

def FileSystem.fopen (fs : FileSystem) : Fopen := fun _ name => (fs name).map openFile

theorem freadsOf_short {content : List UInt8} (h : content.length < bsize) :
    freadsOf content = [⟨content, true, Nat.le_of_lt h⟩] := by
  have hdiv : content.length / bsize = 0 := Nat.div_eq_of_lt h
  have htake : content.take bsize = content := List.take_of_length_le (Nat.le_of_lt h)
  simp [freadsOf, hdiv, htake, h]

theorem freadsOf_full {content : List UInt8} (h : bsize ≤ content.length) :
    freadsOf content =
      ⟨content.take bsize, false, List.length_take_le _ _⟩ :: freadsOf (content.drop bsize) := by
  have hdiv : content.length / bsize = (content.length - bsize) / bsize + 1 := by
    simp only [bsize] at h ⊢
    omega
  rw [freadsOf, freadsOf, hdiv, List.range_succ_eq_map, List.map_cons, List.map_map, List.length_drop]
  congr 1
  · simp only [Nat.mul_zero, List.drop_zero, FreadResult.mk.injEq, true_and, decide_eq_false_iff_not]
    omega
  · apply List.map_congr_left
    intro k _
    simp only [Function.comp_apply, FreadResult.mk.injEq, List.drop_drop, decide_eq_decide]
    constructor
    · congr 2
      simp only [bsize]
      omega
    · simp only [bsize] at h ⊢
      omega

/-- The loop ends, and what it sent is the file. -/
theorem bodyLoop_freadsOf (content : List UInt8) :
    (bodyLoop false (freadsOf content)).1.flatten = content ∧ (bodyLoop false (freadsOf content)).2 = true := by
  induction hn : content.length using Nat.strong_induction_on generalizing content with
  | _ n ih =>
    by_cases h : content.length < bsize
    · rw [freadsOf_short h]
      simp [bodyLoop]
    · have hle : bsize ≤ content.length := Nat.le_of_not_lt h
      have hlt : (content.drop bsize).length < n := by
        rw [List.length_drop]
        simp only [bsize] at hle ⊢
        omega
      obtain ⟨hcopy, hend⟩ := ih _ hlt (content.drop bsize) rfl
      rw [freadsOf_full hle]
      refine ⟨?_, hend⟩
      rw [bodyLoop, List.flatten_cons, hcopy, List.take_append_drop]

end CeeServe.Static
