import CeeServe.Http.HeaderLines

/-! # Which requests keep the scanner inside its buffers

A store is defined when its entry is one of the array, its pointer is not NULL and
leads to a buffer of the current line, and its offset lies in that buffer. The
scanner itself checks none of this: its stores are defined exactly for requests
whose lines are few and short enough.
-/
namespace CeeServe.HeaderScan
open CString Store

/-- Every store of a log is inside the memory the scanner allocated; the first
argument is the entry allocated last. -/
def StoresDefined : Option ℕ → List Access → Prop
  | _, [] => True
  | cur, .load _ :: log => StoresDefined cur log
  | _, .entry k :: log => k < headerCapacity ∧ StoresDefined (some k) log
  | cur, .store target offset :: log =>
    (∃ p, target = some p ∧ cur = some p.entry) ∧ 0 ≤ offset ∧ offset < bufferSize ∧ StoresDefined cur log

/-- From the 257th byte of its name and of its value on, a line has only CRs,
which the scanner passes over. -/
structure LineFits (l : List UInt8) : Prop where
  name : ∀ c ∈ (nameBytes l).drop bufferSize, c = cr
  value : ∀ c ∈ (valueBytes l).drop bufferSize, c = cr

structure Fits (request : List UInt8) : Prop where
  count : (headerLines request).length ≤ headerCapacity
  lines : ∀ l ∈ headerLines request, LineFits l

theorem lineFits_iff_all (l : List UInt8) :
    LineFits l ↔ ((nameBytes l).drop bufferSize).all (· == cr) ∧ ((valueBytes l).drop bufferSize).all (· == cr) := by
  simp only [List.all_eq_true, beq_iff_eq]
  exact ⟨fun h => ⟨h.name, h.value⟩, fun h => ⟨h.1, h.2⟩⟩

theorem fits_iff (request : List UInt8) :
    Fits request ↔ (headerLines request).length ≤ headerCapacity ∧ ∀ l ∈ headerLines request, LineFits l :=
  ⟨fun h => ⟨h.count, h.lines⟩, fun h => ⟨h.1, h.2⟩⟩

instance (l : List UInt8) : Decidable (LineFits l) := decidable_of_iff _ (lineFits_iff_all l).symm

instance (request : List UInt8) : Decidable (Fits request) := decidable_of_iff _ (fits_iff request).symm

theorem storesDefined_stores (cur : Option ℕ) (log : List Access) :
    StoresDefined cur (stores log) ↔ StoresDefined cur log := by
  induction log generalizing cur with
  | nil => rfl
  | cons a log ih =>
    cases a with
    | load i => simpa [StoresDefined] using ih cur
    | entry k => simpa [StoresDefined] using fun _ => ih (some k)
    | store target offset => simpa [StoresDefined] using fun _ _ _ _ _ => ih cur

theorem storesDefined_cellStores (k : ℕ) (field : Field) (n : ℕ) (cells : List (Option UInt8))
    (log : List Access) :
    StoresDefined (some k) (cellStores ⟨k, field⟩ n cells ++ log) ↔
      (∀ o ∈ cells.drop (bufferSize - n), o = none) ∧ StoresDefined (some k) log := by
  induction cells generalizing n with
  | nil => simp [cellStores]
  | cons o cells ih =>
    have hdrop : n < bufferSize → (o :: cells).drop (bufferSize - n) = cells.drop (bufferSize - (n + 1)) := by
      intro h
      rw [show bufferSize - n = (bufferSize - (n + 1)) + 1 by omega, List.drop_succ_cons]
    have hall : bufferSize ≤ n → ∀ l : List (Option UInt8), l.drop (bufferSize - n) = l := by
      intro h l
      rw [Nat.sub_eq_zero_of_le h, List.drop_zero]
    rcases Nat.lt_or_ge n bufferSize with hn | hn
    · cases o with
      | none => rw [cellStores, ih, hdrop hn]
      | some c =>
        rw [cellStores, List.cons_append, StoresDefined, ih, hdrop hn]
        simp only [Option.some.injEq, exists_eq_left', true_and]
        refine ⟨fun h => h.2.2, fun h => ⟨by omega, by omega, h⟩⟩
    · rw [hall hn]
      have ih' := ih (n + 1)
      rw [Nat.sub_eq_zero_of_le (show bufferSize ≤ n + 1 by omega), List.drop_zero] at ih'
      cases o with
      | none =>
        rw [cellStores, ih']
        simp
      | some c =>
        rw [cellStores, List.cons_append, StoresDefined]
        simp only [List.mem_cons, forall_eq_or_imp, reduceCtorEq, false_and, iff_false]
        rintro ⟨-, -, h, -⟩
        omega

theorem cells_none_iff (v : List UInt8) (n : ℕ) :
    (∀ o ∈ (v.map cell).drop n, o = none) ↔ ∀ c ∈ v.drop n, c = cr := by
  rw [← List.map_drop, List.forall_mem_map]
  refine forall₂_congr fun c _ => ?_
  unfold cell
  split <;> simp_all

theorem storesDefined_allStores (k : ℕ) (cur : Option ℕ) (ls : List (List UInt8)) (hk : k ≤ headerCapacity) :
    StoresDefined cur (allStores k ls) ↔ k + ls.length ≤ headerCapacity ∧ ∀ l ∈ ls, LineFits l := by
  induction ls generalizing k cur with
  | nil => simpa [allStores, StoresDefined] using hk
  | cons l ls ih =>
    rw [allStores, List.cons_append, StoresDefined, lineStores, List.append_assoc,
      storesDefined_cellStores, storesDefined_cellStores, Nat.sub_zero, cells_none_iff, cells_none_iff,
      List.length_cons, List.forall_mem_cons]
    constructor
    · rintro ⟨hlt, hname, hvalue, h⟩
      obtain ⟨hcount, hls⟩ := (ih (k + 1) (some k) (by omega)).mp h
      exact ⟨by omega, ⟨hname, hvalue⟩, hls⟩
    · rintro ⟨hcount, hl, hls⟩
      exact ⟨by omega, hl.name, hl.value, (ih (k + 1) (some k) (by omega)).mpr ⟨by omega, hls⟩⟩

theorem storesDefined_scan_iff (request : List UInt8) :
    StoresDefined none (scan request).2 ↔ Fits request := by
  rw [← storesDefined_stores, (scan_spec request).2.2.2,
    storesDefined_allStores 0 none _ (Nat.zero_le _), Nat.zero_add, fits_iff]

end CeeServe.HeaderScan
