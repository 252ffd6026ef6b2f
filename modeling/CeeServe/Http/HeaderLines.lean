import CeeServe.Http.HeaderScan
import Mathlib.Tactic.Common

/-! # What the header scanner computes, line by line

The request is cut at its LFs. The lines after the first one, up to a line that is
CR alone and is itself ended by an LF, are the header lines. The single pass of
the scanner leaves one entry for each of them: the bytes before the first colon
and the bytes after it and one optional space, each in its own buffer at its own
distance, with a gap wherever a CR was passed over.
-/
namespace CeeServe.HeaderScan
open CString Store

def nameBytes (l : List UInt8) : List UInt8 := l.takeWhile (fun c => c != colon)

def dropSpace : List UInt8 → List UInt8
  | [] => []
  | c :: r => if c = sp then r else c :: r

/-- The bytes of a line after its first colon and one optional space. -/
def valueBytes (l : List UInt8) : List UInt8 := dropSpace (l.dropWhile (fun c => c != colon)).tail

/-- What a byte leaves in its cell: a CR is passed over. -/
def cell (c : UInt8) : Option UInt8 := if c = cr then none else some c

def lineHeader (l : List UInt8) : RawHeader :=
  ⟨ofCells ((nameBytes l).map cell), ofCells ((valueBytes l).map cell)⟩

/-- The lines before the first one that is CR alone and not the last, and whether
there is such a line. -/
def untilBlank : List (List UInt8) → List (List UInt8) × Bool
  | [] => ([], false)
  | [l] => ([l], false)
  | l :: l' :: ls =>
    if l = [cr] then ([], true) else (l :: (untilBlank (l' :: ls)).1, (untilBlank (l' :: ls)).2)

def linesAfterFirst (request : List UInt8) : List (List UInt8) := ((cstr request).splitOn lf).tail

def headerLines (request : List UInt8) : List (List UInt8) := (untilBlank (linesAfterFirst request)).1

def hasBlankLine (request : List UInt8) : Bool := (untilBlank (linesAfterFirst request)).2

def Access.isStore : Access → Bool
  | .load _ => false
  | .entry _ => true
  | .store _ _ => true

def stores (log : List Access) : List Access := log.filter Access.isStore

/-- One store for each cell that is not passed over. -/
def cellStores (p : Pointer) : ℕ → List (Option UInt8) → List Access
  | _, [] => []
  | n, none :: cells => cellStores p (n + 1) cells
  | n, some _ :: cells => .store (some p) n :: cellStores p (n + 1) cells

def lineStores (k : ℕ) (l : List UInt8) : List Access :=
  cellStores ⟨k, .key⟩ 0 ((nameBytes l).map cell) ++ cellStores ⟨k, .value⟩ 0 ((valueBytes l).map cell)

def allStores : ℕ → List (List UInt8) → List Access
  | _, [] => []
  | k, l :: ls => .entry k :: lineStores k l ++ allStores (k + 1) ls

@[simp] theorem stores_append (a b : List Access) : stores (a ++ b) = stores a ++ stores b :=
  List.filter_append ..

@[simp] theorem stores_cons_load (i : ℕ) (log : List Access) : stores (.load i :: log) = stores log := rfl
@[simp] theorem stores_cons_entry (k : ℕ) (log : List Access) :
    stores (.entry k :: log) = .entry k :: stores log := rfl
@[simp] theorem stores_cons_store (p : Option Pointer) (o : ℤ) (log : List Access) :
    stores (.store p o :: log) = .store p o :: stores log := rfl
@[simp] theorem stores_nil : stores [] = [] := rfl

@[simp] theorem stores_lookahead (i : ℕ) (rest : List UInt8) : stores (lookahead i rest) = [] := by
  unfold lookahead
  split <;> rfl

theorem emit_emit (a b : List Access) (r : Scan × List Access) : emit a (emit b r) = emit (a ++ b) r := by
  simp [emit]

def fieldOf (h : RawHeader) : Field → Block UInt8
  | .key => h.key
  | .value => h.value

def setField (h : RawHeader) (field : Field) (b : Block UInt8) : RawHeader :=
  match field with
  | .key => { h with key := b }
  | .value => { h with value := b }

theorem writeField_ofCells (h : RawHeader) (field : Field) (cells : List (Option UInt8)) (c : UInt8) :
    writeField (setField h field (ofCells cells)) field cells.length c =
      setField h field (ofCells (cells ++ [some c])) := by
  cases field <;> simp only [writeField, setField, update_ofCells]

theorem modify_last (pre : List RawHeader) (h : RawHeader) (f : RawHeader → RawHeader) :
    (pre ++ [h]).modify pre.length f = pre ++ [f h] := by
  rw [List.modify_eq_take_cons_drop (by simp)]
  simp

/-- Reading the bytes of one field fills the buffer `currPointer` points to. -/
theorem loop_field (v rest : List UInt8) (pre : List RawHeader) (h : RawHeader) (field : Field)
    (cells : List (Option UInt8)) (s : Scan)
    (hv : ∀ c ∈ v, c ≠ nul ∧ c ≠ lf ∧ (c = colon → s.firstColon = true)) (hline : s.currline ≠ 0)
    (hp : s.currPointer = some ⟨pre.length, field⟩) (hi : s.i = s.lastOffset + cells.length)
    (har : s.ar = pre ++ [setField h field (ofCells cells)]) :
    ∃ log, stores log = cellStores ⟨pre.length, field⟩ cells.length (v.map cell) ∧
      parseHeadersOnlyLoop (v ++ rest) s = emit log (parseHeadersOnlyLoop rest
        { s with i := s.i + v.length, ar := pre ++ [setField h field (ofCells (cells ++ v.map cell))] }) := by
  induction v generalizing s cells with
  | nil =>
    refine ⟨[], rfl, ?_⟩
    simp [emit, ← har]
  | cons c v ih =>
    obtain ⟨hn, hl, hcol⟩ := hv c List.mem_cons_self
    have hv' : ∀ d ∈ v, d ≠ nul ∧ d ≠ lf ∧ (d = colon → s.firstColon = true) :=
      fun d hd => hv d (List.mem_cons_of_mem c hd)
    rw [List.cons_append]
    by_cases hcr : c = cr
    · obtain ⟨log, hlog, heq⟩ := ih (cells ++ [none]) s.skip hv' hline hp
        (by simp [Scan.skip, hi, Nat.add_assoc]) (by simp [Scan.skip, har])
      refine ⟨.load s.i :: log, ?_, ?_⟩
      · simpa [cell, hcr, cellStores] using hlog
      · rw [loop_skip hn hl (Or.inl hcr), heq, emit_emit]
        simp [Scan.skip, cell, hcr, Nat.add_assoc, Nat.add_comm 1]
    · have har' : (s.put c).ar = pre ++ [setField h field (ofCells (cells ++ [some c]))] := by
        have hoff : s.i - s.lastOffset = cells.length := by omega
        simp only [Scan.put, hp, har, hoff, modify_last, writeField_ofCells]
      obtain ⟨log, hlog, heq⟩ := ih (cells ++ [some c]) (s.put c) hv' hline hp
        (by simp [Scan.put, hi, Nat.add_assoc]) har'
      have hoff : (s.i : ℤ) - s.lastOffset = (cells.length : ℤ) := by omega
      refine ⟨.load s.i :: .store s.currPointer ((s.i : ℤ) - s.lastOffset) :: log, ?_, ?_⟩
      · simpa [cell, hcr, cellStores, hp, hoff] using hlog
      · rw [loop_put hn hl hcr hline hcol, heq, emit_emit]
        simp [Scan.put, cell, hcr, Nat.add_assoc, Nat.add_comm 1]

def EndsLine (rest : List UInt8) : Prop := ∀ c ∈ rest.head?, c = nul ∨ c = lf

theorem EndsLine.not_sp {rest : List UInt8} (h : EndsLine rest) : rest.head? ≠ some sp := by
  intro hsp
  rcases h sp hsp with h | h
  · exact absurd h (by decide)
  · exact absurd h (by decide)

theorem assign_length (ar : List RawHeader) (h : RawHeader) : assign ar ar.length h = ar ++ [h] := by
  simp [assign]

theorem name_split (l : List UInt8) :
    (nameBytes l = l ∧ valueBytes l = [] ∧ colon ∉ l) ∨
      ∃ r, l = nameBytes l ++ colon :: r ∧ valueBytes l = dropSpace r := by
  have hsplit := List.takeWhile_append_dropWhile (p := fun c => c != colon) (l := l)
  cases hd : l.dropWhile (fun c => c != colon) with
  | nil =>
    left
    rw [hd, List.append_nil] at hsplit
    refine ⟨hsplit, by simp [valueBytes, hd, dropSpace], ?_⟩
    intro hmem
    have := List.dropWhile_eq_nil_iff.mp hd colon hmem
    simp at this
  | cons c r =>
    right
    have hc : c = colon := by
      have hh := List.head?_dropWhile_not (fun c => c != colon) l
      rw [hd] at hh
      simpa using hh
    rw [hd, hc] at hsplit
    exact ⟨r, hsplit.symm, by simp [valueBytes, hd]⟩

theorem colon_not_mem_nameBytes (l : List UInt8) : colon ∉ nameBytes l := by
  intro h
  have := List.mem_takeWhile_imp h
  simp at this

theorem dropSpace_sublist (r : List UInt8) : (dropSpace r).Sublist r := by
  cases r with
  | nil => exact List.Sublist.refl _
  | cons c r =>
    rw [dropSpace]
    split
    · exact List.sublist_cons_self c r
    · exact List.Sublist.refl _

theorem valueBytes_sublist (l : List UInt8) : (valueBytes l).Sublist l :=
  (dropSpace_sublist _).trans ((List.tail_sublist _).trans (List.dropWhile_sublist _))

theorem loop_first_colon {s : Scan} (hc : s.currline ≠ 0) (hf : s.firstColon = false) (r : List UInt8)
    {rest : List UInt8} (hrest : EndsLine rest) :
    ∃ log k, stores log = [] ∧ (r.length + 1 = k + (dropSpace r).length) ∧
      parseHeadersOnlyLoop (colon :: r ++ rest) s =
        emit log (parseHeadersOnlyLoop (dropSpace r ++ rest) (s.startValue k)) := by
  cases r with
  | nil =>
    refine ⟨[.load s.i, .load (s.i + 1)], 1, rfl, rfl, ?_⟩
    exact loop_colon hc hf hrest.not_sp
  | cons d r =>
    by_cases hd : d = sp
    · subst hd
      refine ⟨[.load s.i, .load (s.i + 1)], 2, rfl, by simp [dropSpace]; omega, ?_⟩
      simpa [dropSpace] using loop_colon_sp hc hf (r ++ rest)
    · refine ⟨[.load s.i, .load (s.i + 1)], 1, rfl, by simp [dropSpace, hd]; omega, ?_⟩
      have hsp : (d :: r ++ rest).head? ≠ some sp := by simpa using hd
      simpa [dropSpace, hd] using loop_colon hc hf hsp

/-- A line without LF and NUL leaves its entry behind those already there. -/
theorem loop_header_line (l rest : List UInt8) (s : Scan) (hl : ∀ c ∈ l, c ≠ nul ∧ c ≠ lf)
    (hrest : EndsLine rest) (hlen : s.ar.length = s.currline) :
    ∃ log s', stores log = lineStores s.currline l ∧
      parseHeadersOnlyLoop (l ++ rest) s.startLine = emit log (parseHeadersOnlyLoop rest s') ∧
      s'.currline = s.currline + 1 ∧ s'.encounteredblank = s.encounteredblank ∧
      s'.ar = s.ar ++ [lineHeader l] := by
  have har : s.startLine.ar = s.ar ++ [setField ⟨fresh, fresh⟩ .key (ofCells [])] := by
    simp only [Scan.startLine, ← hlen, assign_length, setField, ofCells_nil]
  have hname : ∀ c ∈ nameBytes l, c ≠ nul ∧ c ≠ lf ∧ (c = colon → s.startLine.firstColon = true) := by
    intro c hc
    have hcl := hl c ((List.takeWhile_sublist _).subset hc)
    exact ⟨hcl.1, hcl.2, fun h => absurd (h ▸ hc) (colon_not_mem_nameBytes l)⟩
  have hkey := fun rest' => loop_field (nameBytes l) rest' s.ar ⟨fresh, fresh⟩ .key [] s.startLine hname
    (Nat.succ_ne_zero _) (by simp only [Scan.startLine, hlen]) (by simp [Scan.startLine]) har
  rcases name_split l with ⟨hn, hval, -⟩ | ⟨r, hlr, hval⟩
  · obtain ⟨log, hlog, heq⟩ := hkey rest
    rw [hn] at heq
    refine ⟨log, _, ?_, heq, rfl, rfl, ?_⟩
    · rw [hlog, lineStores, hval, hlen]
      simp [cellStores]
    · simp only [List.nil_append, lineHeader, hval, hn, setField, List.map_nil, ofCells_nil]
  · obtain ⟨log₁, hlog₁, heq₁⟩ := hkey (colon :: r ++ rest)
    generalize hs₁ : ({ s.startLine with
      i := s.startLine.i + (nameBytes l).length
      ar := s.ar ++ [setField ⟨fresh, fresh⟩ .key (ofCells ([] ++ (nameBytes l).map cell))] } : Scan) = s₁ at heq₁
    have hline₁ : s₁.currline = s.currline + 1 := by rw [← hs₁]; rfl
    have har₁ : s₁.ar = s.ar ++ [⟨ofCells ((nameBytes l).map cell), fresh⟩] := by rw [← hs₁]; rfl
    obtain ⟨log₂, k, hlog₂, -, heq₂⟩ := loop_first_colon (s := s₁) (by omega) (by rw [← hs₁]; rfl) r hrest
    have hr : ∀ c ∈ dropSpace r, c ≠ nul ∧ c ≠ lf ∧ (c = colon → (s₁.startValue k).firstColon = true) := by
      intro c hc
      have hcr : c ∈ r := (dropSpace_sublist r).subset hc
      have hcl := hl c (by rw [hlr]; exact List.mem_append_right _ (List.mem_cons_of_mem colon hcr))
      exact ⟨hcl.1, hcl.2, fun _ => rfl⟩
    obtain ⟨log₃, hlog₃, heq₃⟩ := loop_field (dropSpace r) rest s.ar ⟨ofCells ((nameBytes l).map cell), fresh⟩
      .value [] (s₁.startValue k) hr (by simp [Scan.startValue, hline₁])
      (by simp [Scan.startValue, hline₁, hlen]) (by simp [Scan.startValue])
      (by simp [Scan.startValue, har₁, setField])
    generalize hs₃ : ({ s₁.startValue k with
      i := (s₁.startValue k).i + (dropSpace r).length
      ar := s.ar ++ [setField ⟨ofCells ((nameBytes l).map cell), fresh⟩ .value
        (ofCells ([] ++ (dropSpace r).map cell))] } : Scan) = s₃ at heq₃
    refine ⟨log₁ ++ log₂ ++ log₃, s₃, ?_, ?_, ?_, ?_, ?_⟩
    · rw [stores_append, stores_append, hlog₁, hlog₂, hlog₃, lineStores, hval, hlen]
      simp
    · conv_lhs => rw [hlr]
      rw [List.append_assoc, heq₁, heq₂, heq₃, emit_emit, emit_emit, List.append_assoc]
    · rw [← hs₃]
      exact hline₁
    · rw [← hs₃, ← hs₁]
      rfl
    · rw [← hs₃]
      simp only [List.nil_append, setField, lineHeader, hval]

theorem take_two_iff_blank {l : List UInt8} (hl : lf ∉ l) (rest : List UInt8) :
    (l ++ lf :: rest).take 2 = [cr, lf] ↔ l = [cr] := by
  rcases l with _ | ⟨a, _ | ⟨b, l⟩⟩
  · cases rest <;> simp [show lf ≠ cr by decide]
  · simp
  · have hb : b ≠ lf := fun h => hl (h ▸ List.mem_cons_of_mem a List.mem_cons_self)
    simp [hb]

theorem take_two_of_end {l tail : List UInt8} (hl : lf ∉ l) (ht : ∀ c ∈ tail.head?, c = nul) :
    (l ++ tail).take 2 ≠ [cr, lf] := by
  have hcr : nul ≠ cr := by decide
  have hlf : nul ≠ lf := by decide
  rcases l with _ | ⟨a, _ | ⟨b, l⟩⟩
  · cases tail with
    | nil => simp
    | cons t tail => simp [ht t rfl, hcr]
  · cases tail with
    | nil => simp
    | cons t tail => simp [ht t rfl, hlf]
  · have hb : b ≠ lf := fun h => hl (h ▸ List.mem_cons_of_mem a List.mem_cons_self)
    simp [hb]

theorem loop_end {tail : List UInt8} (ht : ∀ c ∈ tail.head?, c = nul) (s : Scan) :
    parseHeadersOnlyLoop tail s = (s, [.load s.i]) := by
  cases tail with
  | nil => exact loop_nil s
  | cons c tail => rw [show c = nul from ht c rfl, loop_nul]

/-- From the LF that ends a line on, the scanner reads header lines up to the
blank one. The induction is on the lines still to come. -/
theorem loop_lines (segs : List (List UInt8)) (hne : segs ≠ []) (hsegs : ∀ l ∈ segs, nul ∉ l ∧ lf ∉ l)
    (tail : List UInt8) (htail : ∀ c ∈ tail.head?, c = nul) (s : Scan)
    (hlen : s.ar.length = s.currline) (hblank : s.encounteredblank = false) :
    ∃ log s', parseHeadersOnlyLoop (lf :: ([lf].intercalate segs ++ tail)) s = (s', log) ∧
      stores log = allStores s.currline (untilBlank segs).1 ∧
      s'.ar = s.ar ++ (untilBlank segs).1.map lineHeader ∧
      s'.encounteredblank = (untilBlank segs).2 ∧
      s'.currline = s.currline + (untilBlank segs).1.length + (if (untilBlank segs).2 then 1 else 0) := by
  have hclean : ∀ l ∈ segs, ∀ c ∈ l, c ≠ nul ∧ c ≠ lf := fun l hl c hc =>
    ⟨fun h => (hsegs l hl).1 (h ▸ hc), fun h => (hsegs l hl).2 (h ▸ hc)⟩
  match segs with
  | [] => exact absurd rfl hne
  | [l] =>
    have hl := hsegs l List.mem_cons_self
    rw [List.intercalate_singleton, loop_line (take_two_of_end hl.2 htail)]
    obtain ⟨log, s', hlog, heq, hline, hbl, har⟩ := loop_header_line l tail s
      (hclean l List.mem_cons_self) (fun c hc => Or.inl (htail c hc)) hlen
    rw [heq, loop_end htail]
    refine ⟨_, s', rfl, ?_, ?_, ?_, ?_⟩
    · simp [untilBlank, allStores, hlog]
    · simpa [untilBlank] using har
    · rw [hbl, hblank]
      rfl
    · simp [untilBlank, hline]
  | l :: l' :: ls =>
    have hl := hsegs l List.mem_cons_self
    rw [List.intercalate_cons_cons, List.append_assoc, List.append_assoc, List.singleton_append]
    by_cases hcr : l = [cr]
    · rw [loop_blank ((take_two_iff_blank hl.2 _).mpr hcr)]
      refine ⟨_, _, rfl, ?_, ?_, ?_, ?_⟩
      · simp [untilBlank, hcr, allStores]
      · simp [untilBlank, hcr]
      · simp [untilBlank, hcr]
      · simp [untilBlank, hcr]
    · rw [loop_line (mt (take_two_iff_blank hl.2 _).mp hcr)]
      obtain ⟨log, s', hlog, heq, hline, hbl, har⟩ := loop_header_line l
        (lf :: ([lf].intercalate (l' :: ls) ++ tail)) s
        (hclean l List.mem_cons_self) (fun c hc => Or.inr (Option.some.inj hc).symm) hlen
      obtain ⟨log', s'', heq', hlog', har', hbl', hline'⟩ := loop_lines (l' :: ls) (List.cons_ne_nil _ _)
        (fun m hm => hsegs m (List.mem_cons_of_mem l hm)) tail htail s'
        (by rw [har, hline, List.length_append, hlen]; rfl) (hbl.trans hblank)
      rw [heq, heq']
      refine ⟨_, s'', rfl, ?_, ?_, ?_, ?_⟩
      · simp [untilBlank, hcr, allStores, hlog, hlog', hline]
      · simp [untilBlank, hcr, har', har]
      · simpa [untilBlank, hcr] using hbl'
      · simp only [untilBlank, if_neg hcr, List.length_cons]
        omega

theorem loop_first_line (l rest : List UInt8) (s : Scan) (hl : ∀ c ∈ l, c ≠ nul ∧ c ≠ lf)
    (hline : s.currline = 0) :
    ∃ log, stores log = [] ∧ parseHeadersOnlyLoop (l ++ rest) s =
      emit log (parseHeadersOnlyLoop rest { s with i := s.i + l.length }) := by
  induction l generalizing s with
  | nil => exact ⟨[], rfl, rfl⟩
  | cons c l ih =>
    obtain ⟨hn, hlf⟩ := hl c List.mem_cons_self
    obtain ⟨log, hlog, heq⟩ := ih s.skip (fun d hd => hl d (List.mem_cons_of_mem c hd)) hline
    refine ⟨.load s.i :: log, by simpa using hlog, ?_⟩
    rw [List.cons_append, loop_skip hn hlf (Or.inr hline), heq, emit_emit]
    simp [Scan.skip, Nat.add_assoc, Nat.add_comm 1]

theorem mem_splitOn_clean {t l : List UInt8} (hl : l ∈ t.splitOn lf) : lf ∉ l ∧ ∀ c ∈ l, c ∈ t := by
  induction t generalizing l with
  | nil =>
    rw [List.splitOn_nil, List.mem_singleton] at hl
    simp [hl]
  | cons c t ih =>
    rw [List.splitOn_cons_eq_if_modifyHead] at hl
    by_cases hc : c = lf
    · rw [if_pos (by simpa using hc)] at hl
      rcases List.mem_cons.mp hl with rfl | hl
      · simp
      · exact ⟨(ih hl).1, fun d hd => List.mem_cons_of_mem c ((ih hl).2 d hd)⟩
    · rw [if_neg (by simpa using hc)] at hl
      cases ht : t.splitOn lf with
      | nil => exact absurd ht (List.splitOn_ne_nil lf t)
      | cons m ms =>
        rw [ht, List.modifyHead_cons] at hl
        rcases List.mem_cons.mp hl with rfl | hl
        · have hm := ih (l := m) (by rw [ht]; exact List.mem_cons_self)
          refine ⟨fun h => ?_, fun d hd => ?_⟩
          · rcases List.mem_cons.mp h with h | h
            · exact hc h.symm
            · exact hm.1 h
          · rcases List.mem_cons.mp hd with rfl | hd
            · exact List.mem_cons_self
            · exact List.mem_cons_of_mem c (hm.2 d hd)
        · have hm := ih (l := l) (by rw [ht]; exact List.mem_cons_of_mem m hl)
          exact ⟨hm.1, fun d hd => List.mem_cons_of_mem c (hm.2 d hd)⟩

theorem mem_untilBlank {segs : List (List UInt8)} {l : List UInt8} (hl : l ∈ (untilBlank segs).1) : l ∈ segs := by
  induction segs with
  | nil => simp [untilBlank] at hl
  | cons s segs ih =>
    cases segs with
    | nil => simpa [untilBlank] using hl
    | cons s' segs =>
      rw [untilBlank] at hl
      split at hl
      · simp at hl
      · rcases List.mem_cons.mp hl with rfl | hl
        · exact List.mem_cons_self
        · exact List.mem_cons_of_mem s (ih hl)

theorem headerLines_clean {request l : List UInt8} (hl : l ∈ headerLines request) : nul ∉ l ∧ lf ∉ l := by
  obtain ⟨hlf, hmem⟩ := mem_splitOn_clean (List.mem_of_mem_tail (mem_untilBlank hl))
  exact ⟨fun hn => nul_not_mem_cstr request (hmem nul hn), hlf⟩

/-- The single pass computes the line-by-line meaning of the request. -/
theorem scan_spec (request : List UInt8) :
    (scan request).1.ar = (headerLines request).map lineHeader ∧
      (scan request).1.encounteredblank = hasBlankLine request ∧
      (scan request).1.currline = (headerLines request).length + (if hasBlankLine request then 1 else 0) ∧
      stores (scan request).2 = allStores 0 (headerLines request) := by
  obtain ⟨tail, htail, hreq⟩ : ∃ tail, (∀ c ∈ tail.head?, c = nul) ∧ request = cstr request ++ tail := by
    rcases cstr_cases request with h | ⟨b, h⟩
    · exact ⟨[], by simp, by simpa using h⟩
    · exact ⟨nul :: b, by simp, h⟩
  have hmem : ∀ l ∈ (cstr request).splitOn lf, nul ∉ l ∧ lf ∉ l := fun l hl =>
    ⟨fun h => nul_not_mem_cstr request ((mem_splitOn_clean hl).2 nul h), (mem_splitOn_clean hl).1⟩
  have hjoin : [lf].intercalate ((cstr request).splitOn lf) = cstr request := List.intercalate_splitOn lf
  cases hs : (cstr request).splitOn lf with
  | nil => exact absurd hs (List.splitOn_ne_nil lf _)
  | cons first segs =>
    rw [hs] at hmem hjoin
    have hfirst : ∀ c ∈ first, c ≠ nul ∧ c ≠ lf := fun c hc =>
      ⟨fun h => (hmem first List.mem_cons_self).1 (h ▸ hc), fun h => (hmem first List.mem_cons_self).2 (h ▸ hc)⟩
    have hlines : linesAfterFirst request = segs := by rw [linesAfterFirst, hs, List.tail_cons]
    rw [headerLines, hasBlankLine, hlines]
    cases segs with
    | nil =>
      obtain ⟨log, hlog, heq⟩ := loop_first_line first tail Scan.init hfirst rfl
      rw [List.intercalate_singleton] at hjoin
      rw [scan, hreq, ← hjoin, heq, loop_end htail]
      simp [untilBlank, Scan.init, allStores, hlog]
    | cons l ls =>
      rw [List.intercalate_cons_cons] at hjoin
      have hreq' : request = first ++ (lf :: ([lf].intercalate (l :: ls) ++ tail)) := by
        rw [hreq, ← hjoin]
        simp
      obtain ⟨log, hlog, heq⟩ := loop_first_line first (lf :: ([lf].intercalate (l :: ls) ++ tail))
        Scan.init hfirst rfl
      obtain ⟨log', s', heq', hlog', har', hbl', hline'⟩ := loop_lines (l :: ls) (List.cons_ne_nil _ _)
        (fun m hm => hmem m (List.mem_cons_of_mem first hm)) tail htail
        { Scan.init with i := Scan.init.i + first.length } rfl rfl
      rw [scan, hreq', heq, heq']
      refine ⟨by simpa [Scan.init] using har', hbl', by simpa [Scan.init] using hline', ?_⟩
      rw [emit_snd, stores_append, hlog, hlog']
      rfl

end CeeServe.HeaderScan
