import CeeServe.Http.Message
import CeeServe.Lib.Search

/-! # The header scanner of http.c

`parse_headers_only` reads the request once, left to right. The loop below keeps
its locals in `Scan` and the unread part of the request as a list, whose end is
the terminating NUL. Beside the final locals it returns its memory accesses in
program order, so that the extent of its reads and stores can be stated.
-/
namespace CeeServe.HeaderScan
open CString Store Search

inductive Field
  | key
  | value
deriving DecidableEq, Repr

/-- Where `currPointer` points: the key or the value buffer of one entry. -/
structure Pointer where
  entry : ℕ
  field : Field
deriving DecidableEq, Repr

inductive Access
  /-- `request[i]` is read. -/
  | load (i : ℕ)
  /-- `ar[k].key` and `ar[k].value` are assigned. -/
  | entry (k : ℕ)
  /-- `currPointer[offset] = c`, through NULL when there is no pointer. -/
  | store (target : Option Pointer) (offset : ℤ)
deriving DecidableEq, Repr

structure Scan where
  i : ℕ
  currline : ℕ
  lastOffset : ℕ
  firstColon : Bool
  currPointer : Option Pointer
  encounteredblank : Bool
  ar : List RawHeader

/-- The locals before the loop; `ar` lists the entries assigned so far, all
others being zero. -/
def Scan.init : Scan := ⟨0, 0, 0, false, none, false, []⟩

def assign (ar : List RawHeader) (k : ℕ) (h : RawHeader) : List RawHeader :=
  ar.take k ++ h :: ar.drop (k + 1)

def writeField (h : RawHeader) (field : Field) (n : ℕ) (c : UInt8) : RawHeader :=
  match field with
  | .key => { h with key := Function.update h.key n (some c) }
  | .value => { h with value := Function.update h.value n (some c) }

/-- A line ended and the next one is not blank: allocate its buffers. -/
def Scan.startLine (s : Scan) : Scan :=
  { s with
    currline := s.currline + 1
    i := s.i + 1
    ar := assign s.ar s.currline ⟨fresh, fresh⟩
    currPointer := some ⟨s.currline, .key⟩
    lastOffset := s.i + 1
    firstColon := false }

/-- The first colon of a line, with the bytes skipped including it. -/
def Scan.startValue (s : Scan) (skipped : ℕ) : Scan :=
  { s with
    firstColon := true
    currPointer := some ⟨s.currline - 1, .value⟩
    i := s.i + skipped
    lastOffset := s.i + skipped }

/-- `currPointer[i-lastOffset] = c; i++`. -/
def Scan.put (s : Scan) (c : UInt8) : Scan :=
  { s with
    i := s.i + 1
    ar := match s.currPointer with
      | none => s.ar
      | some p => s.ar.modify p.entry (fun h => writeField h p.field (s.i - s.lastOffset) c) }

def Scan.skip (s : Scan) : Scan := { s with i := s.i + 1 }

def emit (as : List Access) (r : Scan × List Access) : Scan × List Access := (r.1, as ++ r.2)

/-- The reads of `request[i] == '\r' && request[i+1] == '\n'`. -/
def lookahead (i : ℕ) (rest : List UInt8) : List Access :=
  if rest.head? = some cr then [.load i, .load (i + 1)] else [.load i]

/-- The `while` loop of `parse_headers_only`; the first argument is `request[i..]`. -/
def parseHeadersOnlyLoop : List UInt8 → Scan → Scan × List Access
  | [], s => (s, [.load s.i])
  | c :: rest, s =>
    if c = nul then (s, [.load s.i])
    else if c = lf then
      if rest.take 2 = [cr, lf] then -- blank line, headers end
        ({ s with currline := s.currline + 1, i := s.i + 1, encounteredblank := true },
          .load s.i :: lookahead (s.i + 1) rest)
      else
        emit (.load s.i :: lookahead (s.i + 1) rest ++ [.entry s.currline])
          (parseHeadersOnlyLoop rest s.startLine)
    else if c = cr ∨ s.currline = 0 then
      emit [.load s.i] (parseHeadersOnlyLoop rest s.skip)
    else if c = colon ∧ s.firstColon = false then
      emit [.load s.i, .load (s.i + 1)]
        (match rest with
          | [] => parseHeadersOnlyLoop [] (s.startValue 1)
          | d :: rest' =>
            if d = sp then parseHeadersOnlyLoop rest' (s.startValue 2) -- skip first whitespace if exists
            else parseHeadersOnlyLoop (d :: rest') (s.startValue 1))
    else
      emit [.load s.i, .store s.currPointer ((s.i : ℤ) - s.lastOffset)]
        (parseHeadersOnlyLoop rest (s.put c))

def scan (request : List UInt8) : Scan × List Access := parseHeadersOnlyLoop request Scan.init

/-- `parse_headers_only`: the fields of the request are set only when the blank
line was found; `realloc` keeps the first `header_count` entries. -/
def parseHeadersOnly (request : List UInt8) (req : HttpRequest) : ℤ × HttpRequest :=
  let s := (scan request).1
  if s.encounteredblank = false then (-1, req)
  else
    (0, { req with
      headerCount := (s.currline : ℤ) - 1
      headers := s.ar.take (s.currline - 1) })

@[simp] theorem emit_fst (as : List Access) (r : Scan × List Access) : (emit as r).1 = r.1 := rfl
@[simp] theorem emit_snd (as : List Access) (r : Scan × List Access) : (emit as r).2 = as ++ r.2 := rfl

theorem loop_nil (s : Scan) : parseHeadersOnlyLoop [] s = (s, [.load s.i]) := rfl

theorem loop_nul (rest : List UInt8) (s : Scan) :
    parseHeadersOnlyLoop (nul :: rest) s = (s, [.load s.i]) := by
  cases rest <;> rfl

theorem loop_blank {rest : List UInt8} (h : rest.take 2 = [cr, lf]) (s : Scan) :
    parseHeadersOnlyLoop (lf :: rest) s =
      ({ s with currline := s.currline + 1, i := s.i + 1, encounteredblank := true },
        .load s.i :: lookahead (s.i + 1) rest) := by
  cases rest <;> rw [parseHeadersOnlyLoop, if_neg (by decide), if_pos rfl, if_pos h]

theorem loop_line {rest : List UInt8} (h : rest.take 2 ≠ [cr, lf]) (s : Scan) :
    parseHeadersOnlyLoop (lf :: rest) s =
      emit (.load s.i :: lookahead (s.i + 1) rest ++ [.entry s.currline])
        (parseHeadersOnlyLoop rest s.startLine) := by
  have hn : lf ≠ nul := by decide
  cases rest <;> simp only [parseHeadersOnlyLoop, if_neg hn, if_neg h, if_true]

theorem loop_skip {c : UInt8} {s : Scan} (hn : c ≠ nul) (hl : c ≠ lf) (h : c = cr ∨ s.currline = 0)
    (rest : List UInt8) :
    parseHeadersOnlyLoop (c :: rest) s = emit [.load s.i] (parseHeadersOnlyLoop rest s.skip) := by
  cases rest <;> simp only [parseHeadersOnlyLoop, if_neg hn, if_neg hl, if_pos h]

theorem loop_colon_sp {s : Scan} (hc : s.currline ≠ 0) (hf : s.firstColon = false) (rest : List UInt8) :
    parseHeadersOnlyLoop (colon :: sp :: rest) s =
      emit [.load s.i, .load (s.i + 1)] (parseHeadersOnlyLoop rest (s.startValue 2)) := by
  rw [parseHeadersOnlyLoop, if_neg (by decide), if_neg (by decide),
    if_neg (not_or.mpr ⟨by decide, hc⟩), if_pos ⟨rfl, hf⟩, if_pos rfl]

theorem loop_colon {s : Scan} (hc : s.currline ≠ 0) (hf : s.firstColon = false) {rest : List UInt8}
    (hr : rest.head? ≠ some sp) :
    parseHeadersOnlyLoop (colon :: rest) s =
      emit [.load s.i, .load (s.i + 1)] (parseHeadersOnlyLoop rest (s.startValue 1)) := by
  have hn : colon ≠ nul := by decide
  have hl : colon ≠ lf := by decide
  have hskip : ¬ (colon = cr ∨ s.currline = 0) := not_or.mpr ⟨by decide, hc⟩
  cases rest with
  | nil => simp only [parseHeadersOnlyLoop, if_neg hn, if_neg hl, if_neg hskip, hf, and_self, if_true]
  | cons d rest =>
    have hd : d ≠ sp := fun h => hr (congrArg some h)
    simp only [parseHeadersOnlyLoop, if_neg hn, if_neg hl, if_neg hskip, hf, and_self, if_true, if_neg hd]

theorem loop_put {c : UInt8} {s : Scan} (hn : c ≠ nul) (hl : c ≠ lf) (hr : c ≠ cr) (hc : s.currline ≠ 0)
    (hf : c = colon → s.firstColon = true) (rest : List UInt8) :
    parseHeadersOnlyLoop (c :: rest) s =
      emit [.load s.i, .store s.currPointer ((s.i : ℤ) - s.lastOffset)]
        (parseHeadersOnlyLoop rest (s.put c)) := by
  have hnc : ¬ (c = colon ∧ s.firstColon = false) := by
    rintro ⟨h, h'⟩
    rw [hf h] at h'
    cases h'
  have hskip : ¬ (c = cr ∨ s.currline = 0) := not_or.mpr ⟨hr, hc⟩
  cases rest <;> simp only [parseHeadersOnlyLoop, if_neg hn, if_neg hl, if_neg hskip, if_neg hnc]

def blankLine : List UInt8 := [lf, cr, lf]

/-- A CR LF CR LF holds a blank line behind its first byte. -/
theorem blankLine_of_crlf {s : List UInt8} {i : ℕ} (h : OccursAt (crlf ++ crlf) s i) : OccursAt blankLine s (i + 1) := by
  rw [occursAt_iff_getElem] at h ⊢
  intro k hk
  have hk' : k < 3 := hk
  rw [show i + 1 + k = i + (k + 1) by omega, ← h (k + 1) (show k + 1 < 4 by omega)]
  rfl

theorem blank_prefix_iff (rest : List UInt8) :
    blankLine <+: lf :: cstr rest ↔ rest.take 2 = [cr, lf] := by
  have hcr : nul ≠ cr := by decide
  have hlf : nul ≠ lf := by decide
  rw [blankLine, List.cons_prefix_cons, List.prefix_iff_eq_take]
  rcases rest with _ | ⟨a, _ | ⟨b, rest⟩⟩
  · simp
  · by_cases ha : a = nul <;> simp [cstr, ha]
  · by_cases ha : a = nul
    · simp [cstr, ha, hcr]
    · by_cases hb : b = nul
      · simp [cstr, ha, hb, hlf]
      · simp [cstr, ha, hb, eq_comm (a := cr), eq_comm (a := lf)]

theorem firstAt_blank_here {rest : List UInt8} (hb : rest.take 2 = [cr, lf]) :
    firstAt blankLine (cstr (lf :: rest)) = some 0 := by
  have hcons : cstr (lf :: rest) = lf :: cstr rest := by simp [cstr, show lf ≠ nul by decide]
  rw [hcons, firstAt, if_pos ((blank_prefix_iff rest).mpr hb)]

theorem firstAt_blank_cons {c : UInt8} {rest : List UInt8} (hn : c ≠ nul)
    (hb : ¬ (c = lf ∧ rest.take 2 = [cr, lf])) :
    firstAt blankLine (cstr (c :: rest)) = (firstAt blankLine (cstr rest)).map (· + 1) := by
  have hcons : cstr (c :: rest) = c :: cstr rest := by simp [cstr, hn]
  have hpre : ¬ blankLine <+: c :: cstr rest := by
    intro h
    obtain rfl : lf = c := (List.cons_prefix_cons.mp h).1
    exact hb ⟨rfl, (blank_prefix_iff rest).mp h⟩
  rw [hcons, firstAt, if_neg hpre]

/-- The indices of `request` that a log reads. -/
def loads : List Access → List ℕ
  | [] => []
  | .load i :: log => i :: loads log
  | .entry _ :: log => loads log
  | .store _ _ :: log => loads log

/-- The bytes up to the end of the first blank line, or up to the NUL and with it. -/
def readExtent (request : List UInt8) : ℕ :=
  match firstAt blankLine (cstr request) with
  | some j => j + 3
  | none => (cstr request).length + 1

theorem loads_append (a b : List Access) : loads (a ++ b) = loads a ++ loads b := by
  induction a with
  | nil => rfl
  | cons e a ih => cases e <;> simp [loads, ih]

@[simp] theorem readExtent_nil : readExtent [] = 1 := by decide

@[simp] theorem readExtent_nul (rest : List UInt8) : readExtent (nul :: rest) = 1 := by
  simp [readExtent, firstAt, blankLine]

theorem readExtent_blank {rest : List UInt8} (hb : rest.take 2 = [cr, lf]) : readExtent (lf :: rest) = 3 := by
  rw [readExtent, firstAt_blank_here hb]

theorem readExtent_cons {c : UInt8} {rest : List UInt8} (hn : c ≠ nul)
    (hb : ¬ (c = lf ∧ rest.take 2 = [cr, lf])) : readExtent (c :: rest) = readExtent rest + 1 := by
  have hlen : (cstr (c :: rest)).length = (cstr rest).length + 1 := by simp [cstr, hn]
  rw [readExtent, readExtent, firstAt_blank_cons hn hb]
  cases firstAt blankLine (cstr rest) with
  | none => simp [hlen]
  | some j => rfl

theorem readExtent_pos (request : List UInt8) : 0 < readExtent request := by
  unfold readExtent
  split <;> omega

theorem loads_lookahead {i k : ℕ} {rest : List UInt8} (hk : k ∈ loads (lookahead i rest)) :
    k < i + readExtent rest := by
  have hpos := readExtent_pos rest
  cases rest with
  | nil =>
    have hki : k = i := by simpa [lookahead, loads] using hk
    omega
  | cons c rest =>
    by_cases hc : c = cr
    · subst hc
      have hext : readExtent (cr :: rest) = readExtent rest + 1 :=
        readExtent_cons (by decide) (fun h => absurd h.1 (by decide))
      have hpos' := readExtent_pos rest
      have hki : k = i ∨ k = i + 1 := by simpa [lookahead, loads] using hk
      omega
    · have hki : k = i := by simpa [lookahead, loads, hc] using hk
      omega

/-- An iteration that does not end the loop: it passes over one byte, and the space
behind a first colon, counts the line when the byte is an LF, and reads nothing
behind the extent. -/
theorem loop_advance {c : UInt8} {rest : List UInt8} (hn : c ≠ nul)
    (hb : ¬ (c = lf ∧ rest.take 2 = [cr, lf])) (s : Scan) :
    ∃ log gap rest' t, rest = gap ++ rest' ∧ (gap = [] ∨ gap = [sp]) ∧
      parseHeadersOnlyLoop (c :: rest) s = emit log (parseHeadersOnlyLoop rest' t) ∧
      t.i = s.i + (gap.length + 1) ∧ t.encounteredblank = s.encounteredblank ∧
      t.currline = s.currline + (if c = lf then 1 else 0) ∧
      ∀ k ∈ loads log, k < s.i + readExtent (c :: rest) := by
  have hext := readExtent_cons hn hb
  have hpos := readExtent_pos rest
  by_cases hl : c = lf
  · subst hl
    refine ⟨_, [], rest, s.startLine, rfl, Or.inl rfl, loop_line (fun h => hb ⟨rfl, h⟩) s, rfl, rfl, rfl, ?_⟩
    intro k hk
    rw [loads_append, List.mem_append] at hk
    rcases hk with hk | hk
    · rcases List.mem_cons.mp hk with rfl | hk
      · omega
      · have := loads_lookahead hk
        omega
    · cases hk
  by_cases hskip : c = cr ∨ s.currline = 0
  · refine ⟨_, [], rest, s.skip, rfl, Or.inl rfl, loop_skip hn hl hskip rest, rfl, rfl, by simp [hl, Scan.skip], ?_⟩
    intro k hk
    have hki : k = s.i := by simpa [loads] using hk
    omega
  obtain ⟨hcr, hline⟩ := not_or.mp hskip
  by_cases hcol : c = colon ∧ s.firstColon = false
  · obtain ⟨rfl, hf⟩ := hcol
    have hlog : ∀ k ∈ loads [.load s.i, .load (s.i + 1)], k < s.i + readExtent (colon :: rest) := by
      intro k hk
      have hki : k = s.i ∨ k = s.i + 1 := by simpa [loads] using hk
      omega
    by_cases hsp : rest.head? = some sp
    · obtain ⟨rest', rfl⟩ : ∃ rest', rest = sp :: rest' := by
        cases rest with
        | nil => cases hsp
        | cons d rest' => exact ⟨rest', by rw [Option.some.inj hsp]⟩
      exact ⟨_, [sp], rest', s.startValue 2, rfl, Or.inr rfl, loop_colon_sp hline hf rest', rfl, rfl, rfl, hlog⟩
    · exact ⟨_, [], rest, s.startValue 1, rfl, Or.inl rfl, loop_colon hline hf hsp, rfl, rfl, rfl, hlog⟩
  · have hf : c = colon → s.firstColon = true := by
      intro h
      simpa using fun h' => hcol ⟨h, h'⟩
    refine ⟨_, [], rest, s.put c, rfl, Or.inl rfl, loop_put hn hl hcr hline hf rest, rfl, rfl,
      by simp [hl, Scan.put], ?_⟩
    intro k hk
    have hki : k = s.i := by simpa [loads] using hk
    omega

theorem cstr_gap {c : UInt8} {gap : List UInt8} (hn : c ≠ nul) (hgap : gap = [] ∨ gap = [sp]) (rest : List UInt8) :
    cstr (c :: (gap ++ rest)) = c :: (gap ++ cstr rest) := by
  rcases hgap with rfl | rfl
  · simp [cstr, hn]
  · simp [cstr, hn, show sp ≠ nul by decide]

theorem count_take_gap (c : UInt8) {gap : List UInt8} (hgap : gap = [] ∨ gap = [sp]) (rest : List UInt8) (j : ℕ) :
    ((c :: (gap ++ rest)).take (j + (gap.length + 1))).count lf =
      (rest.take j).count lf + (if c = lf then 1 else 0) := by
  rcases hgap with rfl | rfl
  · simp [List.count_cons]
  · simp [List.count_cons, show sp ≠ lf by decide]

theorem firstAt_blank_gap {c : UInt8} {gap rest : List UInt8} (hn : c ≠ nul)
    (hb : ¬ (c = lf ∧ (gap ++ rest).take 2 = [cr, lf])) (hgap : gap = [] ∨ gap = [sp]) :
    firstAt blankLine (cstr (c :: (gap ++ rest))) =
      (firstAt blankLine (cstr rest)).map (· + (gap.length + 1)) := by
  rw [firstAt_blank_cons hn hb]
  rcases hgap with rfl | rfl
  · rfl
  · have hsp : firstAt blankLine (cstr (sp :: rest)) = (firstAt blankLine (cstr rest)).map (· + 1) :=
      firstAt_blank_cons (by decide) (fun h => absurd h.1 (by decide))
    rw [List.singleton_append, hsp, Option.map_map]
    rfl

theorem readExtent_gap {c : UInt8} {gap rest : List UInt8} (hn : c ≠ nul)
    (hb : ¬ (c = lf ∧ (gap ++ rest).take 2 = [cr, lf])) (hgap : gap = [] ∨ gap = [sp]) :
    readExtent (c :: (gap ++ rest)) = readExtent rest + (gap.length + 1) := by
  rw [readExtent, readExtent, firstAt_blank_gap hn hb hgap, cstr_gap hn hgap]
  cases firstAt blankLine (cstr rest) <;> simp <;> omega

/-- The loop finds the blank line exactly where LF CR LF first occurs in the
string, stops with `i` on its CR, and has counted the LFs up to there. It reads
nothing behind the extent. -/
theorem loop_stop (request : List UInt8) (s : Scan) :
    (match firstAt blankLine (cstr request) with
      | none => (parseHeadersOnlyLoop request s).1.encounteredblank = s.encounteredblank
      | some j => (parseHeadersOnlyLoop request s).1.encounteredblank = true ∧
          (parseHeadersOnlyLoop request s).1.i = s.i + j + 1 ∧
          (parseHeadersOnlyLoop request s).1.currline = s.currline + ((cstr request).take j).count lf + 1) ∧
      ∀ k ∈ loads (parseHeadersOnlyLoop request s).2, k < s.i + readExtent request := by
  induction hlen : request.length using Nat.strong_induction_on generalizing request s with
  | _ n ih =>
    cases request with
    | nil => simp [firstAt, blankLine, loop_nil, loads]
    | cons c rest =>
      by_cases hnul : c = nul
      · subst hnul
        simp [loop_nul, firstAt, blankLine, loads]
      by_cases hb : c = lf ∧ rest.take 2 = [cr, lf]
      · obtain ⟨rfl, hb⟩ := hb
        rw [firstAt_blank_here hb, loop_blank hb, readExtent_blank hb]
        refine ⟨⟨rfl, rfl, rfl⟩, fun k hk => ?_⟩
        have hhead : rest.head? = some cr := by
          cases rest with
          | nil => cases hb
          | cons d rest => simp only [List.take_succ_cons, List.cons.injEq] at hb; rw [hb.1]; rfl
        have hki : k = s.i ∨ k = s.i + 1 ∨ k = s.i + 2 := by simpa [loads, lookahead, hhead] using hk
        omega
      obtain ⟨log, gap, rest', t, rfl, hgap, heq, hi, hblank, hline, hloads⟩ := loop_advance hnul hb s
      have hfirst := firstAt_blank_gap hnul hb hgap
      have hext := readExtent_gap hnul hb hgap
      have hshort : rest'.length < n := by
        simp only [List.length_cons, List.length_append] at hlen
        omega
      obtain ⟨hstop, hreads⟩ := ih rest'.length hshort rest' t rfl
      rw [heq]
      constructor
      · rw [hfirst, cstr_gap hnul hgap]
        cases hf : firstAt blankLine (cstr rest') with
        | none =>
          simp only [hf] at hstop
          exact hstop.trans hblank
        | some j =>
          simp only [hf] at hstop
          obtain ⟨hfound, hend, hlines⟩ := hstop
          simp only [Option.map_some, count_take_gap c hgap]
          refine ⟨hfound, ?_, ?_⟩
          · rw [emit_fst, hend, hi]
            omega
          · rw [emit_fst, hlines, hline]
            omega
      · intro k hk
        rw [emit_snd, loads_append] at hk
        rcases List.mem_append.mp hk with hk | hk
        · exact hloads k hk
        · have := hreads k hk
          omega

theorem scan_stop (request : List UInt8) :
    match firstAt blankLine (cstr request) with
    | none => (scan request).1.encounteredblank = false
    | some j => (scan request).1.encounteredblank = true ∧ (scan request).1.i = j + 1 := by
  have h := (loop_stop request Scan.init).1
  cases hf : firstAt blankLine (cstr request) with
  | none =>
    simp only [hf] at h
    exact h
  | some j =>
    simp only [hf] at h
    exact ⟨h.1, h.2.1.trans (congrArg (· + 1) (Nat.zero_add j))⟩

theorem take_two_append {rest : List UInt8} (h : readExtent rest ≤ rest.length) (x : List UInt8) :
    ((rest ++ x).take 2 = [cr, lf] ↔ rest.take 2 = [cr, lf]) ∧ (rest ++ x).head? = rest.head? := by
  rcases rest with _ | ⟨a, _ | ⟨b, rest⟩⟩
  · simp at h
  · by_cases ha : a = nul
    · subst ha
      simp [show nul ≠ cr by decide]
    · rw [readExtent_cons ha (by simp)] at h
      simp at h
  · simp

/-- What follows the extent of the reads does not change the run of the loop. -/
theorem loop_append {request : List UInt8} (h : readExtent request ≤ request.length) (s : Scan) (x : List UInt8) :
    parseHeadersOnlyLoop (request ++ x) s = parseHeadersOnlyLoop request s := by
  fun_induction parseHeadersOnlyLoop request s with
  | case1 s => simp at h
  | case2 rest s => exact loop_nul (rest ++ x) s
  | case3 rest s hb hn =>
    have hlen : (rest.take 2).length = 2 := by rw [hb]; rfl
    rw [List.length_take] at hlen
    have hne : rest ≠ [] := by
      rintro rfl
      cases hb
    have hb' : (rest ++ x).take 2 = [cr, lf] := by rw [List.take_append_of_le_length (by omega), hb]
    rw [List.cons_append, loop_blank hb', lookahead, lookahead, List.head?_append_of_ne_nil _ hne]
  | case4 rest s hb hn ih =>
    rw [readExtent_cons hn (fun h => hb h.2), List.length_cons] at h
    have hrest := Nat.le_of_succ_le_succ h
    obtain ⟨htwo, hhead⟩ := take_two_append hrest x
    rw [List.cons_append, loop_line (fun h => hb (htwo.mp h)), ih hrest, lookahead, lookahead, hhead]
  | case5 c rest s hn hl hskip ih =>
    rw [readExtent_cons hn (fun h => hl h.1), List.length_cons] at h
    rw [List.cons_append, loop_skip hn hl hskip, ih (Nat.le_of_succ_le_succ h)]
  | case6 c rest s hn hl hskip hcolon ih =>
    obtain ⟨rfl, hf⟩ := hcolon
    obtain ⟨-, hline⟩ := not_or.mp hskip
    rw [readExtent_cons hn (fun h => hl h.1), List.length_cons] at h
    have hrest := Nat.le_of_succ_le_succ h
    cases rest with
    | nil => simp at hrest
    | cons d rest =>
      obtain ⟨ihsp, ihother⟩ := ih
      by_cases hd : d = sp
      · subst hd
        have hsp : readExtent (sp :: rest) = readExtent rest + 1 :=
          readExtent_cons (by decide) (fun h => absurd h.1 (by decide))
        rw [hsp, List.length_cons] at hrest
        rw [List.cons_append, List.cons_append, loop_colon_sp hline hf, ihsp (Nat.le_of_succ_le_succ hrest)]
        simp
      · have hhead : (d :: rest ++ x).head? ≠ some sp := by simpa using hd
        rw [List.cons_append, loop_colon hline hf hhead, ihother hrest]
        simp [hd]
  | case7 c rest s hn hl hskip hcolon ih =>
    obtain ⟨hr, hline⟩ := not_or.mp hskip
    have hf : c = colon → s.firstColon = true := by
      intro h
      simpa using fun h' => hcolon ⟨h, h'⟩
    rw [readExtent_cons hn (fun h => hl h.1), List.length_cons] at h
    rw [List.cons_append, loop_put hn hl hr hline hf, ih (Nat.le_of_succ_le_succ h)]

theorem parseHeadersOnly_append {request : List UInt8} (h : readExtent request ≤ request.length) (x : List UInt8)
    (req : HttpRequest) : parseHeadersOnly (request ++ x) req = parseHeadersOnly request req := by
  rw [parseHeadersOnly, parseHeadersOnly, scan, scan, loop_append h]

end CeeServe.HeaderScan
