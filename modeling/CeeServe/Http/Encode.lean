import CeeServe.Http.Parse
import CeeServe.Http.StoreBounds
import Mathlib.Data.List.Forall2

/-! # Well-formed heads and what the parser makes of them

A head is a request line and header lines, each ended by CR LF, and a blank line.
Whatever follows a head in memory, the parser reads its words and lines and nothing
else. Encoding a method, path, version and header list as a head and parsing it
gives them back.
-/
namespace CeeServe.Parse
open CString Search HeaderScan RequestLine Store

def headBytes (line : List UInt8) (ls : List (List UInt8)) : List UInt8 :=
  line ++ crlf ++ ls.flatMap (fun l => l ++ crlf) ++ crlf

def Plain (c : UInt8) : Prop := c ≠ cr ∧ c ≠ lf ∧ c ≠ nul

instance (c : UInt8) : Decidable (Plain c) := inferInstanceAs (Decidable (_ ∧ _))

theorem plain_not_mem {l : List UInt8} (h : ∀ c ∈ l, Plain c) : cr ∉ l ∧ lf ∉ l ∧ nul ∉ l :=
  ⟨fun hm => (h _ hm).1 rfl, fun hm => (h _ hm).2.1 rfl, fun hm => (h _ hm).2.2 rfl⟩

theorem plain_of_word {c : UInt8} (h : isspace c = false ∧ c ≠ nul) : Plain c := by
  refine ⟨?_, ?_, h.2⟩
  · rintro rfl
    exact absurd h.1 (by decide)
  · rintro rfl
    exact absurd h.1 (by decide)

theorem nul_not_mem_headBytes {line : List UInt8} {ls : List (List UInt8)} (hline : nul ∉ line)
    (hls : ∀ l ∈ ls, nul ∉ l) : nul ∉ headBytes line ls := by
  have hcrlf : nul ∉ crlf := by decide
  intro h
  simp only [headBytes, List.mem_append, List.mem_flatMap] at h
  rcases h with ((h | h) | ⟨l, hl, h | h⟩) | h
  · exact hline h
  · exact hcrlf h
  · exact hls l hl h
  · exact hcrlf h
  · exact hcrlf h

theorem splitOn_line {l : List UInt8} (hl : lf ∉ l) (s : List UInt8) :
    (l ++ crlf ++ s).splitOn lf = (l ++ [cr]) :: s.splitOn lf := by
  have hlcr : lf ∉ l ++ [cr] := by
    intro h
    rcases List.mem_append.mp h with h | h
    · exact hl h
    · exact absurd h (by decide)
  have := List.splitOn_append_cons_self_of_not_mem hlcr s
  simpa [crlf] using this

theorem splitOn_lines {ls : List (List UInt8)} (hls : ∀ l ∈ ls, lf ∉ l) (s : List UInt8) :
    (ls.flatMap (fun l => l ++ crlf) ++ crlf ++ s).splitOn lf =
      ls.map (fun l => l ++ [cr]) ++ [cr] :: s.splitOn lf := by
  induction ls with
  | nil => simpa using splitOn_line (l := []) (by simp) s
  | cons l ls ih =>
    have hl := hls l List.mem_cons_self
    have hih := ih (fun m hm => hls m (List.mem_cons_of_mem l hm))
    rw [List.flatMap_cons, List.append_assoc, List.append_assoc, splitOn_line hl, ← List.append_assoc, hih]
    rfl

theorem untilBlank_lines {ls : List (List UInt8)} (hls : ∀ l ∈ ls, l ≠ []) {rest : List (List UInt8)}
    (hrest : rest ≠ []) :
    untilBlank (ls.map (fun l => l ++ [cr]) ++ [cr] :: rest) = (ls.map (fun l => l ++ [cr]), true) := by
  induction ls with
  | nil =>
    cases rest with
    | nil => exact absurd rfl hrest
    | cons r rest => simp [untilBlank]
  | cons l ls ih =>
    have hne : l ++ [cr] ≠ [cr] := by
      intro h
      exact hls l List.mem_cons_self (List.append_left_eq_self.mp h)
    have hih := ih (fun m hm => hls m (List.mem_cons_of_mem l hm))
    cases hs : ls.map (fun l => l ++ [cr]) ++ [cr] :: rest with
    | nil => simp at hs
    | cons s ss =>
      rw [List.map_cons, List.cons_append, hs, untilBlank, if_neg hne, ← hs, hih]

theorem headerLines_head {line : List UInt8} {ls : List (List UInt8)} (hline : ∀ c ∈ line, Plain c)
    (hls : ∀ l ∈ ls, l ≠ [] ∧ ∀ c ∈ l, Plain c) (rest : List UInt8) :
    headerLines (headBytes line ls ++ rest) = ls.map (fun l => l ++ [cr]) ∧
      hasBlankLine (headBytes line ls ++ rest) = true := by
  have hnul := nul_not_mem_headBytes (plain_not_mem hline).2.2 (fun l hl => (plain_not_mem (hls l hl).2).2.2)
  have hsplit : linesAfterFirst (headBytes line ls ++ rest) =
      ls.map (fun l => l ++ [cr]) ++ [cr] :: (cstr rest).splitOn lf := by
    rw [linesAfterFirst, cstr_append hnul, headBytes]
    have hassoc : line ++ crlf ++ ls.flatMap (fun l => l ++ crlf) ++ crlf ++ cstr rest =
        line ++ crlf ++ (ls.flatMap (fun l => l ++ crlf) ++ crlf ++ cstr rest) := by
      simp only [List.append_assoc]
    rw [hassoc, splitOn_line (plain_not_mem hline).2.1,
      splitOn_lines (fun l hl => (plain_not_mem (hls l hl).2).2.1), List.tail_cons]
  rw [headerLines, hasBlankLine, hsplit,
    untilBlank_lines (fun l hl => (hls l hl).1) (List.splitOn_ne_nil lf _)]
  exact ⟨rfl, rfl⟩

theorem occursAt_blankLine_line {l : List UInt8} (hl : lf ∉ l) {s : List UInt8} {j : ℕ}
    (h : OccursAt blankLine (l ++ lf :: s) j) :
    (j = l.length ∧ [cr, lf] <+: s) ∨ ∃ k, j = l.length + 1 + k ∧ OccursAt blankLine s k := by
  induction l generalizing j with
  | nil =>
    cases j with
    | zero =>
      have hp := occursAt_zero.mp h
      exact Or.inl ⟨rfl, (List.cons_prefix_cons.mp hp).2⟩
    | succ k => exact Or.inr ⟨k, by simp [Nat.add_comm], occursAt_cons_succ.mp h⟩
  | cons c l ih =>
    cases j with
    | zero =>
      have hp := List.cons_prefix_cons.mp (occursAt_zero.mp h)
      exact absurd (hp.1 ▸ List.mem_cons_self) hl
    | succ j =>
      rcases ih (fun hm => hl (List.mem_cons_of_mem c hm)) (occursAt_cons_succ.mp h) with ⟨hj, hs⟩ | ⟨k, hj, hk⟩
      · exact Or.inl ⟨by rw [hj, List.length_cons], hs⟩
      · exact Or.inr ⟨k, by rw [hj, List.length_cons]; omega, hk⟩

theorem occursAt_blankLine_lines {l : List UInt8} (hl : lf ∉ l) {ls : List (List UInt8)}
    (hls : ∀ l ∈ ls, l ≠ [] ∧ ∀ c ∈ l, Plain c) {j : ℕ} (h : OccursAt blankLine (headBytes l ls) j) :
    j + 3 = (headBytes l ls).length := by
  have hcr : ∀ {m : List UInt8}, lf ∉ m → lf ∉ m ++ [cr] := by
    intro m hm hmem
    rcases List.mem_append.mp hmem with hmem | hmem
    · exact hm hmem
    · exact absurd hmem (by decide)
  induction ls generalizing l j with
  | nil =>
    have hshape : headBytes l [] = (l ++ [cr]) ++ lf :: crlf := by simp [headBytes, crlf]
    rw [hshape] at h ⊢
    rcases occursAt_blankLine_line (hcr hl) h with ⟨hj, -⟩ | ⟨k, -, hk⟩
    · simp [hj, crlf]
    · exact absurd (hk.le_length (by decide)) (by simp [crlf, blankLine])
  | cons m ls ih =>
    have hshape : headBytes l (m :: ls) = (l ++ [cr]) ++ lf :: headBytes m ls := by
      simp [headBytes, crlf]
    obtain ⟨hne, hplain⟩ := hls m List.mem_cons_self
    rw [hshape] at h ⊢
    rcases occursAt_blankLine_line (hcr hl) h with ⟨-, hs⟩ | ⟨k, hj, hk⟩
    · obtain ⟨c, m', rfl⟩ := List.exists_cons_of_ne_nil hne
      have hc : cr = c := (List.cons_prefix_cons.mp (by simpa [headBytes] using hs)).1
      exact absurd hc.symm (hplain c List.mem_cons_self).1
    · have hend := ih (plain_not_mem hplain).2.1 (fun l hl => hls l (List.mem_cons_of_mem m hl)) hk
      rw [List.length_append, List.length_cons, ← hend, hj]
      omega

theorem headBytes_length (line : List UInt8) (ls : List (List UInt8)) :
    4 ≤ (headBytes line ls).length ∧ line.length + 4 ≤ (headBytes line ls).length := by
  simp only [headBytes, List.length_append, show crlf.length = 2 from rfl]
  omega

theorem crlf_at_end (line : List UInt8) (ls : List (List UInt8)) :
    ∃ init, headBytes line ls = init ++ (crlf ++ crlf) := by
  rcases List.eq_nil_or_concat ls with rfl | ⟨ls, l, rfl⟩
  · exact ⟨line, by simp [headBytes]⟩
  · exact ⟨line ++ crlf ++ (ls.flatMap (fun l => l ++ crlf) ++ l), by simp [headBytes, List.concat_eq_append]⟩

/-- The first CR LF CR LF of a head is its end. -/
theorem crlf_head_iff {line : List UInt8} {ls : List (List UInt8)} (hline : ∀ c ∈ line, Plain c)
    (hls : ∀ l ∈ ls, l ≠ [] ∧ ∀ c ∈ l, Plain c) (j : ℕ) :
    OccursAt (crlf ++ crlf) (headBytes line ls) j ↔ j + 4 = (headBytes line ls).length := by
  constructor
  · intro h
    have := occursAt_blankLine_lines (plain_not_mem hline).2.1 hls (blankLine_of_crlf h)
    omega
  · intro h
    obtain ⟨init, hinit⟩ := crlf_at_end line ls
    have hj : j = init.length := by
      rw [hinit, List.length_append, show (crlf ++ crlf).length = 4 from rfl] at h
      omega
    rw [OccursAt, hinit, hj, List.drop_left]

theorem firstAt_crlf_head {line : List UInt8} {ls : List (List UInt8)} (hline : ∀ c ∈ line, Plain c)
    (hls : ∀ l ∈ ls, l ≠ [] ∧ ∀ c ∈ l, Plain c) (rest : List UInt8) :
    firstAt (crlf ++ crlf) (headBytes line ls ++ rest) = some ((headBytes line ls).length - 4) := by
  have hlen := (headBytes_length line ls).1
  apply firstAt_append _ (by decide)
  rw [firstAt_eq_some_iff]
  refine ⟨(crlf_head_iff hline hls _).mpr (by omega), fun j hj h => ?_⟩
  have := (crlf_head_iff hline hls j).mp h
  omega

theorem dropSpace_append_cr (r : List UInt8) : dropSpace (r ++ [cr]) = dropSpace r ++ [cr] := by
  cases r with
  | nil => simp [dropSpace, show cr ≠ sp by decide]
  | cons c r => by_cases hc : c = sp <;> simp [dropSpace, hc]

theorem nameBytes_append {n : List UInt8} (hn : colon ∉ n) (r : List UInt8) :
    nameBytes (n ++ colon :: r) = n := by
  rw [nameBytes, List.takeWhile_append_of_pos]
  · simp
  · intro c hc
    have hne : c ≠ colon := fun h => hn (h ▸ hc)
    simpa using hne

theorem valueBytes_append {n : List UInt8} (hn : colon ∉ n) (r : List UInt8) :
    valueBytes (n ++ colon :: r) = dropSpace r := by
  rw [valueBytes, List.dropWhile_append_of_pos]
  · simp
  · intro c hc
    have hne : c ≠ colon := fun h => hn (h ▸ hc)
    simpa using hne

theorem nameBytes_of_not_mem {l : List UInt8} (h : colon ∉ l) : nameBytes l = l ∧ valueBytes l = [] := by
  rcases name_split l with ⟨hn, hv, -⟩ | ⟨r, hlr, -⟩
  · exact ⟨hn, hv⟩
  · exact absurd (hlr ▸ List.mem_append_right _ List.mem_cons_self) h

/-- A CR at the end of a line is the end of its value, or of its name when there is no
colon. -/
theorem split_append_cr (l : List UInt8) :
    (colon ∉ l ∧ nameBytes l = l ∧ valueBytes l = [] ∧ nameBytes (l ++ [cr]) = l ++ [cr] ∧ valueBytes (l ++ [cr]) = []) ∨
      (colon ∈ l ∧ nameBytes (l ++ [cr]) = nameBytes l ∧ valueBytes (l ++ [cr]) = valueBytes l ++ [cr]) := by
  rcases name_split l with ⟨hn, hv, hnot⟩ | ⟨r, hlr, hv⟩
  · have hnot' : colon ∉ l ++ [cr] := by
      intro h
      rcases List.mem_append.mp h with h | h
      · exact hnot h
      · exact absurd h (by decide)
    exact Or.inl ⟨hnot, hn, hv, nameBytes_of_not_mem hnot'⟩
  · have hsplit : l ++ [cr] = nameBytes l ++ colon :: (r ++ [cr]) := by
      conv_lhs => rw [hlr]
      simp
    have hcol := colon_not_mem_nameBytes l
    refine Or.inr ⟨hlr ▸ List.mem_append_right _ List.mem_cons_self, ?_, ?_⟩
    · rw [hsplit, nameBytes_append hcol]
    · rw [hsplit, valueBytes_append hcol, dropSpace_append_cr, hv]

theorem lineHeader_append_cr (l : List UInt8) : lineHeader (l ++ [cr]) = lineHeader l := by
  have hcell : cell cr = none := rfl
  rcases split_append_cr l with ⟨-, hn, hv, hn', hv'⟩ | ⟨-, hn', hv'⟩
  · simp only [lineHeader, hn, hv, hn', hv', List.map_append, List.map_cons, List.map_nil, hcell,
      ofCells_append_none]
  · simp only [lineHeader, hn', hv', List.map_append, List.map_cons, List.map_nil, hcell, ofCells_append_none]

theorem drop_append_cr {v : List UInt8} (h : v.length ≤ bufferSize) : ∀ c ∈ (v ++ [cr]).drop bufferSize, c = cr := by
  intro c hc
  rw [List.drop_append, List.drop_of_length_le h, List.nil_append] at hc
  exact List.mem_singleton.mp (List.mem_of_mem_drop hc)

theorem lineFits_append_cr {l : List UInt8} (hname : (nameBytes l).length ≤ bufferSize)
    (hvalue : (valueBytes l).length ≤ bufferSize) : LineFits (l ++ [cr]) := by
  rcases split_append_cr l with ⟨-, hn, -, hn', hv'⟩ | ⟨-, hn', hv'⟩
  · rw [hn] at hname
    exact ⟨by rw [hn']; exact drop_append_cr hname, by rw [hv']; simp⟩
  · refine ⟨?_, by rw [hv']; exact drop_append_cr hvalue⟩
    rw [hn', List.drop_of_length_le hname]
    simp

theorem map_cell_of_plain {v : List UInt8} (h : cr ∉ v) : v.map cell = v.map some := by
  apply List.map_congr_left
  intro c hc
  have hne : c ≠ cr := fun he => h (he ▸ hc)
  simp [cell, hne]

theorem firstLine_head {line : List UInt8} (hline : ∀ c ∈ line, Plain c) (ls : List (List UInt8))
    (hls : ∀ l ∈ ls, nul ∉ l) (rest : List UInt8) : firstLine (headBytes line ls ++ rest) = line := by
  obtain ⟨-, hlf, hnul⟩ := plain_not_mem hline
  have hsplit : cstr (headBytes line ls ++ rest) =
      (line ++ [cr]) ++ lf :: (ls.flatMap (fun l => l ++ crlf) ++ crlf ++ cstr rest) := by
    rw [cstr_append (nul_not_mem_headBytes hnul hls)]
    simp [headBytes, crlf]
  have htake : (cstr (headBytes line ls ++ rest)).takeWhile (fun c => c != lf) = line ++ [cr] := by
    rw [hsplit, List.takeWhile_append_of_pos]
    · simp
    · intro c hc
      have hne : c ≠ lf := by
        rintro rfl
        rcases List.mem_append.mp hc with hc | hc
        · exact hlf hc
        · exact absurd hc (by decide)
      simpa using hne
  rw [firstLine, htake, stripCR, List.getLast?_concat, if_pos rfl, List.dropLast_concat]

theorem tokens_head {line : List UInt8} (hline : ∀ c ∈ line, Plain c) (ls : List (List UInt8))
    (hls : ∀ l ∈ ls, nul ∉ l) (rest : List UInt8) :
    ∃ ys, tokens (headBytes line ls ++ rest) = Words.cutWords requestWidths (Words.words isspace line ++ ys) := by
  obtain ⟨ys, hys⟩ := words_firstLine (headBytes line ls ++ rest)
  rw [firstLine_head hline ls hls] at hys
  exact ⟨ys, by rw [tokens, hys]⟩

/-- The parser accepts a head, whatever follows it, and stores its tokens and lines. -/
theorem parseHeaders_head_tokens {line m p v : List UInt8} {ls : List (List UInt8)}
    (hline : ∀ c ∈ line, Plain c)
    (htokens : ∀ ys, Words.cutWords requestWidths (Words.words isspace line ++ ys) = [m, p, v])
    (hls : ∀ l ∈ ls, l ≠ [] ∧ ∀ c ∈ l, Plain c) (rest : List UInt8) (req : HttpRequest) :
    parseHeaders (headBytes line ls ++ rest) req =
      (0, { req with
        method := some m
        path := some p
        version := some v
        headerCount := ls.length
        headers := ls.map lineHeader }) := by
  obtain ⟨hlines, hblank⟩ := headerLines_head hline hls rest
  obtain ⟨ys, hys⟩ := tokens_head hline ls (fun l hl => (plain_not_mem (hls l hl).2).2.2) rest
  rw [parseHeaders_ok (hys.trans (htokens ys)) hblank, parsedRequest, hlines, List.length_map, List.map_map]
  congr 2
  apply List.map_congr_left
  intro l _
  exact lineHeader_append_cr l

theorem parseHeaders_head {line m p v : List UInt8} {ls : List (List UInt8)}
    (hline : ∀ c ∈ line, Plain c) (hwords : Words.words isspace line = [m, p, v])
    (hm : m.length ≤ 49) (hp : p.length ≤ 2047) (hv : v.length ≤ 49)
    (hls : ∀ l ∈ ls, l ≠ [] ∧ ∀ c ∈ l, Plain c) (rest : List UInt8) (req : HttpRequest) :
    parseHeaders (headBytes line ls ++ rest) req =
      (0, { req with
        method := some m
        path := some p
        version := some v
        headerCount := ls.length
        headers := ls.map lineHeader }) := by
  refine parseHeaders_head_tokens hline (fun ys => ?_) hls rest req
  rw [hwords]
  exact Words.cutWords_of_fits (.cons hm (.cons hp (.cons hv .nil))) ys

/-- The entry of a line without CR is read back whole. -/
theorem stored_lineHeader {l : List UInt8} (hl : cr ∉ l) (hname : (nameBytes l).length ≤ bufferSize)
    (hvalue : (valueBytes l).length ≤ bufferSize) :
    (lineHeader l).stored = ⟨nameBytes l, valueBytes l⟩ := by
  have hn : cr ∉ nameBytes l := fun h => hl ((List.takeWhile_sublist _).subset h)
  have hv : cr ∉ valueBytes l := fun h => hl ((valueBytes_sublist l).subset h)
  simp only [RawHeader.stored, lineHeader, map_cell_of_plain hn, map_cell_of_plain hv]
  rw [written_ofCells_some hname, written_ofCells_some hvalue]

/-- A word that `%Ns` reads whole. -/
structure Token (width : ℕ) where
  bytes : List UInt8
  ne_nil : bytes ≠ []
  clean : ∀ c ∈ bytes, isspace c = false ∧ c ≠ nul
  length_le : bytes.length ≤ width

/-- A header that can be written on one line; a space follows its colon when
`spaced`, which it has to when the value begins with a space itself. -/
structure HeaderText where
  key : List UInt8
  value : List UInt8
  spaced : Bool
  key_clean : ∀ c ∈ key, c ≠ colon ∧ Plain c
  value_clean : ∀ c ∈ value, Plain c
  key_le : key.length ≤ 255
  value_le : value.length ≤ 255
  spaced_of_space : value.head? = some sp → spaced = true

def HeaderText.line (h : HeaderText) : List UInt8 :=
  h.key ++ colon :: (if h.spaced then sp :: h.value else h.value)

def encode (method : Token 49) (path : Token 2047) (version : Token 49) (hs : List HeaderText) : List UInt8 :=
  headBytes (method.bytes ++ sp :: path.bytes ++ sp :: version.bytes) (hs.map HeaderText.line)

theorem Token.plain {n : ℕ} (t : Token n) {c : UInt8} (hc : c ∈ t.bytes) : Plain c :=
  plain_of_word (t.clean c hc)

theorem words_requestLine {a b c : ℕ} (m : Token a) (p : Token b) (v : Token c) :
    Words.words isspace (m.bytes ++ sp :: p.bytes ++ sp :: v.bytes) = [m.bytes, p.bytes, v.bytes] := by
  have hsp : isspace sp = true := by decide
  rw [List.append_assoc, List.cons_append,
    Words.words_run_cons m.ne_nil (fun c hc => (m.clean c hc).1) hsp,
    Words.words_run_cons p.ne_nil (fun c hc => (p.clean c hc).1) hsp,
    Words.words_run v.ne_nil (fun c hc => (v.clean c hc).1)]

theorem requestLine_plain {a b c : ℕ} (m : Token a) (p : Token b) (v : Token c) :
    ∀ c ∈ m.bytes ++ sp :: p.bytes ++ sp :: v.bytes, Plain c := by
  have hsp : Plain sp := ⟨by decide, by decide, by decide⟩
  intro d hd
  simp only [List.mem_append, List.mem_cons] at hd
  rcases hd with (hd | rfl | hd) | rfl | hd
  · exact m.plain hd
  · exact hsp
  · exact p.plain hd
  · exact hsp
  · exact v.plain hd

/-- The line reads back as this header. -/
structure Writes (l : List UInt8) (h : HttpHeader (List UInt8)) : Prop where
  ne_nil : l ≠ []
  plain : ∀ c ∈ l, Plain c
  name : nameBytes l = h.key
  value : valueBytes l = h.value

/-- A space behind the colon is optional, unless the value begins with one. -/
theorem writes_field {key value : List UInt8} (gap : List UInt8) (hkey : ∀ c ∈ key, c ≠ colon ∧ Plain c)
    (hvalue : ∀ c ∈ value, Plain c) (hgap : gap = [sp] ∨ gap = [] ∧ value.head? ≠ some sp) :
    Writes (key ++ colon :: (gap ++ value)) ⟨key, value⟩ := by
  have hcol : Plain colon := ⟨by decide, by decide, by decide⟩
  have hsp : Plain sp := ⟨by decide, by decide, by decide⟩
  have hnot : colon ∉ key := fun hm => (hkey _ hm).1 rfl
  refine ⟨by simp, fun c hc => ?_, nameBytes_append hnot _, ?_⟩
  · rcases List.mem_append.mp hc with hc | hc
    · exact (hkey c hc).2
    rcases List.mem_cons.mp hc with rfl | hc
    · exact hcol
    rcases List.mem_append.mp hc with hc | hc
    · rcases hgap with rfl | ⟨rfl, -⟩
      · exact List.mem_singleton.mp hc ▸ hsp
      · cases hc
    · exact hvalue c hc
  · rw [valueBytes_append hnot]
    rcases hgap with rfl | ⟨rfl, hfirst⟩
    · simp [dropSpace]
    · cases value with
      | nil => rfl
      | cons c value =>
        have hc : c ≠ sp := fun heq => hfirst (by rw [heq]; rfl)
        simp [dropSpace, hc]

/-- A header that the buffers of the parser hold. -/
def Fitting (h : HttpHeader (List UInt8)) : Prop := h.key.length ≤ bufferSize ∧ h.value.length ≤ bufferSize

theorem Writes.stored {l : List UInt8} {h : HttpHeader (List UInt8)} (hl : Writes l h) (hfit : Fitting h) :
    (lineHeader l).stored = h := by
  have hname : (nameBytes l).length ≤ bufferSize := hl.name ▸ hfit.1
  have hvalue : (valueBytes l).length ≤ bufferSize := hl.value ▸ hfit.2
  rw [stored_lineHeader (plain_not_mem hl.plain).1 hname hvalue, hl.name, hl.value]

theorem lines_ok {ls : List (List UInt8)} {hs : List (HttpHeader (List UInt8))} (h : List.Forall₂ Writes ls hs) :
    ∀ l ∈ ls, l ≠ [] ∧ ∀ c ∈ l, Plain c := by
  induction h with
  | nil => simp
  | cons hl _ ih => exact List.forall_mem_cons.mpr ⟨⟨hl.ne_nil, hl.plain⟩, ih⟩

theorem stored_lines {ls : List (List UInt8)} {hs : List (HttpHeader (List UInt8))} (h : List.Forall₂ Writes ls hs)
    (hfit : ∀ x ∈ hs, Fitting x) : (ls.map lineHeader).map RawHeader.stored = hs := by
  induction h with
  | nil => rfl
  | cons hl _ ih =>
    obtain ⟨hx, hxs⟩ := List.forall_mem_cons.mp hfit
    rw [List.map_cons, List.map_cons, hl.stored hx, ih hxs]

theorem fits_head {line : List UInt8} {ls : List (List UInt8)} (hline : ∀ c ∈ line, Plain c)
    (hls : ∀ l ∈ ls, l ≠ [] ∧ ∀ c ∈ l, Plain c) (hcount : ls.length ≤ headerCapacity)
    (hfit : ∀ l ∈ ls, LineFits (l ++ [cr])) : Fits (headBytes line ls) := by
  have hlines := (headerLines_head hline hls []).1
  rw [List.append_nil] at hlines
  constructor
  · rw [hlines, List.length_map]
    exact hcount
  · intro l hl
    rw [hlines] at hl
    obtain ⟨m, hm, rfl⟩ := List.mem_map.mp hl
    exact hfit m hm

theorem fits_lines {line : List UInt8} {ls : List (List UInt8)} {hs : List (HttpHeader (List UInt8))}
    (hline : ∀ c ∈ line, Plain c) (h : List.Forall₂ Writes ls hs) (hfit : ∀ x ∈ hs, Fitting x)
    (hcount : hs.length ≤ headerCapacity) : Fits (headBytes line ls) := by
  apply fits_head hline (lines_ok h)
  · rw [h.length_eq]
    exact hcount
  · clear hcount
    induction h with
    | nil => simp
    | cons hl _ ih =>
      obtain ⟨hx, hxs⟩ := List.forall_mem_cons.mp hfit
      exact List.forall_mem_cons.mpr ⟨lineFits_append_cr (hl.name ▸ hx.1) (hl.value ▸ hx.2), ih hxs⟩

theorem HeaderText.writes (h : HeaderText) : Writes h.line ⟨h.key, h.value⟩ := by
  rw [HeaderText.line]
  cases hs : h.spaced with
  | true => exact writes_field [sp] h.key_clean h.value_clean (Or.inl rfl)
  | false =>
    refine writes_field [] h.key_clean h.value_clean (Or.inr ⟨rfl, fun hfirst => ?_⟩)
    rw [h.spaced_of_space hfirst] at hs
    cases hs

theorem HeaderText.fitting (h : HeaderText) : Fitting ⟨h.key, h.value⟩ :=
  ⟨h.key_le.trans (Nat.le_succ 255), h.value_le.trans (Nat.le_succ 255)⟩

theorem writes_lines (hs : List HeaderText) :
    List.Forall₂ Writes (hs.map HeaderText.line) (hs.map fun h => ⟨h.key, h.value⟩) := by
  rw [List.forall₂_map_left_iff, List.forall₂_map_right_iff]
  exact List.forall₂_same.mpr fun h _ => h.writes

theorem fitting_headers (hs : List HeaderText) :
    ∀ x ∈ (hs.map fun h => ⟨h.key, h.value⟩ : List (HttpHeader (List UInt8))), Fitting x := by
  intro x hx
  obtain ⟨h, -, rfl⟩ := List.mem_map.mp hx
  exact h.fitting

/-- Decoding undoes encoding: every header list of at most 1000 headers that fit
their lines comes back, with all stores of the scanner inside its buffers. -/
theorem parseHeaders_encode (m : Token 49) (p : Token 2047) (v : Token 49) (hs : List HeaderText)
    (hcount : hs.length ≤ 1000) (req : HttpRequest) :
    (parseHeaders (encode m p v hs) req).1 = 0 ∧
      (parseHeaders (encode m p v hs) req).2.method = some m.bytes ∧
      (parseHeaders (encode m p v hs) req).2.path = some p.bytes ∧
      (parseHeaders (encode m p v hs) req).2.version = some v.bytes ∧
      (parseHeaders (encode m p v hs) req).2.headerCount = hs.length ∧
      (parseHeaders (encode m p v hs) req).2.headers.map RawHeader.stored =
        hs.map (fun h => ⟨h.key, h.value⟩) ∧
      StoresDefined none (scan (encode m p v hs)).2 := by
  have hwrites := writes_lines hs
  have hfit := fitting_headers hs
  have hparse := parseHeaders_head (requestLine_plain m p v) (words_requestLine m p v) m.length_le
    p.length_le v.length_le (lines_ok hwrites) [] req
  rw [List.append_nil] at hparse
  rw [encode, hparse]
  refine ⟨rfl, rfl, rfl, rfl, by simp, stored_lines hwrites hfit, (storesDefined_scan_iff _).mpr ?_⟩
  refine fits_lines (requestLine_plain m p v) hwrites hfit ?_
  rw [List.length_map]
  exact hcount

/-- Three headers, the last one with an empty value. -/
theorem parseHeaders_encode_three :
    let m : Token 49 := ⟨ascii "GET", by decide +kernel, by decide +kernel, by decide +kernel⟩
    let p : Token 2047 := ⟨ascii "/a", by decide +kernel, by decide +kernel, by decide +kernel⟩
    let v : Token 49 := ⟨ascii "HTTP/1.1", by decide +kernel, by decide +kernel, by decide +kernel⟩
    let host : HeaderText := ⟨ascii "Host", ascii " a:b", true, by decide +kernel, by decide +kernel, by decide +kernel,
      by decide +kernel, by decide +kernel⟩
    let range : HeaderText := ⟨ascii "Range", ascii "0-1", false, by decide +kernel, by decide +kernel, by decide +kernel,
      by decide +kernel, by decide +kernel⟩
    let accept : HeaderText := ⟨ascii "Accept", [], true, by decide +kernel, List.forall_mem_nil _, by decide +kernel,
      Nat.zero_le 255, fun _ => rfl⟩
    (parseHeaders (encode m p v [host, range, accept]) HttpRequest.zero).1 = 0 ∧
      (parseHeaders (encode m p v [host, range, accept]) HttpRequest.zero).2.headerCount = 3 ∧
      (parseHeaders (encode m p v [host, range, accept]) HttpRequest.zero).2.headers.map RawHeader.stored =
        [⟨ascii "Host", ascii " a:b"⟩, ⟨ascii "Range", ascii "0-1"⟩, ⟨ascii "Accept", []⟩] := by
  intro m p v host range accept
  obtain ⟨hret, -, -, -, hcount, hheaders, -⟩ :=
    parseHeaders_encode m p v [host, range, accept] (by decide) HttpRequest.zero
  exact ⟨hret, hcount, hheaders⟩

end CeeServe.Parse
