import CeeServe.Http.Response

/-! # The text of a response, read by the parser

`resptostr` prints into a local array and moves a pointer behind each piece by `strlen`.
Its result is what the pieces one behind the other give as long as they and the last
terminator fit the array. A response is written in the form of a head, so the parser of
requests reads it: the status code stands where the path does.
-/
namespace CeeServe.Response
open CString Search Store HeaderScan RequestLine Parse Decimal

/-- `char tmp[4096]`. -/
def tmpSize : ℕ := 4096

/-- The array `tmp`, and `ptmp` as an index into it. -/
structure Tmp where
  cells : List UInt8
  ptmp : ℕ

/-- `sprintf` and `strcpy` to `ptmp`; undefined when the bytes and the terminator leave
the array. -/
def Tmp.print (t : Tmp) (s : List UInt8) : Option Tmp :=
  if t.ptmp + s.length < t.cells.length then
    some { t with cells := t.cells.take t.ptmp ++ overlay (s ++ [nul]) (t.cells.drop t.ptmp) }
  else none

/-- `ptmp += strlen(ptmp)`. -/
def Tmp.advance (t : Tmp) : Option Tmp := do
  let s ← cstr? (t.cells.drop t.ptmp)
  return { t with ptmp := t.ptmp + s.length }

/-- The loop over the headers. -/
def printHeaders : List (HttpHeader (List UInt8)) → Tmp → Option Tmp
  | [], t => some t
  | hdr :: headers, t => do
    let t ← t.print (headerLine hdr ++ crlf)
    let t ← t.advance
    printHeaders headers t

/-- `resptostr` on its array, whatever that held before; undefined when it writes behind
the end of it. -/
def resptostrTmp (tmp : List UInt8) (resp : HttpResponse) : Option (List UInt8) := do
  let t ← Tmp.print ⟨tmp, 0⟩ (statusLine resp ++ crlf)
  let t ← t.advance
  let t ← printHeaders (resp.headers.take resp.headerCount.toNat) t
  let t ← t.print crlf -- End of headers
  cstr? t.cells -- strdup(tmp)

/-- The array of `n` cells begins with `s`, and `ptmp` points behind it. -/
structure Printed (n : ℕ) (s : List UInt8) (t : Tmp) : Prop where
  size : t.cells.length = n
  ptmp : t.ptmp = s.length
  front : t.cells.take s.length = s

theorem printed_start (tmp : List UInt8) : Printed tmp.length [] ⟨tmp, 0⟩ := ⟨rfl, rfl, rfl⟩

theorem print_overflow {n : ℕ} {s x : List UInt8} {t : Tmp} (h : Printed n s t) (hfull : n ≤ s.length + x.length) :
    t.print x = none := by
  rw [Tmp.print, if_neg]
  rw [h.ptmp, h.size]
  omega

theorem print_fits {n : ℕ} {s x : List UInt8} {t : Tmp} (h : Printed n s t) (hfit : s.length + x.length < n) :
    t.print x = some { t with cells := s ++ x ++ nul :: t.cells.drop (s.length + x.length + 1) } := by
  have hlen : (x ++ [nul]).length ≤ (t.cells.drop s.length).length := by
    rw [List.length_append, List.length_drop, List.length_singleton, h.size]
    omega
  rw [Tmp.print, if_pos (by rw [h.ptmp, h.size]; exact hfit), h.ptmp, h.front, overlay_eq hlen, List.drop_drop]
  simp [Nat.add_assoc]

theorem print_advance {n : ℕ} {s x : List UInt8} {t : Tmp} (h : Printed n s t) (hx : nul ∉ x)
    (hfit : s.length + x.length < n) :
    ∃ t₁ t₂, t.print x = some t₁ ∧ t₁.advance = some t₂ ∧ Printed n (s ++ x) t₂ := by
  refine ⟨_, ⟨s ++ x ++ nul :: t.cells.drop (s.length + x.length + 1), s.length + x.length⟩, print_fits h hfit, ?_, ?_⟩
  · rw [Tmp.advance, h.ptmp, List.append_assoc, List.drop_left, cstr?_append_nul hx]
    rfl
  · refine ⟨?_, by simp, List.take_left⟩
    simp only [List.length_append, List.length_cons, List.length_drop, h.size]
    omega

def printRest (headers : List (HttpHeader (List UInt8))) (t : Tmp) : Option (List UInt8) := do
  let t ← printHeaders headers t
  let t ← t.print crlf
  cstr? t.cells

theorem printRest_eq {n : ℕ} {headers : List (HttpHeader (List UInt8))} (hheaders : ∀ h ∈ headers, nul ∉ headerLine h)
    {s : List UInt8} (hs : nul ∉ s) {t : Tmp} (h : Printed n s t) :
    printRest headers t =
      if (resptostrLoop headers s ++ crlf).length < n then some (resptostrLoop headers s ++ crlf) else none := by
  have hcrlf : nul ∉ crlf := by decide
  induction headers generalizing s t with
  | nil =>
    rw [printRest, printHeaders, resptostrLoop, List.length_append]
    by_cases hfit : s.length + crlf.length < n
    · rw [if_pos hfit]
      simp only [print_fits h hfit, Option.bind_eq_bind, Option.bind_some]
      exact cstr?_append_nul (List.not_mem_append hs hcrlf) _
    · simp [print_overflow h (not_lt.mp hfit), hfit]
  | cons hdr headers ih =>
    obtain ⟨hdr_nul, hheaders⟩ := List.forall_mem_cons.mp hheaders
    have hline : nul ∉ headerLine hdr ++ crlf := List.not_mem_append hdr_nul hcrlf
    rw [resptostrLoop]
    by_cases hfit : s.length + (headerLine hdr ++ crlf).length < n
    · obtain ⟨t₁, t₂, ht₁, ht₂, hprinted⟩ := print_advance h hline hfit
      rw [← ih hheaders (List.not_mem_append hs hline) hprinted, printRest, printHeaders, ht₁, printRest]
      simp [ht₂]
    · have hlong : ¬ (resptostrLoop headers (s ++ (headerLine hdr ++ crlf)) ++ crlf).length < n := by
        simp only [resptostrLoop_eq, List.length_append] at hfit ⊢
        omega
      rw [if_neg hlong, printRest, printHeaders, print_overflow h (not_lt.mp hfit)]
      rfl

/-- `resptostr` returns the pieces one behind the other exactly when they fit its array
together with their terminator. -/
theorem resptostrTmp_eq {resp : HttpResponse} (hline : nul ∉ statusLine resp)
    (hheaders : ∀ h ∈ resp.headers, nul ∉ headerLine h) (tmp : List UInt8) :
    resptostrTmp tmp resp =
      if (resptostr resp).length < tmp.length then some (resptostr resp) else none := by
  have hstatus : nul ∉ statusLine resp ++ crlf := List.not_mem_append hline (by decide)
  have htake : ∀ h ∈ resp.headers.take resp.headerCount.toNat, nul ∉ headerLine h := fun h hh =>
    hheaders h (List.mem_of_mem_take hh)
  have hstart := printed_start tmp
  by_cases hfit : ([] : List UInt8).length + (statusLine resp ++ crlf).length < tmp.length
  · obtain ⟨t₁, t₂, ht₁, ht₂, hprinted⟩ := print_advance hstart hstatus hfit
    have hrest := printRest_eq htake hstatus hprinted
    rw [printRest] at hrest
    rw [resptostrTmp, ht₁, resptostr, ← hrest]
    simp [ht₂]
  · have hlong : ¬ (resptostr resp).length < tmp.length := by
      simp only [resptostr, resptostrLoop_eq, List.length_append, List.length_nil] at hfit ⊢
      omega
    rw [if_neg hlong, resptostrTmp, print_overflow hstart (not_lt.mp hfit)]
    rfl

/-- A response whose fields fit the grammar of a head and the limits of the parser. -/
structure Renderable (resp : HttpResponse) (version desc : List UInt8) : Prop where
  version_eq : resp.version = some version
  version_ne : version ≠ []
  version_clean : ∀ c ∈ version, isspace c = false ∧ c ≠ nul
  version_le : version.length ≤ 49
  desc_eq : resp.statusDesc = some desc
  desc_plain : ∀ c ∈ desc, Plain c
  desc_word : ∃ c ∈ desc, isspace c = false
  status_int : -2 ^ 31 ≤ resp.statusCode ∧ resp.statusCode < 2 ^ 31
  full : Full resp
  count_le : resp.headers.length ≤ 1000
  keys : ∀ h ∈ resp.headers, (∀ c ∈ h.key, c ≠ colon ∧ Plain c) ∧ h.key.length ≤ 255
  values : ∀ h ∈ resp.headers, (∀ c ∈ h.value, Plain c) ∧ h.value.length ≤ 255

def rendering (resp : HttpResponse) (version desc : List UInt8) : List UInt8 :=
  version ++ sp :: decimalInt resp.statusCode ++ sp :: desc ++ crlf ++
    resp.headers.flatMap (fun h => h.key ++ colon :: sp :: h.value ++ crlf) ++ crlf

namespace Renderable
variable {resp : HttpResponse} {version desc : List UInt8} (h : Renderable resp version desc)
include h

theorem statusLine_eq : statusLine resp = version ++ sp :: decimalInt resp.statusCode ++ sp :: desc := by
  rw [statusLine, h.version_eq, h.desc_eq]
  rfl

theorem headerClean : ∀ hdr ∈ resp.headers, HeaderClean hdr := by
  intro hdr hh
  obtain ⟨hkey, hkey_le⟩ := h.keys hdr hh
  obtain ⟨hvalue, hvalue_le⟩ := h.values hdr hh
  exact ⟨hkey, hvalue, hkey_le.trans (by decide), hvalue_le.trans (by decide)⟩

theorem rendering_eq : rendering resp version desc = resptostr resp := by
  rw [resptostr_eq_headBytes h.full, headBytes, h.statusLine_eq, List.flatMap_map]
  rfl

theorem line_plain : ∀ c ∈ statusLine resp, Plain c := by
  have hsp : Plain sp := ⟨by decide, by decide, by decide⟩
  rw [h.statusLine_eq]
  intro c hc
  simp only [List.mem_append, List.mem_cons] at hc
  rcases hc with (hc | rfl | hc) | rfl | hc
  · exact plain_of_word (h.version_clean c hc)
  · exact hsp
  · exact decimalInt_plain hc
  · exact hsp
  · exact h.desc_plain c hc

theorem words_line :
    ∃ w ws, Words.words isspace (statusLine resp) = version :: decimalInt resp.statusCode :: w :: ws := by
  have hsp : isspace sp = true := by decide
  obtain ⟨w, ws, hw⟩ : ∃ w ws, Words.words isspace desc = w :: ws := by
    apply List.exists_cons_of_ne_nil
    intro hnil
    obtain ⟨c, hc, hspace⟩ := h.desc_word
    rw [Words.words_eq_nil_iff.mp hnil c hc] at hspace
    cases hspace
  refine ⟨w, ws, ?_⟩
  rw [h.statusLine_eq, List.append_assoc, List.cons_append,
    Words.words_run_cons h.version_ne (fun c hc => (h.version_clean c hc).1) hsp,
    Words.words_run_cons (decimalInt_ne_nil _) (fun c hc => (decimalInt_word hc).1) hsp, hw]

theorem status_le : (decimalInt resp.statusCode).length ≤ 2047 :=
  (length_decimalInt_int h.status_int.1 h.status_int.2).trans (by decide)

theorem tokens_line :
    ∃ v, ∀ ys, Words.cutWords requestWidths (Words.words isspace (statusLine resp) ++ ys) =
      [version, decimalInt resp.statusCode, v] := by
  obtain ⟨w, ws, hw⟩ := h.words_line
  refine ⟨w.take 49, fun ys => ?_⟩
  simp [hw, requestWidths, Words.cutWords, Words.cutRest, h.version_le, h.status_le, List.take_of_length_le]

end Renderable

/-- What `resptostr` prints, `parse_headers` reads: for every response within the limits,
and whatever the array and the request held before. -/
theorem rendering_parsed {resp : HttpResponse} {version desc : List UInt8} (h : Renderable resp version desc)
    (hfit : (rendering resp version desc).length ≤ 4095) {tmp : List UInt8} (htmp : tmp.length = tmpSize)
    (req : HttpRequest) :
    resptostrTmp tmp resp = some (rendering resp version desc) ∧
      (∃ i, firstAt (crlf ++ crlf) (rendering resp version desc) = some i ∧
        i + 4 = (rendering resp version desc).length) ∧
      (parseHeaders (rendering resp version desc) req).1 = 0 ∧
      (parseHeaders (rendering resp version desc) req).2.method = some version ∧
      (parseHeaders (rendering resp version desc) req).2.path = some (decimalInt resp.statusCode) ∧
      (parseHeaders (rendering resp version desc) req).2.headerCount = resp.headers.length ∧
      (parseHeaders (rendering resp version desc) req).2.headers.map RawHeader.stored = resp.headers ∧
      StoresDefined none (scan (rendering resp version desc)).2 := by
  have hwrites := writes_headerLines h.headerClean
  have hfitting : ∀ hdr ∈ resp.headers, Fitting hdr := fun hdr hh => (h.headerClean hdr hh).fitting
  have hlines := lines_ok hwrites
  obtain ⟨v, htokens⟩ := h.tokens_line
  have hparse := parseHeaders_head_tokens h.line_plain htokens hlines [] req
  have hfirst := firstAt_crlf_head h.line_plain hlines []
  have hlen := (headBytes_length (statusLine resp) (resp.headers.map headerLine)).1
  have hfits := fits_lines h.line_plain hwrites hfitting h.count_le
  have htext := resptostrTmp_eq (plain_not_mem h.line_plain).2.2
    (fun hdr hh => (plain_not_mem (hlines _ (List.mem_map_of_mem hh)).2).2.2) tmp
  rw [List.append_nil, ← resptostr_eq_headBytes h.full, ← h.rendering_eq] at hparse hfirst
  rw [← resptostr_eq_headBytes h.full, ← h.rendering_eq] at hlen hfits
  have hlt : (rendering resp version desc).length < tmpSize := Nat.lt_succ_of_le hfit
  rw [← h.rendering_eq, htmp, if_pos hlt] at htext
  rw [hparse]
  refine ⟨htext, ⟨_, hfirst, by omega⟩, rfl, rfl, rfl, ?_, stored_lines hwrites hfitting,
    (storesDefined_scan_iff _).mpr hfits⟩
  rw [List.length_map]

/-- A negative status, an empty value and one that begins with a space. -/
def oddResponse : HttpResponse where
  version := some (ascii "HTTP/1.1")
  statusDesc := some (ascii "Bad Request")
  body := none
  bodyLength := 0
  statusCode := -400
  headers := [⟨ascii "server", ascii " a: b"⟩, ⟨[], []⟩]
  headerCount := 2

theorem rendering_parsed_odd :
    resptostrTmp (List.replicate tmpSize 255) oddResponse =
        some (rendering oddResponse (ascii "HTTP/1.1") (ascii "Bad Request")) ∧
      (parseHeaders (rendering oddResponse (ascii "HTTP/1.1") (ascii "Bad Request")) HttpRequest.zero).1 = 0 := by
  have h : Renderable oddResponse (ascii "HTTP/1.1") (ascii "Bad Request") := by
    constructor <;> first | rfl | decide +kernel
  have hfit : (rendering oddResponse (ascii "HTTP/1.1") (ascii "Bad Request")).length ≤ 4095 := by decide +kernel
  obtain ⟨htext, -, hret, -⟩ := rendering_parsed h hfit List.length_replicate HttpRequest.zero
  exact ⟨htext, hret⟩

end CeeServe.Response
