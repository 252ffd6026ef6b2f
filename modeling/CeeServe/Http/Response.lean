import CeeServe.Http.Encode
import CeeServe.Lib.Decimal

/-! # Responses and their rendering

`resptostr` prints the response line and the first `header_count` headers into a
local buffer, each piece where the last one ended, and closes with an empty line.
-/
namespace CeeServe.Response
open CString Store HeaderScan Parse Decimal

/-- `%s`; the C library prints a NULL pointer as `(null)`. -/
def cArg (s : Option (List UInt8)) : List UInt8 := s.getD (ascii "(null)")

/-- `"%s %d %s"`. -/
def statusLine (resp : HttpResponse) : List UInt8 :=
  cArg resp.version ++ sp :: decimalInt resp.statusCode ++ sp :: cArg resp.statusDesc

/-- `"%s: %s"`. -/
def headerLine (hdr : HttpHeader (List UInt8)) : List UInt8 := hdr.key ++ colon :: sp :: hdr.value

/-- The loop over the headers; `tmp` is what was printed so far. -/
def resptostrLoop : List (HttpHeader (List UInt8)) → List UInt8 → List UInt8
  | [], tmp => tmp
  | hdr :: headers, tmp => resptostrLoop headers (tmp ++ (headerLine hdr ++ crlf))

def resptostr (resp : HttpResponse) : List UInt8 :=
  resptostrLoop (resp.headers.take resp.headerCount.toNat) (statusLine resp ++ crlf) ++ crlf

def createResponse (status : ℤ) (statusdesc body : Option (List UInt8)) : HttpResponse where
  version := some (ascii "HTTP/1.1")
  statusDesc := statusdesc
  body := body
  bodyLength := 0
  statusCode := status
  headers := []
  headerCount := 0

/-- This assumes there is memory allocated for the headers array -/
def addHeader (response : HttpResponse) (key value : List UInt8) : HttpResponse :=
  { response with
    headers := response.headers.take response.headerCount.toNat ++ [⟨key, value⟩]
    headerCount := response.headerCount + 1 }

def Full (resp : HttpResponse) : Prop := resp.headerCount = resp.headers.length

theorem full_createResponse (status : ℤ) (desc body : Option (List UInt8)) :
    Full (createResponse status desc body) := rfl

theorem full_addHeader {resp : HttpResponse} (h : Full resp) (key value : List UInt8) :
    Full (addHeader resp key value) := by
  unfold Full at h ⊢
  simp only [addHeader, h, Int.toNat_natCast, List.take_length, List.length_append, List.length_singleton]
  omega

theorem headers_addHeader {resp : HttpResponse} (h : Full resp) (key value : List UInt8) :
    (addHeader resp key value).headers = resp.headers ++ [⟨key, value⟩] := by
  unfold Full at h
  simp only [addHeader, h, Int.toNat_natCast, List.take_length]

@[simp] theorem statusLine_addHeader (resp : HttpResponse) (key value : List UInt8) :
    statusLine (addHeader resp key value) = statusLine resp := rfl

theorem resptostrLoop_eq (headers : List (HttpHeader (List UInt8))) (tmp : List UInt8) :
    resptostrLoop headers tmp = tmp ++ (headers.map headerLine).flatMap (fun l => l ++ crlf) := by
  induction headers generalizing tmp with
  | nil => simp [resptostrLoop]
  | cons hdr headers ih => simp [resptostrLoop, ih]

theorem resptostr_eq_headBytes {resp : HttpResponse} (h : Full resp) :
    resptostr resp = headBytes (statusLine resp) (resp.headers.map headerLine) := by
  unfold Full at h
  simp only [resptostr, resptostrLoop_eq, h, Int.toNat_natCast, List.take_length, headBytes]

theorem decimalInt_word {z : ℤ} {c : UInt8} (hc : c ∈ decimalInt z) : isspace c = false ∧ c ≠ nul := by
  rcases mem_decimalInt hc with rfl | ⟨hlo, -⟩
  · decide
  · have hcr : ¬ c ≤ cr := fun h => absurd (UInt8.le_trans hlo h) (by decide)
    have hsp : c ≠ sp := by
      rintro rfl
      exact absurd hlo (by decide)
    have hnul : c ≠ nul := by
      rintro rfl
      exact absurd hlo (by decide)
    simp [isspace, hsp, hcr, hnul]

theorem decimalInt_plain {z : ℤ} {c : UInt8} (hc : c ∈ decimalInt z) : Plain c :=
  plain_of_word (decimalInt_word hc)

theorem decimal_plain {n : ℕ} {c : UInt8} (hc : c ∈ decimal n) : Plain c :=
  decimalInt_plain (z := n) hc

/-- A header that fits a line of its own and the buffers of the parser. -/
structure HeaderClean (h : HttpHeader (List UInt8)) : Prop where
  key : ∀ c ∈ h.key, c ≠ colon ∧ Plain c
  value : ∀ c ∈ h.value, Plain c
  key_le : h.key.length ≤ bufferSize
  value_le : h.value.length ≤ bufferSize

theorem writes_headerLine {key value : List UInt8} (hkey : ∀ c ∈ key, c ≠ colon ∧ Plain c)
    (hvalue : ∀ c ∈ value, Plain c) :
    Writes (headerLine ⟨key, value⟩) ⟨key, value⟩ := writes_field [sp] hkey hvalue (Or.inl rfl)

theorem writes_headerLines {hs : List (HttpHeader (List UInt8))} (hc : ∀ h ∈ hs, HeaderClean h) :
    List.Forall₂ Writes (hs.map headerLine) hs := by
  rw [List.forall₂_map_left_iff]
  exact List.forall₂_same.mpr fun h hh => writes_headerLine (hc h hh).key (hc h hh).value

theorem HeaderClean.fitting {h : HttpHeader (List UInt8)} (hc : HeaderClean h) : Fitting h := ⟨hc.key_le, hc.value_le⟩

end CeeServe.Response
