import CeeServe.Http.Rendering
import CeeServe.Static.Stream

/-! # The buffers behind a response

`serve_file` prints the size of the file into 30 bytes, `add_header` stores into an array
that its caller has allocated, and `resptostr` prints into 4096 bytes. With every one of
these stores checked, `serve_file` is what it is without.
-/
namespace CeeServe.Static
open CString Decimal Parse Response HeaderScan RequestLine

/-- The store of `add_header` is inside an array of this capacity. -/
def addHeaderIn (capacity : ℕ) (response : HttpResponse) (key value : List UInt8) : Option HttpResponse :=
  if 0 ≤ response.headerCount ∧ response.headerCount < capacity then some (addHeader response key value) else none

def addHeaders (capacity : ℕ) : HttpResponse → List (HttpHeader (List UInt8)) → Option HttpResponse
  | response, [] => some response
  | response, hdr :: headers => do
    let response ← addHeaderIn capacity response hdr.key hdr.value
    addHeaders capacity response headers

/-- A response made by `create_response`, filled and printed. -/
def printCreated (capacity : ℕ) (tmp : List UInt8) (status : ℤ) (statusdesc : List UInt8)
    (headers : List (HttpHeader (List UInt8))) : Option (List UInt8) := do
  let response ← addHeaders capacity (createResponse status (some statusdesc) none) headers
  resptostrTmp tmp response

theorem addHeaderIn_full {capacity : ℕ} {response : HttpResponse} (h : Full response) (key value : List UInt8) :
    addHeaderIn capacity response key value =
      if response.headers.length < capacity then some (addHeader response key value) else none := by
  unfold Full at h
  simp only [addHeaderIn, h, Int.natCast_nonneg, true_and, Int.ofNat_lt]

def filled (response : HttpResponse) (headers : List (HttpHeader (List UInt8))) : HttpResponse :=
  headers.foldl (fun response hdr => addHeader response hdr.key hdr.value) response

theorem filled_spec (headers : List (HttpHeader (List UInt8))) {response : HttpResponse} (h : Full response) :
    Full (filled response headers) ∧ (filled response headers).headers = response.headers ++ headers ∧
      statusLine (filled response headers) = statusLine response := by
  induction headers generalizing response with
  | nil => exact ⟨h, by simp [filled], rfl⟩
  | cons hdr headers ih =>
    obtain ⟨hfull, hheaders, hline⟩ := ih (full_addHeader h hdr.key hdr.value)
    rw [headers_addHeader h] at hheaders
    exact ⟨hfull, by simpa [filled] using hheaders, hline⟩

/-- The calls are defined exactly when the array has room for all of them. -/
theorem addHeaders_eq {capacity : ℕ} (headers : List (HttpHeader (List UInt8))) {response : HttpResponse}
    (h : Full response) (hroom : response.headers.length ≤ capacity) :
    addHeaders capacity response headers =
      if response.headers.length + headers.length ≤ capacity then some (filled response headers) else none := by
  induction headers generalizing response with
  | nil => simp [addHeaders, filled, hroom]
  | cons hdr headers ih =>
    have hnext : (addHeader response hdr.key hdr.value).headers.length = response.headers.length + 1 := by
      simp [headers_addHeader h]
    simp only [addHeaders, addHeaderIn_full h, List.length_cons]
    by_cases hlt : response.headers.length < capacity
    · have hrest := ih (full_addHeader h hdr.key hdr.value) (by omega)
      rw [if_pos hlt, Option.bind_eq_bind, Option.bind_some, hrest, hnext, Nat.add_assoc, Nat.add_comm 1]
      rfl
    · rw [if_neg hlt, if_neg (by omega)]
      rfl

theorem nul_statusLine {status : ℤ} {statusdesc : List UInt8} (hdesc : nul ∉ statusdesc) :
    nul ∉ statusLine (createResponse status (some statusdesc) none) := by
  have hversion : nul ∉ ascii "HTTP/1.1" := by decide +kernel
  have hsp : nul ≠ sp := by decide
  have hstatus : nul ∉ decimalInt status := fun hc => (decimalInt_word hc).2 rfl
  simp [statusLine, cArg, createResponse, hversion, hsp, hstatus, hdesc]

theorem nul_headerLine {hdr : HttpHeader (List UInt8)} (h : nul ∉ hdr.key ∧ nul ∉ hdr.value) : nul ∉ headerLine hdr := by
  have hcolon : nul ≠ colon := by decide
  have hsp : nul ≠ sp := by decide
  simp [headerLine, h.1, h.2, hcolon, hsp]

theorem print_filled {response : HttpResponse} (h : Full response) (hnone : response.headers = [])
    (hline : nul ∉ statusLine response) (capacity : ℕ) (tmp : List UInt8) {headers : List (HttpHeader (List UInt8))}
    (hheaders : ∀ hdr ∈ headers, nul ∉ hdr.key ∧ nul ∉ hdr.value) :
    ((addHeaders capacity response headers).bind fun response => resptostrTmp tmp response) =
      if headers.length ≤ capacity ∧ (headBytes (statusLine response) (headers.map headerLine)).length < tmp.length then
        some (headBytes (statusLine response) (headers.map headerLine))
      else none := by
  obtain ⟨hfull, hall, hsame⟩ := filled_spec headers h
  rw [hnone, List.nil_append] at hall
  have hroom : addHeaders capacity response headers = _ := addHeaders_eq headers h (by simp [hnone])
  rw [hnone, List.length_nil, Nat.zero_add] at hroom
  have hstatus : nul ∉ statusLine (filled response headers) := by rw [hsame]; exact hline
  have hlines : ∀ hdr ∈ (filled response headers).headers, nul ∉ headerLine hdr := by
    rw [hall]
    exact fun hdr hh => nul_headerLine (hheaders hdr hh)
  have hprint := resptostrTmp_eq hstatus hlines tmp
  rw [resptostr_eq_headBytes hfull, hsame, hall] at hprint
  rw [hroom]
  by_cases hle : headers.length ≤ capacity
  · rw [if_pos hle, Option.bind_some, hprint]
    simp only [hle, true_and]
  · simp [hle]

/-- For every status, description and headers: the response can be made and printed
exactly when the array of headers has room for them and the other array for the text,
and then the text is a status line, a line for each header in order, and an empty line. -/
theorem printCreated_eq (capacity : ℕ) (tmp : List UInt8) (status : ℤ) {statusdesc : List UInt8}
    (hdesc : nul ∉ statusdesc) {headers : List (HttpHeader (List UInt8))}
    (hheaders : ∀ hdr ∈ headers, nul ∉ hdr.key ∧ nul ∉ hdr.value) :
    printCreated capacity tmp status statusdesc headers =
      if headers.length ≤ capacity ∧
          (headBytes (statusLine (createResponse status (some statusdesc) none)) (headers.map headerLine)).length <
            tmp.length then
        some (headBytes (statusLine (createResponse status (some statusdesc) none)) (headers.map headerLine))
      else none :=
  print_filled (full_createResponse status (some statusdesc) none) rfl (nul_statusLine hdesc) capacity tmp hheaders

theorem printCreated_server :
    printCreated 1 (List.replicate tmpSize 255) 400 (ascii "Bad Request") [⟨ascii "server", ascii "ceeserve"⟩] =
      if 1 ≤ 1 ∧ (headBytes (statusLine (createResponse 400 (some (ascii "Bad Request")) none))
          [headerLine ⟨ascii "server", ascii "ceeserve"⟩]).length < (List.replicate tmpSize (255 : UInt8)).length then
        some (headBytes (statusLine (createResponse 400 (some (ascii "Bad Request")) none))
          [headerLine ⟨ascii "server", ascii "ceeserve"⟩])
      else none := by
  have hdesc : nul ∉ ascii "Bad Request" := by decide +kernel
  have hheaders : ∀ hdr ∈ [(⟨ascii "server", ascii "ceeserve"⟩ : HttpHeader (List UInt8))],
      nul ∉ hdr.key ∧ nul ∉ hdr.value := by decide +kernel
  exact printCreated_eq 1 (List.replicate tmpSize 255) 400 hdesc hheaders

/-- `malloc(sizeof(char)*30)`. -/
def clengthSize : ℕ := 30

/-- `sprintf(s, "%ld", z)` into an array of this size. -/
def sprintfLong (size : ℕ) (z : ℤ) : Option (List UInt8) :=
  if (decimalInt z).length + 1 ≤ size then some (decimalInt z) else none

def notFoundResponseIn : Option HttpResponse :=
  addHeaderIn 1 (createResponse 404 (some (ascii "Not Found")) none) (ascii "Content-Length") (ascii "0")

def fileResponseIn (name : List UInt8) (fileSize : ℤ) : Option HttpResponse := do
  let clength ← sprintfLong clengthSize fileSize
  let resp ← addHeaderIn 1000 (createResponse 200 (some (ascii "OK")) none) (ascii "Content-Length") clength
  let resp ←
    if name = ascii "image.png" then addHeaderIn 1000 resp (ascii "Content-Type") (ascii "image/png") else some resp
  if name.take filesFolder.length = filesFolder then -- strncmp
    addHeaderIn 1000 resp (ascii "Content-Disposition") (ascii "attachment")
  else some resp

/-- `serve_file`, where `tmp` is what the array of `resptostr` holds when it is called;
undefined where a store leaves its buffer. -/
def serveFileIn (tmp : List UInt8) (fopen : Fopen) (openFiles : ℕ) (req : HttpRequest) : Option Served :=
  let name := fname (req.path.getD [])
  match fopen openFiles name with
  | none => do
    let resp ← notFoundResponseIn
    let data ← resptostrTmp tmp resp
    return ⟨[.fopened name false, .sentResponse data], openFiles, true⟩
  | some file => do
    let resp ← fileResponseIn name file.size
    let data ← resptostrTmp tmp resp
    let body := bodyLoop false file.freads
    return ⟨.fopened name true :: .sentResponse data :: body.1.map .sentBody, openFiles + 1, body.2⟩

theorem length_decimalInt_long {z : ℤ} (hlo : -2 ^ 63 ≤ z) (hhi : z < 2 ^ 63) : (decimalInt z).length ≤ 20 :=
  length_decimalInt_le (k := 19) (by decide) (by omega) (by omega)

theorem addHeaderIn_room {capacity : ℕ} {response : HttpResponse} (h : Full response)
    (hroom : response.headers.length < capacity) (key value : List UInt8) :
    addHeaderIn capacity response key value = some (addHeader response key value) := by
  rw [addHeaderIn_full h, if_pos hroom]

theorem notFoundResponseIn_eq : notFoundResponseIn = some notFoundResponse :=
  addHeaderIn_room (full_createResponse _ _ _) Nat.one_pos _ _

theorem fileResponseIn_eq (name : List UInt8) {fileSize : ℤ} (hlo : -2 ^ 63 ≤ fileSize) (hhi : fileSize < 2 ^ 63) :
    fileResponseIn name fileSize = some (fileResponse name fileSize) := by
  have hdigits := length_decimalInt_long hlo hhi
  have hclength : sprintfLong clengthSize fileSize = some (decimalInt fileSize) :=
    if_pos (by simp only [clengthSize]; omega)
  have hcreate := full_createResponse 200 (some (ascii "OK")) none
  obtain ⟨created, hcreated⟩ : ∃ created, createResponse 200 (some (ascii "OK")) none = created := ⟨_, rfl⟩
  have hempty : created.headers.length = 0 := by rw [← hcreated]; rfl
  rw [hcreated] at hcreate
  have hlength := full_addHeader hcreate (ascii "Content-Length") (decimalInt fileSize)
  have hone : (addHeader created (ascii "Content-Length") (decimalInt fileSize)).headers.length = 1 := by
    rw [headers_addHeader hcreate, List.length_append, hempty, List.length_singleton]
  have htype := full_addHeader hlength (ascii "Content-Type") (ascii "image/png")
  have htwo : (addHeader (addHeader created (ascii "Content-Length") (decimalInt fileSize)) (ascii "Content-Type")
      (ascii "image/png")).headers.length = 2 := by
    rw [headers_addHeader hlength, List.length_append, hone, List.length_singleton]
  simp only [fileResponseIn, fileResponse, hclength, hcreated, Option.bind_eq_bind, Option.bind_some,
    addHeaderIn_room hcreate (show _ < 1000 by omega)]
  by_cases hpng : name = ascii "image.png"
  · simp only [if_pos hpng, addHeaderIn_room hlength (show _ < 1000 by omega), Option.bind_some,
      addHeaderIn_room htype (show _ < 1000 by omega)]
    split <;> rfl
  · simp only [if_neg hpng, Option.bind_some, addHeaderIn_room hlength (show _ < 1000 by omega)]
    split <;> rfl

/-- Name and size leave most of the array free. -/
theorem length_fileResponse_le (name : List UInt8) {fileSize : ℤ} (hlo : -2 ^ 63 ≤ fileSize) (hhi : fileSize < 2 ^ 63) :
    (resptostr (fileResponse name fileSize)).length ≤ 115 := by
  have hdigits := length_decimalInt_long hlo hhi
  have hstatus : (ascii "HTTP/1.1 200 OK").length = 15 := by decide +kernel
  have hkey : (ascii "Content-Length").length = 14 := by decide +kernel
  have htype : (headerLine contentType).length = 23 := by decide +kernel
  have hdisposition : (headerLine contentDisposition).length = 31 := by decide +kernel
  have hcrlf : crlf.length = 2 := rfl
  have hlength : (headerLine ⟨ascii "Content-Length", decimalInt fileSize⟩).length = 16 + (decimalInt fileSize).length := by
    simp only [headerLine, List.length_append, List.length_cons, hkey]
    omega
  rw [resptostr_eq_headBytes (full_fileResponse name fileSize), statusLine_fileResponse, headers_fileResponse, headBytes]
  split <;> split <;>
  · simp only [List.nil_append, List.append_nil, List.singleton_append, List.map_cons, List.map_nil, List.flatMap_cons,
      List.flatMap_nil, List.length_append, hstatus, hlength, htype, hdisposition, hcrlf]
    omega

/-- For every request, every answer of the file system with a size that `ftell` can
report, and whatever the stack held: no store of `serve_file` leaves its buffer. -/
theorem serveFileIn_eq {tmp : List UInt8} (htmp : tmp.length = tmpSize) {fopen : Fopen} {openFiles : ℕ}
    {req : HttpRequest} (hsize : ∀ file, fopen openFiles (fname (req.path.getD [])) = some file →
      -2 ^ 63 ≤ file.size ∧ file.size < 2 ^ 63) :
    serveFileIn tmp fopen openFiles req = some (serveFile fopen openFiles req) := by
  have hprint : ∀ {resp : HttpResponse}, nul ∉ statusLine resp → (∀ h ∈ resp.headers, nul ∉ headerLine h) →
      (resptostr resp).length ≤ 115 → resptostrTmp tmp resp = some (resptostr resp) := by
    intro resp hline hheaders hlen
    rw [resptostrTmp_eq hline hheaders, if_pos]
    rw [htmp]
    exact Nat.lt_of_le_of_lt hlen (by decide)
  obtain ⟨name, hname⟩ : ∃ name, fname (req.path.getD []) = name := ⟨_, rfl⟩
  rw [hname] at hsize
  unfold serveFileIn serveFile
  simp only [hname]
  cases hopen : fopen openFiles name with
  | none =>
    have hline : nul ∉ statusLine notFoundResponse := by decide +kernel
    have hheaders : ∀ h ∈ notFoundResponse.headers, nul ∉ headerLine h := by decide +kernel
    have hlen : (resptostr notFoundResponse).length ≤ 115 := by decide +kernel
    simp only [notFoundResponseIn_eq, hprint hline hheaders hlen, Option.bind_eq_bind, Option.bind_some]
    rfl
  | some file =>
    obtain ⟨hlo, hhi⟩ := hsize file hopen
    have hplain : nul ∉ ascii "HTTP/1.1 200 OK" := by decide +kernel
    have hline : nul ∉ statusLine (fileResponse name file.size) := by rw [statusLine_fileResponse]; exact hplain
    have hheaders : ∀ h ∈ (fileResponse name file.size).headers, nul ∉ headerLine h := fun h hh =>
      (plain_not_mem (fileResponse_lines_ok name file.size _ (List.mem_map_of_mem hh)).2).2.2
    simp only [fileResponseIn_eq name hlo hhi, hprint hline hheaders (length_fileResponse_le name hlo hhi),
      Option.bind_eq_bind, Option.bind_some]
    rfl

/-- The index, with an array full of other bytes. -/
theorem serveFileIn_index :
    serveFileIn (List.replicate tmpSize 255) indexOnly.fopen 0 (plainHead.request HttpRequest.zero) =
      some (serveFile indexOnly.fopen 0 (plainHead.request HttpRequest.zero)) := by
  apply serveFileIn_eq List.length_replicate
  intro file hfile
  have hsize : (indexOnly.fopen 0 (fname ((plainHead.request HttpRequest.zero).path.getD []))).map Opened.size = some 6 := by
    decide +kernel
  rw [hfile, Option.map_some, Option.some.injEq] at hsize
  rw [hsize]
  decide

end CeeServe.Static
