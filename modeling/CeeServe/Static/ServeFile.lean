import CeeServe.Http.Response
import CeeServe.Static.EndOfHeaders

/-! # serve_file

What the file system does is given from outside: `fopen` answers a name, depending
on how many files the process holds open, and an opened file has the size `ftell`
reports at its end and the outcomes of the `fread` calls on it. `serve_file` emits
what it opens and what it hands to `send`.
-/
namespace CeeServe.Static
open CString Decimal Response

inductive Object where
  | data
  | req
  | resp
deriving DecidableEq, Repr

inductive Event where
  | read (count : ℕ)
  | wrote (object : Object) (extent : ℕ)
  | parsed (ret : ℤ) (req : HttpRequest)
  | logged (message : List UInt8)
  | served (req : HttpRequest)
  | fopened (name : List UInt8) (ok : Bool)
  | sentResponse (data : List UInt8)
  | sentBody (data : List UInt8)
  | exited (code : ℤ)

/-- One call of `fread(buffer, 1, BSIZE, file)`: the bytes it read and whether the
end-of-file indicator is set afterwards. -/
structure FreadResult where
  bytes : List UInt8
  eof : Bool
  length_le : bytes.length ≤ bsize

structure Opened where
  size : ℤ
  freads : List FreadResult

abbrev Fopen := ℕ → List UInt8 → Option Opened

def filesFolder : List UInt8 := ascii "files"

/-- The name that is opened: the path without its first byte, or the index. -/
def fname (path : List UInt8) : List UInt8 :=
  let path := path.drop 1 -- Skip leading '/'
  if path.length = 0 then ascii "index.html" else path

def notFoundResponse : HttpResponse :=
  addHeader (createResponse 404 (some (ascii "Not Found")) none) (ascii "Content-Length") (ascii "0")

def fileResponse (name : List UInt8) (fileSize : ℤ) : HttpResponse :=
  let resp := createResponse 200 (some (ascii "OK")) none
  let resp := addHeader resp (ascii "Content-Length") (decimalInt fileSize)
  let resp :=
    if name = ascii "image.png" then addHeader resp (ascii "Content-Type") (ascii "image/png") else resp
  if name.take filesFolder.length = filesFolder then -- strncmp
    addHeader resp (ascii "Content-Disposition") (ascii "attachment")
  else resp

/-- `while (feof(file) == 0)`: the buffers sent and whether the loop ends with the
outcomes given. -/
def bodyLoop : Bool → List FreadResult → List (List UInt8) × Bool
  | true, _ => ([], true)
  | false, [] => ([], false)
  | false, r :: freads => (r.bytes :: (bodyLoop r.eof freads).1, (bodyLoop r.eof freads).2)

/-- What `serve_file` does, how many files are open afterwards (none is ever closed),
and whether it returns. -/
structure Served where
  events : List Event
  openFiles : ℕ
  returns : Bool

def serveFile (fopen : Fopen) (openFiles : ℕ) (req : HttpRequest) : Served :=
  let name := fname (req.path.getD [])
  match fopen openFiles name with
  | none => ⟨[.fopened name false, .sentResponse (resptostr notFoundResponse)], openFiles, true⟩
  | some file =>
    let body := bodyLoop false file.freads
    ⟨.fopened name true :: .sentResponse (resptostr (fileResponse name file.size)) ::
      body.1.map .sentBody, openFiles + 1, body.2⟩

theorem serveFile_none {fopen : Fopen} {openFiles : ℕ} {req : HttpRequest}
    (h : fopen openFiles (fname (req.path.getD [])) = none) :
    serveFile fopen openFiles req =
      ⟨[.fopened (fname (req.path.getD [])) false, .sentResponse (resptostr notFoundResponse)],
        openFiles, true⟩ := by
  simp only [serveFile, h]

theorem serveFile_some {fopen : Fopen} {openFiles : ℕ} {req : HttpRequest} {file : Opened}
    (h : fopen openFiles (fname (req.path.getD [])) = some file) :
    serveFile fopen openFiles req =
      ⟨.fopened (fname (req.path.getD [])) true ::
        .sentResponse (resptostr (fileResponse (fname (req.path.getD [])) file.size)) ::
        (bodyLoop false file.freads).1.map .sentBody, openFiles + 1, (bodyLoop false file.freads).2⟩ := by
  simp only [serveFile, h]

/-- Whatever the file system answers, one name is opened, then one response head is
sent, then only body buffers. -/
theorem serveFile_shape (fopen : Fopen) (openFiles : ℕ) (req : HttpRequest) :
    ∃ (ok : Bool) (head : List UInt8) (bodies : List (List UInt8)), (serveFile fopen openFiles req).events =
      .fopened (fname (req.path.getD [])) ok :: .sentResponse head :: bodies.map .sentBody := by
  cases h : fopen openFiles (fname (req.path.getD [])) with
  | none => exact ⟨false, resptostr notFoundResponse, [], by rw [serveFile_none h]; rfl⟩
  | some file => exact ⟨true, _, _, by rw [serveFile_some h]⟩

theorem mem_serveFile {fopen : Fopen} {openFiles : ℕ} {req : HttpRequest} {e : Event}
    (h : e ∈ (serveFile fopen openFiles req).events) :
    (∃ ok, e = .fopened (fname (req.path.getD [])) ok) ∨ (∃ data, e = .sentResponse data) ∨
      ∃ data, e = .sentBody data := by
  obtain ⟨ok, head, bodies, hshape⟩ := serveFile_shape fopen openFiles req
  rw [hshape, List.mem_cons, List.mem_cons, List.mem_map] at h
  rcases h with h | h | ⟨b, -, h⟩
  · exact Or.inl ⟨ok, h⟩
  · exact Or.inr (Or.inl ⟨head, h⟩)
  · exact Or.inr (Or.inr ⟨b, h.symm⟩)

theorem full_notFoundResponse : Full notFoundResponse :=
  full_addHeader (full_createResponse _ _ _) _ _

theorem full_fileResponse (name : List UInt8) (fileSize : ℤ) : Full (fileResponse name fileSize) := by
  have hlength := full_addHeader (full_createResponse 200 (some (ascii "OK")) none)
    (ascii "Content-Length") (decimalInt fileSize)
  unfold fileResponse
  dsimp only
  split <;> split
  · exact full_addHeader (full_addHeader hlength _ _) _ _
  · exact full_addHeader hlength _ _
  · exact full_addHeader hlength _ _
  · exact hlength

def contentType : HttpHeader (List UInt8) := ⟨ascii "Content-Type", ascii "image/png"⟩

def contentDisposition : HttpHeader (List UInt8) := ⟨ascii "Content-Disposition", ascii "attachment"⟩

theorem headers_fileResponse (name : List UInt8) (fileSize : ℤ) :
    (fileResponse name fileSize).headers = ⟨ascii "Content-Length", decimalInt fileSize⟩ ::
      ((if name = ascii "image.png" then [contentType] else []) ++
        if filesFolder <+: name then [contentDisposition] else []) := by
  have hcreate := full_createResponse 200 (some (ascii "OK")) none
  have hlength := full_addHeader hcreate (ascii "Content-Length") (decimalInt fileSize)
  have hheaders := headers_addHeader hcreate (ascii "Content-Length") (decimalInt fileSize)
  have htake : name.take filesFolder.length = filesFolder ↔ filesFolder <+: name :=
    eq_comm.trans List.prefix_iff_eq_take.symm
  unfold fileResponse
  simp only [htake]
  split <;> split
  · rw [headers_addHeader (full_addHeader hlength _ _), headers_addHeader hlength, hheaders]
    rfl
  · rw [headers_addHeader hlength, hheaders]
    rfl
  · rw [headers_addHeader hlength, hheaders]
    rfl
  · rw [hheaders]
    rfl

theorem statusLine_fileResponse (name : List UInt8) (fileSize : ℤ) :
    statusLine (fileResponse name fileSize) = ascii "HTTP/1.1 200 OK" := by
  have hcreate : statusLine (createResponse 200 (some (ascii "OK")) none) = ascii "HTTP/1.1 200 OK" := by
    decide +kernel
  unfold fileResponse
  dsimp only
  split <;> split <;> simp only [statusLine_addHeader, hcreate]

end CeeServe.Static
