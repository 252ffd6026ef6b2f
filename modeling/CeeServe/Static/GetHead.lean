import CeeServe.Http.Encode
import CeeServe.Static.Connection
import CeeServe.Static.HeadScanners

/-! # Well-formed GET heads and the step that serves one

A GET head has three request-line words within the limits of the parser, header lines
that fit its buffers, and at most 4095 bytes. When a read puts one at the start of the
buffer, whatever follows it there, that iteration parses it and serves it.
-/
namespace CeeServe.Static
open CString Store Search Parse HeaderScan Response

structure GetHead where
  line : List UInt8
  path : List UInt8
  version : List UInt8
  lines : List (List UInt8)
  line_plain : ∀ c ∈ line, Plain c
  words_eq : Words.words isspace line = [ascii "GET", path, version]
  path_le : path.length ≤ 2047
  version_le : version.length ≤ 49
  lines_ok : ∀ l ∈ lines, l ≠ [] ∧ ∀ c ∈ l, Plain c
  lines_fit : ∀ l ∈ lines, (nameBytes l).length ≤ bufferSize ∧ (valueBytes l).length ≤ bufferSize
  lines_count : lines.length ≤ headerCapacity
  length_le : (headBytes line lines).length ≤ 4095

def GetHead.bytes (h : GetHead) : List UInt8 := headBytes h.line h.lines

/-- The request the parser makes of the head, over what the record held before. -/
def GetHead.request (h : GetHead) (req : HttpRequest) : HttpRequest :=
  { req with
    method := some (ascii "GET")
    path := some h.path
    version := some h.version
    headerCount := h.lines.length
    headers := h.lines.map lineHeader }

structure RequestView where
  method : Option (List UInt8)
  path : Option (List UInt8)
  version : Option (List UInt8)
  headerCount : ℤ
  headers : List (HttpHeader (List UInt8))

def view (req : HttpRequest) : RequestView :=
  ⟨req.method, req.path, req.version, req.headerCount, req.headers.map RawHeader.stored⟩

def GetHead.view (h : GetHead) : RequestView :=
  ⟨some (ascii "GET"), some h.path, some h.version, h.lines.length,
    h.lines.map fun l => ⟨nameBytes l, valueBytes l⟩⟩

/-- The loop head before the first byte of a request. -/
structure Fresh (s : Conn) : Prop where
  reading : s.readingHeaders = true
  empty : s.bytesRead = 0

theorem fresh_reset (openFiles : ℕ) : Fresh (Conn.reset openFiles) := ⟨rfl, rfl⟩

theorem firstAt_terminator_head {line : List UInt8} {ls : List (List UInt8)} (hline : ∀ c ∈ line, Plain c)
    (hls : ∀ l ∈ ls, l ≠ [] ∧ ∀ c ∈ l, Plain c) (rest : List UInt8) :
    firstAt terminator (headBytes line ls ++ rest) = some ((headBytes line ls).length - 4) :=
  firstAt_crlf_head hline hls rest

namespace GetHead
variable (h : GetHead)

theorem fits_alone : (h.bytes ++ []).length ≤ bsize := by
  have hle := h.length_le
  simp only [List.append_nil, bsize, bytes]
  omega

theorem read_alone {inp : Input} (hread : inp.read = some h.bytes) : inp.read = some (h.bytes ++ []) := by
  rw [hread, List.append_nil]

theorem bytes_length : 4 ≤ h.bytes.length := (headBytes_length h.line h.lines).1

theorem bytes_ne_nil : h.bytes ≠ [] := by
  intro hnil
  have := h.bytes_length
  rw [hnil] at this
  simp at this

theorem endOfHeaders_append (rest : List UInt8) :
    endOfHeaders (h.bytes ++ rest) = h.bytes.length := by
  have hlen := h.bytes_length
  have hle := h.length_le
  have hfirst := firstAt_terminator_head h.line_plain h.lines_ok rest
  obtain ⟨hocc, hleast⟩ := firstAt_eq_some_iff.mp hfirst
  have hret : endOfHeaders (h.bytes ++ rest) = ((h.bytes.length - 4 : ℕ) : ℤ) + 4 :=
    (endOfHeaders_eq_iff _ _).mpr ⟨by simp only [bytes, bsize]; omega, hocc, hleast⟩
  rw [hret]
  omega

theorem parse_append (rest : List UInt8) (req : HttpRequest) :
    parseHeaders (h.bytes ++ rest) req = (0, h.request req) :=
  parseHeaders_head h.line_plain h.words_eq (by decide) h.path_le h.version_le h.lines_ok rest req

theorem view_request (req : HttpRequest) : Static.view (h.request req) = h.view := by
  simp only [Static.view, request, view, List.map_map]
  congr 1
  apply List.map_congr_left
  intro l hl
  obtain ⟨hname, hvalue⟩ := h.lines_fit l hl
  exact stored_lineHeader (plain_not_mem (h.lines_ok l hl).2).1 hname hvalue

theorem step_serve (client : List UInt8) {s : Conn} {inp : Input} (rest : List UInt8) (hs : Fresh s)
    (hread : inp.read = some (h.bytes ++ rest)) (hfit : (h.bytes ++ rest).length ≤ bsize) :
    handleConnStep client s inp =
      (.read bsize :: .wrote .data (h.bytes ++ rest).length :: .parsed 0 (h.request s.req) ::
          .logged (logRequest client (h.request s.req) s.resp) ::
          (dispatch inp { s.receive (h.bytes ++ rest) with readingHeaders := false, req := h.request s.req }).1,
        (dispatch inp { s.receive (h.bytes ++ rest) with readingHeaders := false, req := h.request s.req }).2) := by
  have hne : h.bytes ++ rest ≠ [] := fun hnil => h.bytes_ne_nil (List.append_eq_nil_iff.mp hnil).1
  have hdata : (s.receive (h.bytes ++ rest)).data.bytes =
      h.bytes ++ (rest ++ s.data.bytes.drop (h.bytes ++ rest).length) := by
    rw [Conn.receive, Buffer.bytes_write hfit, List.append_assoc]
  have hend : endOfHeaders (s.receive (h.bytes ++ rest)).data.bytes ≠ -1 := by
    rw [hdata, h.endOfHeaders_append]
    omega
  have hparse : parseHeaders ((s.receive (h.bytes ++ rest)).data.bytes ++ inp.beyond)
      (s.receive (h.bytes ++ rest)).req = (0, h.request s.req) := by
    rw [hdata, List.append_assoc]
    exact h.parse_append _ _
  rw [step_parse client 0 hs.empty (by omega) hread hne hs.reading hend]
  simp only [parseHead, hparse, Nat.sub_zero]
  rfl

/-- The iteration parses the head and serves it, whether or not `serve_file` returns. -/
theorem step_trace (client : List UInt8) {s : Conn} {inp : Input} (rest : List UInt8) (hs : Fresh s)
    (hread : inp.read = some (h.bytes ++ rest)) (hfit : (h.bytes ++ rest).length ≤ bsize) :
    parses (handleConnStep client s inp).1 = [(0, h.request s.req)] ∧
      serves (handleConnStep client s inp).1 = [h.request s.req] ∧
      ∀ s', (handleConnStep client s inp).2 = some s' → Fresh s' := by
  obtain ⟨hparses, hserves, hnext⟩ := dispatch_get_trace inp
    (s := { s.receive (h.bytes ++ rest) with readingHeaders := false, req := h.request s.req }) rfl
  rw [h.step_serve client rest hs hread hfit]
  refine ⟨by simp [hparses], by simp [hserves], fun s' hs' => ?_⟩
  obtain ⟨n, rfl⟩ := hnext s' hs'
  exact fresh_reset n

theorem step_served (client : List UInt8) {s : Conn} {inp : Input} (rest : List UInt8) (hs : Fresh s)
    (hread : inp.read = some (h.bytes ++ rest)) (hfit : (h.bytes ++ rest).length ≤ bsize)
    (hret : (serveFile inp.fopen s.openFiles (h.request s.req)).returns = true) :
    handleConnStep client s inp =
      (.read bsize :: .wrote .data (h.bytes ++ rest).length :: .parsed 0 (h.request s.req) ::
          .logged (logRequest client (h.request s.req) s.resp) :: .served (h.request s.req) ::
          (serveFile inp.fopen s.openFiles (h.request s.req)).events ++ resetEvents,
        some (Conn.reset (serveFile inp.fopen s.openFiles (h.request s.req)).openFiles)) := by
  have hget : ({ s.receive (h.bytes ++ rest) with readingHeaders := false, req := h.request s.req } : Conn).req.method =
      some (ascii "GET") := rfl
  rw [h.step_serve client rest hs hread hfit, dispatch_get inp hget hret]
  rfl

end GetHead

/-- The smallest head. -/
def plainHead : GetHead where
  line := ascii "GET / H"
  path := ascii "/"
  version := ascii "H"
  lines := []
  line_plain := by decide +kernel
  words_eq := by decide +kernel
  path_le := by decide +kernel
  version_le := by decide +kernel
  lines_ok := by simp
  lines_fit := by simp
  lines_count := by simp
  length_le := by decide +kernel

end CeeServe.Static
