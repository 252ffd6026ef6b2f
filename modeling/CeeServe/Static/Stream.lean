import CeeServe.Lib.Framing
import CeeServe.Static.FileCopy
import CeeServe.Static.Overrun

/-! # The output stream as a client reads it

A client reads a status line and header lines up to the first CR LF CR LF, then as many
bytes of body as Content-Length says, and starts again. On a file system that does not
change it recovers one reply for each request, in order.
-/
namespace CeeServe.Static
open CString Decimal Store Search Parse HeaderScan RequestLine Response Framing

structure Reply where
  status : ℕ
  body : List UInt8
deriving DecidableEq, Repr

def headLines (head : List UInt8) : List (List UInt8) := (head.splitOn lf).map stripCR

def statusOf (line : List UInt8) : Option ℕ :=
  match Words.words isspace line with
  | _ :: code :: _ => some (ofDecimal code)
  | _ => none

def fieldValue (name : List UInt8) (lines : List (List UInt8)) : Option (List UInt8) :=
  (lines.find? fun l => nameBytes l = name).map valueBytes

def replyOf (head rest : List UInt8) : Option (Reply × List UInt8) :=
  match headLines head with
  | [] => none
  | line :: lines =>
    match statusOf line, fieldValue (ascii "Content-Length") lines with
    | some status, some value =>
      if ofDecimal value ≤ rest.length then
        some (⟨status, rest.take (ofDecimal value)⟩, rest.drop (ofDecimal value))
      else none
    | _, _ => none

def nextReply (stream : List UInt8) : Option (Reply × List UInt8) :=
  match firstAt terminator stream with
  | none => none
  | some i => replyOf (stream.take (i + 4)) (stream.drop (i + 4))

theorem stripCR_concat (l : List UInt8) : stripCR (l ++ [cr]) = l := by
  rw [stripCR, List.getLast?_concat, if_pos rfl, List.dropLast_concat]

theorem headLines_headBytes {line : List UInt8} {ls : List (List UInt8)} (hline : ∀ c ∈ line, Plain c)
    (hls : ∀ l ∈ ls, l ≠ [] ∧ ∀ c ∈ l, Plain c) : headLines (headBytes line ls) = line :: (ls ++ [[], []]) := by
  have hsplit : (headBytes line ls).splitOn lf = (line ++ [cr]) :: (ls.map (fun l => l ++ [cr]) ++ [[cr], []]) := by
    have hlines := splitOn_lines (fun l hl => (plain_not_mem (hls l hl).2).2.1) []
    have hhead := splitOn_line (plain_not_mem hline).2.1 (ls.flatMap (fun l => l ++ crlf) ++ crlf ++ [])
    rw [hlines] at hhead
    simpa [headBytes] using hhead
  have hstrip : ls.map (stripCR ∘ fun l => l ++ [cr]) = ls := by
    conv_rhs => rw [← List.map_id ls]
    exact List.map_congr_left fun l _ => stripCR_concat l
  rw [headLines, hsplit, List.map_cons, List.map_append, List.map_map, hstrip, stripCR_concat]
  rfl

/-- A head whose first header line gives the length of the body that follows. -/
theorem encodes_reply {line first body : List UInt8} {more : List (List UInt8)} {status : ℕ}
    (hline : ∀ c ∈ line, Plain c) (hls : ∀ l ∈ first :: more, l ≠ [] ∧ ∀ c ∈ l, Plain c)
    (hstatus : statusOf line = some status) (hname : nameBytes first = ascii "Content-Length")
    (hvalue : valueBytes first = decimal body.length) :
    Encodes nextReply (headBytes line (first :: more) ++ body) ⟨status, body⟩ := by
  have hlen := (headBytes_length line (first :: more)).1
  constructor
  · intro hnil
    rw [(List.append_eq_nil_iff.mp hnil).1] at hlen
    simp at hlen
  · intro rest
    have hend : (headBytes line (first :: more)).length - 4 + 4 = (headBytes line (first :: more)).length := by
      omega
    have hfield : fieldValue (ascii "Content-Length") (first :: more ++ [[], []]) = some (decimal body.length) := by
      simp [fieldValue, hname, hvalue]
    rw [nextReply, List.append_assoc, firstAt_terminator_head hline hls]
    simp only [hend, List.take_left, List.drop_left, replyOf, headLines_headBytes hline hls, hstatus, hfield,
      ofDecimal_decimal, List.length_append]
    rw [if_pos (Nat.le_add_right _ _)]

theorem writes_contentLength {value : List UInt8} (hvalue : ∀ c ∈ value, Plain c) :
    Writes (headerLine ⟨ascii "Content-Length", value⟩) ⟨ascii "Content-Length", value⟩ :=
  writes_headerLine (by decide +kernel) hvalue

theorem encodes_notFound : Encodes nextReply (resptostr notFoundResponse) ⟨404, []⟩ := by
  have hplain : ∀ c ∈ decimal 0, Plain c := fun _ => decimal_plain
  have hwrites := writes_contentLength hplain
  have hheaders : notFoundResponse.headers = [⟨ascii "Content-Length", decimal 0⟩] := by
    decide +kernel
  have hline : ∀ c ∈ statusLine notFoundResponse, Plain c := by decide +kernel
  have hls : ∀ l ∈ [headerLine ⟨ascii "Content-Length", decimal 0⟩], l ≠ [] ∧ ∀ c ∈ l, Plain c :=
    lines_ok (.cons hwrites .nil)
  have hstatus : statusOf (statusLine notFoundResponse) = some 404 := by decide +kernel
  have h : Encodes nextReply
      (headBytes (statusLine notFoundResponse) [headerLine ⟨ascii "Content-Length", decimal 0⟩] ++ []) ⟨404, []⟩ :=
    encodes_reply hline hls hstatus hwrites.name hwrites.value
  rw [resptostr_eq_headBytes full_notFoundResponse, hheaders]
  simpa using h

theorem fileResponse_lines_ok (name : List UInt8) (fileSize : ℤ) :
    ∀ l ∈ (fileResponse name fileSize).headers.map headerLine, l ≠ [] ∧ ∀ c ∈ l, Plain c := by
  have htype : headerLine contentType ≠ [] ∧ ∀ c ∈ headerLine contentType, Plain c := by decide +kernel
  have hdisposition : headerLine contentDisposition ≠ [] ∧ ∀ c ∈ headerLine contentDisposition, Plain c := by
    decide +kernel
  intro l hl
  obtain ⟨h, hh, rfl⟩ := List.mem_map.mp hl
  rw [headers_fileResponse] at hh
  rcases List.mem_cons.mp hh with rfl | hh
  · have hplain : ∀ c ∈ decimalInt fileSize, Plain c := fun _ => decimalInt_plain
    have hwrites := writes_contentLength hplain
    exact ⟨hwrites.ne_nil, hwrites.plain⟩
  · rcases List.mem_append.mp hh with hh | hh <;> split at hh
    · exact List.mem_singleton.mp hh ▸ htype
    · cases hh
    · exact List.mem_singleton.mp hh ▸ hdisposition
    · cases hh

/-- The head of a file response: its header lines can be read back, and the first one
gives the size. -/
theorem fileResponse_head (name : List UInt8) (fileSize : ℤ) :
    ∃ more, (∀ l ∈ headerLine ⟨ascii "Content-Length", decimalInt fileSize⟩ :: more, l ≠ [] ∧ ∀ c ∈ l, Plain c) ∧
      resptostr (fileResponse name fileSize) = headBytes (ascii "HTTP/1.1 200 OK")
        (headerLine ⟨ascii "Content-Length", decimalInt fileSize⟩ :: more) := by
  have hok := fileResponse_lines_ok name fileSize
  have hhead := resptostr_eq_headBytes (full_fileResponse name fileSize)
  rw [statusLine_fileResponse] at hhead
  rw [headers_fileResponse, List.map_cons] at hok hhead
  exact ⟨_, hok, hhead⟩

theorem encodes_file (name content : List UInt8) :
    Encodes nextReply (resptostr (fileResponse name content.length) ++ content) ⟨200, content⟩ := by
  obtain ⟨more, hls, hhead⟩ := fileResponse_head name content.length
  have hplain : ∀ c ∈ decimal content.length, Plain c := fun _ => decimal_plain
  have hwrites := writes_contentLength hplain
  have hline : ∀ c ∈ ascii "HTTP/1.1 200 OK", Plain c := by decide +kernel
  have hstatus : statusOf (ascii "HTTP/1.1 200 OK") = some 200 := by decide +kernel
  rw [hhead]
  exact encodes_reply hline hls hstatus hwrites.name hwrites.value

def expectedReply (fs : FileSystem) (name : List UInt8) : Reply :=
  match fs name with
  | none => ⟨404, []⟩
  | some content => ⟨200, content⟩

theorem serveFile_refused (fopen : Fopen) (n : ℕ) (req : HttpRequest)
    (h : fopen n (fname (req.path.getD [])) = none) :
    (serveFile fopen n req).returns = true ∧ (serveFile fopen n req).openFiles = n ∧
      Encodes nextReply (output (serveFile fopen n req).events) ⟨404, []⟩ := by
  rw [serveFile_none h]
  exact ⟨rfl, rfl, by simpa [output] using encodes_notFound⟩

theorem serveFile_found (fopen : Fopen) (n : ℕ) (req : HttpRequest) {content : List UInt8}
    (h : fopen n (fname (req.path.getD [])) = some (openFile content)) :
    (serveFile fopen n req).returns = true ∧ (serveFile fopen n req).openFiles = n + 1 ∧
      Encodes nextReply (output (serveFile fopen n req).events) ⟨200, content⟩ := by
  obtain ⟨hcopy, hend⟩ := bodyLoop_freadsOf content
  have hbody : output ((bodyLoop false (openFile content).freads).1.map .sentBody) = content := by
    rw [output_bodies]
    exact hcopy
  have hsize : (openFile content).size = content.length := rfl
  have hreply := encodes_file (fname (req.path.getD [])) content
  rw [serveFile_some h]
  exact ⟨hend, rfl, by simpa [hbody, hsize] using hreply⟩

/-- `serve_file` returns, and what it sends is the reply for the name. -/
theorem serveFile_encodes (fs : FileSystem) (openFiles : ℕ) (req : HttpRequest) :
    (serveFile fs.fopen openFiles req).returns = true ∧
      Encodes nextReply (output (serveFile fs.fopen openFiles req).events)
        (expectedReply fs (fname (req.path.getD []))) := by
  cases hfs : fs (fname (req.path.getD [])) with
  | none =>
    have hopen : fs.fopen openFiles (fname (req.path.getD [])) = none := by
      rw [FileSystem.fopen, hfs, Option.map_none]
    obtain ⟨hret, -, henc⟩ := serveFile_refused fs.fopen openFiles req hopen
    rw [expectedReply, hfs]
    exact ⟨hret, henc⟩
  | some content =>
    have hopen : fs.fopen openFiles (fname (req.path.getD [])) = some (openFile content) := by
      rw [FileSystem.fopen, hfs, Option.map_some]
    obtain ⟨hret, -, henc⟩ := serveFile_found fs.fopen openFiles req hopen
    rw [expectedReply, hfs]
    exact ⟨hret, henc⟩

structure Asks (fs : FileSystem) (inp : Input) (h : GetHead) : Prop where
  read_eq : inp.read = some h.bytes
  fopen_eq : inp.fopen = fs.fopen

theorem step_asks (client : List UInt8) {fs : FileSystem} {s : Conn} {inp : Input} {h : GetHead} (hs : Fresh s)
    (hin : Asks fs inp h) :
    ∃ es s', handleConnStep client s inp = (es, some s') ∧ Fresh s' ∧
      Encodes nextReply (output es) (expectedReply fs (fname h.path)) := by
  have hread := h.read_alone hin.read_eq
  obtain ⟨hret, henc⟩ := serveFile_encodes fs s.openFiles (h.request s.req)
  have hpath : fname ((h.request s.req).path.getD []) = fname h.path := rfl
  rw [hpath] at henc
  rw [← hin.fopen_eq] at hret henc
  refine ⟨_, _, h.step_served client [] hs hread h.fits_alone hret, fresh_reset _, ?_⟩
  simpa using henc

/-- With nothing overrun the bytes sent for a sequence of GET heads decode to one reply
for each. -/
theorem replies_decoded {client : List UInt8} {fs : FileSystem} {s : Conn} (hs : Fresh s) {inputs : List Input}
    {heads : List GetHead} (hin : List.Forall₂ (Asks fs) inputs heads) :
    decode nextReply (output (handleConn client s inputs).1) =
      some (heads.map fun h => expectedReply fs (fname h.path)) := by
  have hall : Machine.RunsAll (handleConnStep client) s inputs := by
    refine Machine.runsAll_of_continues (fun s inp h hs hask => ?_) hin hs
    obtain ⟨es, s', hstep, hs', -⟩ := step_asks client hs hask
    exact ⟨es, s', hstep, hs'⟩
  have hblock : ∀ s inp h, Fresh s → Asks fs inp h →
      Encodes nextReply (output (handleConnStep client s inp).1) (expectedReply fs (fname h.path)) ∧
        ∀ s', (handleConnStep client s inp).2 = some s' → Fresh s' := by
    intro s inp h hs hask
    obtain ⟨es, s', hstep, hs', henc⟩ := step_asks client hs hask
    rw [hstep]
    exact ⟨henc, fun s'' hs'' => Option.some.inj hs'' ▸ hs'⟩
  obtain ⟨ess, hess, hblocks⟩ := Machine.run_blocks
    (P := fun h es => Encodes nextReply (output es) (expectedReply fs (fname h.path))) hblock hin hs hall
  have hpieces : List.Forall₂ (Encodes nextReply) (ess.map output)
      (heads.map fun h => expectedReply fs (fname h.path)) := by
    clear hin hall hess
    induction hblocks with
    | nil => exact .nil
    | cons hes _ ih => exact .cons hes ih
  rw [hess, output_flatten]
  exact decode_encoded hpieces

/-- The bytes sent for a sequence of GET heads, each delivered by its own read, decode to
one reply for each, in order, 404 where the name does not open, 200 and the content where
it does, exactly when there is one head at most or the loop survives its resets. -/
theorem stream_decodes_iff {client : List UInt8} {fs : FileSystem} {s : Conn} (hs : Fresh s) {inputs : List Input}
    {heads : List GetHead} (hin : List.Forall₂ (Asks fs) inputs heads) (spared : Bool) :
    decode nextReply (output (overrunConn spared client s inputs).1) =
        some (heads.map fun h => expectedReply fs (fname h.path)) ↔ spared = true ∨ heads.length ≤ 1 := by
  cases spared with
  | true =>
    rw [overrunConn, overrunStep_spared]
    exact iff_of_true (replies_decoded hs hin) (Or.inl rfl)
  | false =>
    rcases hin with _ | @⟨inp, h, inputs, heads, hask, -⟩
    · rw [overrunConn, Machine.run_nil]
      exact iff_of_true rfl (Or.inr (Nat.zero_le 1))
    -- the first head is answered, and nothing is sent behind its reset
    obtain ⟨es, s', hstep, -, henc⟩ := step_asks client hs hask
    have hserves : serves (handleConnStep client s inp).1 ≠ [] := by
      rw [(h.step_trace client [] hs (h.read_alone hask.read_eq) h.fits_alone).2.1]
      exact List.cons_ne_nil _ _
    have hdecode : decode nextReply (output es) = some [expectedReply fs (fname h.path)] := by
      have hsingle := decode_encoded (.cons henc .nil)
      rwa [List.flatten_singleton] at hsingle
    rw [overrunConn_served client (budget_fresh hs) hserves, hstep, hdecode]
    simp

def indexOnly : FileSystem := fun name => if name = ascii "index.html" then some (ascii "a\r\n\r\nb") else none

def askFile : Input := ⟨some plainHead.bytes, indexOnly.fopen, []⟩

theorem asks_index : Asks indexOnly askFile plainHead := ⟨rfl, rfl⟩

/-- Two requests on one connection: where the resets spare the loop, both are answered. -/
theorem stream_decodes_two :
    decode nextReply (output (overrunConn true [] (Conn.reset 0) [askFile, askFile]).1) =
      some ([plainHead, plainHead].map fun h => expectedReply indexOnly (fname h.path)) :=
  (stream_decodes_iff (fresh_reset 0) (.cons asks_index (.cons asks_index .nil)) true).mpr (Or.inl rfl)

/-- As the program is built the second one gets no reply. -/
theorem second_reply_missing :
    List.Forall₂ (Asks indexOnly) [askFile, askFile] [plainHead, plainHead] ∧
      decode nextReply (output (overrunConn false [] (Conn.reset 0) [askFile, askFile]).1) =
        some [⟨200, ascii "a\r\n\r\nb"⟩] ∧
      [plainHead, plainHead].map (fun h => expectedReply indexOnly (fname h.path)) =
        [⟨200, ascii "a\r\n\r\nb"⟩, ⟨200, ascii "a\r\n\r\nb"⟩] := by
  refine ⟨.cons asks_index (.cons asks_index .nil), ?_, ?_⟩ <;> decide +kernel

end CeeServe.Static
