import CeeServe.Http.Parse
import CeeServe.Lib.Machine
import CeeServe.Static.ServeFile

/-! # handle_conn

One iteration of the loop is a step of a machine: its input is what `read` returns,
what the file system answers, and what lies in memory behind the buffer; its events
are what the iteration does. The machine stops where the process exits, and where
`serve_file` does not return.
-/
namespace CeeServe.Static
open CString Store Parse Response Decimal

structure Buffer where
  bytes : List UInt8
  length_eq : bytes.length = bsize

def Buffer.write (b : Buffer) (chunk : List UInt8) : Buffer :=
  ⟨overlay chunk b.bytes, by rw [length_overlay, b.length_eq]⟩

def Buffer.zero : Buffer := ⟨List.replicate bsize nul, List.length_replicate⟩

/-- The locals of `handle_conn` at the loop head, and the number of files the
process holds open. -/
structure Conn where
  data : Buffer
  bytesRead : ℤ
  readingHeaders : Bool
  req : HttpRequest
  resp : HttpResponse
  openFiles : ℕ

/-- What one iteration gets from outside; `read` is `none` for an error. -/
structure Input where
  read : Option (List UInt8)
  fopen : Fopen
  beyond : List UInt8

/-- A read on a file system without files. -/
def Input.bare (chunk : List UInt8) : Input := ⟨some chunk, fun _ _ => none, []⟩

/-- Conversion to `size_t` and to `int`. -/
def toSizeT (x : ℤ) : ℕ := (x % UInt64.size).toNat
def toInt (x : ℤ) : ℤ := Int.bmod x UInt32.size

/-- `int bytes_to_read = BSIZE - bytes_read`, which C computes as a `size_t`. -/
def bytesToRead (bytesRead : ℤ) : ℤ := toInt (toSizeT (bsize - bytesRead))

/-- What `read` delivers: at most `count` bytes, nothing in case of an error. -/
def received (read : Option (List UInt8)) (count : ℕ) : List UInt8 := (read.getD []).take count

/-- `"%s %s %s %d %s"`. -/
def logRequest (client : List UInt8) (req : HttpRequest) (response : HttpResponse) : List UInt8 :=
  cArg req.version ++ sp :: client ++ sp :: cArg req.method ++ sp :: decimalInt response.statusCode ++
    sp :: cArg req.path

/-- The three `memset` calls each get the length `BSIZE`. -/
def resetEvents : List Event := [.wrote .data bsize, .wrote .req bsize, .wrote .resp bsize]

/-- The locals after the `memset` calls, each of which is taken to clear the object it
names and nothing more. -/
def Conn.reset (openFiles : ℕ) : Conn where
  data := Buffer.zero
  bytesRead := 0
  readingHeaders := true
  req := HttpRequest.zero
  resp := HttpResponse.zero
  openFiles := openFiles

def dispatch (inp : Input) (s : Conn) : List Event × Option Conn :=
  if s.req.method = some (ascii "GET") then -- Assume GET never has a body
    let file := serveFile inp.fopen s.openFiles s.req
    if file.returns then
      (.served s.req :: file.events ++ resetEvents, some (Conn.reset file.openFiles))
    else (.served s.req :: file.events, none)
  else ([], some s) -- the branch for POST is empty

def parseHead (client : List UInt8) (inp : Input) (s : Conn) : List Event × Option Conn :=
  let r := parseHeaders (s.data.bytes ++ inp.beyond) s.req
  if r.1 = -1 then ([.parsed r.1 r.2, .exited 1], none)
  else
    let d := dispatch inp { s with readingHeaders := false, req := r.2 }
    (.parsed r.1 r.2 :: .logged (logRequest client r.2 s.resp) :: d.1, d.2)

def afterRead (client : List UInt8) (inp : Input) (s : Conn) : List Event × Option Conn :=
  if s.readingHeaders then
    if endOfHeaders s.data.bytes = -1 then ([], some s) else parseHead client inp s
  else dispatch inp s

def Conn.receive (s : Conn) (chunk : List UInt8) : Conn :=
  { s with data := s.data.write chunk, bytesRead := s.bytesRead + chunk.length }

/-- The body of the `while` loop. -/
def handleConnStep (client : List UInt8) (s : Conn) (inp : Input) : List Event × Option Conn :=
  let count := toSizeT (bytesToRead s.bytesRead)
  let chunk := received inp.read count
  if chunk = [] then ([.read count, .exited 1], none)
  else
    let r := afterRead client inp (s.receive chunk)
    (.read count :: .wrote .data chunk.length :: r.1, r.2)

abbrev handleConn (client : List UInt8) : Conn → List Input → List Event × Option Conn :=
  Machine.run (handleConnStep client)

theorem toSizeT_natCast {m : ℕ} (h : m < UInt64.size) : toSizeT m = m := by
  unfold toSizeT
  rw [Int.emod_eq_of_lt (by omega) (by omega), Int.toNat_natCast]

theorem toInt_natCast {m : ℕ} (h : 2 * m < UInt32.size) : toInt m = m := by
  unfold toInt
  exact Int.bmod_eq_of_le (by omega) (by omega)

/-- Within the buffer the mixed arithmetic neither goes below zero nor wraps. -/
theorem bytesToRead_eq {n : ℕ} (h : n ≤ bsize) : toSizeT (bytesToRead n) = bsize - n := by
  have hsize : (bsize : ℤ) - n = ((bsize - n : ℕ) : ℤ) := by omega
  have hle : bsize - n ≤ 4096 := Nat.sub_le bsize n
  have h32 : 2 * (bsize - n) < UInt32.size := by simp only [UInt32.size]; omega
  have h64 : bsize - n < UInt64.size := by simp only [UInt64.size]; omega
  rw [bytesToRead, hsize, toSizeT_natCast h64, toInt_natCast h32, toSizeT_natCast h64]

theorem Buffer.bytes_write {b : Buffer} {chunk : List UInt8} (h : chunk.length ≤ bsize) :
    (b.write chunk).bytes = chunk ++ b.bytes.drop chunk.length :=
  overlay_eq (by rw [b.length_eq]; exact h)

theorem dispatch_other {inp : Input} {s : Conn} (h : s.req.method ≠ some (ascii "GET")) :
    dispatch inp s = ([], some s) := by
  unfold dispatch
  rw [if_neg h]

theorem dispatch_get (inp : Input) {s : Conn} (h : s.req.method = some (ascii "GET"))
    (hret : (serveFile inp.fopen s.openFiles s.req).returns = true) :
    dispatch inp s =
      (.served s.req :: (serveFile inp.fopen s.openFiles s.req).events ++ resetEvents,
        some (Conn.reset (serveFile inp.fopen s.openFiles s.req).openFiles)) := by
  unfold dispatch
  rw [if_pos h]
  dsimp only
  rw [if_pos hret]

theorem dispatch_get_stuck {inp : Input} {s : Conn} (h : s.req.method = some (ascii "GET"))
    (hret : (serveFile inp.fopen s.openFiles s.req).returns = false) :
    dispatch inp s = (.served s.req :: (serveFile inp.fopen s.openFiles s.req).events, none) := by
  unfold dispatch
  rw [if_pos h]
  dsimp only
  rw [hret, if_neg (by decide)]

theorem handleConnStep_cases (client : List UInt8) (s : Conn) (inp : Input) :
    (∃ count, handleConnStep client s inp = ([.read count, .exited 1], none)) ∨
      ∃ count chunk, chunk ≠ [] ∧ chunk = received inp.read count ∧
        count = toSizeT (bytesToRead s.bytesRead) ∧
        handleConnStep client s inp =
          (.read count :: .wrote .data chunk.length :: (afterRead client inp (s.receive chunk)).1,
            (afterRead client inp (s.receive chunk)).2) := by
  unfold handleConnStep
  dsimp only
  split
  · exact Or.inl ⟨_, rfl⟩
  · rename_i hne
    exact Or.inr ⟨_, _, hne, rfl, rfl, rfl⟩

theorem afterRead_cases (client : List UInt8) (inp : Input) (s : Conn) :
    (s.readingHeaders = true ∧ endOfHeaders s.data.bytes = -1 ∧ afterRead client inp s = ([], some s)) ∨
      (∃ req, s.readingHeaders = true ∧ parseHeaders (s.data.bytes ++ inp.beyond) s.req = (-1, req) ∧
        afterRead client inp s = ([.parsed (-1) req, .exited 1], none)) ∨
      (∃ req, s.readingHeaders = true ∧ parseHeaders (s.data.bytes ++ inp.beyond) s.req = (0, req) ∧
        afterRead client inp s =
          (.parsed 0 req :: .logged (logRequest client req s.resp) ::
              (dispatch inp { s with readingHeaders := false, req := req }).1,
            (dispatch inp { s with readingHeaders := false, req := req }).2)) ∨
      (s.readingHeaders = false ∧ afterRead client inp s = dispatch inp s) := by
  unfold afterRead
  cases hr : s.readingHeaders with
  | false => exact Or.inr (Or.inr (Or.inr ⟨rfl, by rw [if_neg (by decide)]⟩))
  | true =>
    rw [if_pos rfl]
    by_cases he : endOfHeaders s.data.bytes = -1
    · exact Or.inl ⟨rfl, he, by rw [if_pos he]⟩
    · rw [if_neg he]
      unfold parseHead
      rcases hp : parseHeaders (s.data.bytes ++ inp.beyond) s.req with ⟨ret, req⟩
      rcases parseHeaders_cases (s.data.bytes ++ inp.beyond) s.req with ⟨m, p, v, -, -, hok⟩ | ⟨hfail, -⟩
      · rw [hp] at hok
        obtain ⟨rfl, -⟩ := Prod.mk.inj hok
        exact Or.inr (Or.inr (Or.inl ⟨req, rfl, rfl, rfl⟩))
      · rw [hp] at hfail
        obtain rfl : ret = -1 := hfail
        exact Or.inr (Or.inl ⟨req, rfl, rfl, rfl⟩)

/-- The ways through an iteration. -/
theorem step_cases (client : List UInt8) (s : Conn) (inp : Input) :
    (∃ count, handleConnStep client s inp = ([.read count, .exited 1], none)) ∨
      ∃ count chunk, chunk ≠ [] ∧ chunk = received inp.read count ∧
        count = toSizeT (bytesToRead s.bytesRead) ∧
        ((s.readingHeaders = true ∧
            handleConnStep client s inp = ([.read count, .wrote .data chunk.length], some (s.receive chunk))) ∨
          (∃ req, s.readingHeaders = true ∧ handleConnStep client s inp =
            ([.read count, .wrote .data chunk.length, .parsed (-1) req, .exited 1], none)) ∨
          (∃ req, s.readingHeaders = true ∧ handleConnStep client s inp =
            (.read count :: .wrote .data chunk.length :: .parsed 0 req :: .logged (logRequest client req s.resp) ::
                (dispatch inp { s.receive chunk with readingHeaders := false, req := req }).1,
              (dispatch inp { s.receive chunk with readingHeaders := false, req := req }).2)) ∨
          (s.readingHeaders = false ∧ handleConnStep client s inp =
            (.read count :: .wrote .data chunk.length :: (dispatch inp (s.receive chunk)).1,
              (dispatch inp (s.receive chunk)).2))) := by
  rcases handleConnStep_cases client s inp with h | ⟨count, chunk, hne, hchunk, hcount, h⟩
  · exact Or.inl h
  refine Or.inr ⟨count, chunk, hne, hchunk, hcount, ?_⟩
  rw [h]
  rcases afterRead_cases client inp (s.receive chunk) with ⟨hr, -, ha⟩ | ⟨req, hr, -, ha⟩ | ⟨req, hr, -, ha⟩ | ⟨hr, ha⟩
  · exact Or.inl ⟨hr, by rw [ha]⟩
  · exact Or.inr (Or.inl ⟨req, hr, by rw [ha]⟩)
  · exact Or.inr (Or.inr (Or.inl ⟨req, hr, by rw [ha]; rfl⟩))
  · exact Or.inr (Or.inr (Or.inr ⟨hr, by rw [ha]⟩))

theorem step_parse (client : List UInt8) {s : Conn} {inp : Input} {chunk : List UInt8} (n : ℕ)
    (hn : s.bytesRead = n) (hfit : n + chunk.length ≤ bsize) (hread : inp.read = some chunk)
    (hne : chunk ≠ []) (hr : s.readingHeaders = true)
    (hend : endOfHeaders (s.receive chunk).data.bytes ≠ -1) :
    handleConnStep client s inp =
      (.read (bsize - n) :: .wrote .data chunk.length :: (parseHead client inp (s.receive chunk)).1,
        (parseHead client inp (s.receive chunk)).2) := by
  have hcount : toSizeT (bytesToRead s.bytesRead) = bsize - n := by
    rw [hn]
    exact bytesToRead_eq (by omega)
  have hchunk : received inp.read (bsize - n) = chunk := by
    rw [received, hread, Option.getD_some, List.take_of_length_le (by omega)]
  have hr' : (s.receive chunk).readingHeaders = true := hr
  simp only [handleConnStep, hcount, hchunk, if_neg hne, afterRead, hr', if_true, if_neg hend]

def parses (tr : List Event) : List (ℤ × HttpRequest) :=
  tr.filterMap fun
    | .parsed ret req => some (ret, req)
    | _ => none

def serves (tr : List Event) : List HttpRequest :=
  tr.filterMap fun
    | .served req => some req
    | _ => none

/-- The buffers handed to `send`. -/
def sends (tr : List Event) : List (List UInt8) :=
  tr.filterMap fun
    | .sentResponse data => some data
    | .sentBody data => some data
    | _ => none

def output (tr : List Event) : List UInt8 :=
  tr.flatMap fun
    | .sentResponse data => data
    | .sentBody data => data
    | _ => []

@[simp] theorem serves_nil : serves [] = [] := rfl

@[simp] theorem serves_cons (e : Event) (tr : List Event) :
    serves (e :: tr) = (match e with | .served req => [req] | _ => []) ++ serves tr := by
  cases e <;> rfl

@[simp] theorem serves_append (a b : List Event) : serves (a ++ b) = serves a ++ serves b :=
  List.filterMap_append

@[simp] theorem serves_serveFile (fopen : Fopen) (openFiles : ℕ) (req : HttpRequest) :
    serves (serveFile fopen openFiles req).events = [] := by
  apply List.filterMap_eq_nil_iff.mpr
  intro e he
  rcases mem_serveFile he with ⟨ok, rfl⟩ | ⟨data, rfl⟩ | ⟨data, rfl⟩ <;> rfl

@[simp] theorem serves_resetEvents : serves resetEvents = [] := rfl

@[simp] theorem parses_nil : parses [] = [] := rfl

@[simp] theorem parses_cons (e : Event) (tr : List Event) :
    parses (e :: tr) = (match e with | .parsed ret req => [(ret, req)] | _ => []) ++ parses tr := by
  cases e <;> rfl

@[simp] theorem parses_append (a b : List Event) : parses (a ++ b) = parses a ++ parses b :=
  List.filterMap_append

@[simp] theorem parses_serveFile (fopen : Fopen) (openFiles : ℕ) (req : HttpRequest) :
    parses (serveFile fopen openFiles req).events = [] := by
  apply List.filterMap_eq_nil_iff.mpr
  intro e he
  rcases mem_serveFile he with ⟨ok, rfl⟩ | ⟨data, rfl⟩ | ⟨data, rfl⟩ <;> rfl

@[simp] theorem parses_resetEvents : parses resetEvents = [] := rfl

@[simp] theorem sends_nil : sends [] = [] := rfl

@[simp] theorem sends_cons (e : Event) (tr : List Event) :
    sends (e :: tr) = (match e with | .sentResponse data => [data] | .sentBody data => [data] | _ => []) ++ sends tr := by
  cases e <;> rfl

@[simp] theorem sends_append (a b : List Event) : sends (a ++ b) = sends a ++ sends b :=
  List.filterMap_append

@[simp] theorem output_nil : output [] = [] := rfl

@[simp] theorem output_cons (e : Event) (tr : List Event) :
    output (e :: tr) = (match e with | .sentResponse data => data | .sentBody data => data | _ => []) ++ output tr := by
  cases e <;> rfl

@[simp] theorem output_append (a b : List Event) : output (a ++ b) = output a ++ output b :=
  List.flatMap_append

theorem output_flatten (ess : List (List Event)) : output ess.flatten = (ess.map output).flatten := by
  induction ess with
  | nil => rfl
  | cons es ess ih => simp [ih]

@[simp] theorem output_resetEvents : output resetEvents = [] := rfl

theorem output_bodies (bodies : List (List UInt8)) : output (bodies.map .sentBody) = bodies.flatten := by
  induction bodies with
  | nil => rfl
  | cons b bodies ih => simp [ih]

theorem dispatch_get_trace (inp : Input) {s : Conn} (h : s.req.method = some (ascii "GET")) :
    parses (dispatch inp s).1 = [] ∧ serves (dispatch inp s).1 = [s.req] ∧
      ∀ s', (dispatch inp s).2 = some s' → ∃ n, s' = Conn.reset n := by
  cases hret : (serveFile inp.fopen s.openFiles s.req).returns with
  | false => simp [dispatch_get_stuck h hret]
  | true => simp [dispatch_get inp h hret]

theorem dispatch_serves (inp : Input) (s : Conn) :
    (dispatch inp s = ([], some s)) ∨
      ∃ tail, serves tail = [] ∧ output tail = [] ∧
        (dispatch inp s).1 = .served s.req :: (serveFile inp.fopen s.openFiles s.req).events ++ tail ∧
        ∀ s', (dispatch inp s).2 = some s' → s' = Conn.reset (serveFile inp.fopen s.openFiles s.req).openFiles := by
  by_cases h : s.req.method = some (ascii "GET")
  · cases hret : (serveFile inp.fopen s.openFiles s.req).returns with
    | false => exact Or.inr ⟨[], by simp [dispatch_get_stuck h hret]⟩
    | true => exact Or.inr ⟨resetEvents, by simp [dispatch_get inp h hret]⟩
  · exact Or.inl (dispatch_other h)

/-- An iteration exits, or goes on reading, or ends in `dispatch`; it serves and sends
nothing outside `dispatch`. -/
theorem step_dispatches (client : List UInt8) (s : Conn) (inp : Input) :
    (∃ es, handleConnStep client s inp = (es, none) ∧ serves es = [] ∧ output es = [] ∧ .exited 1 ∈ es) ∨
      ∃ chunk, chunk ≠ [] ∧ chunk = received inp.read (toSizeT (bytesToRead s.bytesRead)) ∧
        ∃ es, (handleConnStep client s inp = (es, some (s.receive chunk)) ∨
            ∃ t, handleConnStep client s inp = (es ++ (dispatch inp t).1, (dispatch inp t).2) ∧
              t.bytesRead = (s.receive chunk).bytesRead ∧ t.openFiles = s.openFiles) ∧
          serves es = [] ∧ output es = [] := by
  rcases step_cases client s inp with ⟨count, h⟩ | ⟨count, chunk, hne, hchunk, hcount, hways⟩
  · exact Or.inl ⟨_, h, rfl, rfl, by simp⟩
  rw [hcount] at hchunk
  rcases hways with ⟨-, h⟩ | ⟨req, -, h⟩ | ⟨req, -, h⟩ | ⟨-, h⟩
  · exact Or.inr ⟨chunk, hne, hchunk, _, Or.inl h, rfl, rfl⟩
  · exact Or.inl ⟨_, h, rfl, rfl, by simp⟩
  · exact Or.inr ⟨chunk, hne, hchunk, [_, _, _, _], Or.inr ⟨_, h, rfl, rfl⟩, rfl, rfl⟩
  · exact Or.inr ⟨chunk, hne, hchunk, [_, _], Or.inr ⟨_, h, rfl, rfl⟩, rfl, rfl⟩

/-- An iteration serves one request or none, and sends what `serve_file` sends for it. -/
theorem step_serves (client : List UInt8) (s : Conn) (inp : Input) :
    (serves (handleConnStep client s inp).1 = [] ∧ output (handleConnStep client s inp).1 = [] ∧
        ∀ s', (handleConnStep client s inp).2 = some s' → s'.openFiles = s.openFiles) ∨
      ∃ req, serves (handleConnStep client s inp).1 = [req] ∧
        output (handleConnStep client s inp).1 = output (serveFile inp.fopen s.openFiles req).events ∧
        ∀ s', (handleConnStep client s inp).2 = some s' →
          s' = Conn.reset (serveFile inp.fopen s.openFiles req).openFiles := by
  rcases step_dispatches client s inp with ⟨es, h, hes, hout, -⟩ | ⟨chunk, -, -, es, h | ⟨t, h, -, ht⟩, hes, hout⟩
  · rw [h]
    exact Or.inl ⟨hes, hout, by simp⟩
  · rw [h]
    refine Or.inl ⟨hes, hout, fun s' hs' => ?_⟩
    obtain rfl := Option.some.inj hs'
    rfl
  · rw [h]
    rcases dispatch_serves inp t with hd | ⟨tail, htail, hotail, hd, hnext⟩
    · rw [hd]
      refine Or.inl ⟨by simpa using hes, by simpa using hout, fun s' hs' => ?_⟩
      obtain rfl := Option.some.inj hs'
      exact ht
    · rw [ht] at hd hnext
      exact Or.inr ⟨t.req, by simp [hd, hes, htail], by simp [hd, hout, hotail], hnext⟩

end CeeServe.Static
