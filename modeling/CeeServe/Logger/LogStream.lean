import CeeServe.Logger.Line
import CeeServe.Static.AccessLog

/-! # The log of a connection

What `__log` prints over a whole run of `handle_conn` is read back as one record for each
request that the parser accepted, in order, with none lost, none made up and none torn by
what a client sends. The status is that of `resp`, which is 0 from the first reset on.
-/
namespace CeeServe.Logger
open CString Parse Static Framing

/-- The messages of a trace. -/
def logged (tr : List Event) : List (List UInt8) :=
  tr.filterMap fun
    | .logged message => some message
    | _ => none

def recordOf (address : Address) (status : ℤ) (req : HttpRequest) : LogRecord where
  version := Response.cArg req.version
  address := address
  method := Response.cArg req.method
  status := status
  path := Response.cArg req.path

/-- The records of the requests that a trace accepts, where `resp` holds the status at
first and the reset behind a served request clears it. -/
def accepted (address : Address) : ℤ → List Event → List LogRecord
  | _, [] => []
  | status, .parsed ret req :: tr =>
    if ret = 0 then recordOf address status req :: accepted address status tr else accepted address status tr
  | _, .served _ :: tr => accepted address 0 tr
  | status, _ :: tr => accepted address status tr

@[simp] theorem logged_nil : logged [] = [] := rfl

@[simp] theorem logged_cons (e : Event) (tr : List Event) :
    logged (e :: tr) = (match e with | .logged message => [message] | _ => []) ++ logged tr := by
  cases e <;> rfl

@[simp] theorem logged_append (a b : List Event) : logged (a ++ b) = logged a ++ logged b :=
  List.filterMap_append

theorem logRequest_eq (address : Address) (req : HttpRequest) (resp : HttpResponse) :
    logRequest (inetNtoa address) req resp = (recordOf address resp.statusCode req).message := by
  rw [message_eq]
  rfl

/-- Events that log nothing, followed by a trace, are passed over; the status is that
behind them. -/
structure Silent (address : Address) (es : List Event) (status status' : ℤ) : Prop where
  logged : logged es = []
  accepted : ∀ tr, accepted address status (es ++ tr) = accepted address status' tr

theorem silent_bodies (address : Address) (bodies : List (List UInt8)) (status : ℤ) :
    Silent address (bodies.map .sentBody) status status := by
  induction bodies with
  | nil => exact ⟨rfl, fun _ => rfl⟩
  | cons b bodies ih => exact ⟨ih.logged, ih.accepted⟩

theorem silent_serveFile (address : Address) (fopen : Fopen) (openFiles : ℕ) (req : HttpRequest) (status : ℤ) :
    Silent address (serveFile fopen openFiles req).events status status := by
  obtain ⟨ok, head, bodies, hshape⟩ := serveFile_shape fopen openFiles req
  obtain ⟨hlogged, haccepted⟩ := silent_bodies address bodies status
  rw [hshape]
  exact ⟨hlogged, haccepted⟩

theorem silent_dispatch (address : Address) (inp : Input) (s : Conn) :
    ∃ status, Silent address (dispatch inp s).1 s.resp.statusCode status ∧
      ∀ s', (dispatch inp s).2 = some s' → s'.resp.statusCode = status := by
  by_cases hget : s.req.method = some (ascii "GET")
  · obtain ⟨hlogged, haccepted⟩ := silent_serveFile address inp.fopen s.openFiles s.req 0
    refine ⟨0, ?_⟩
    cases hret : (serveFile inp.fopen s.openFiles s.req).returns with
    | true =>
      rw [dispatch_get inp hget hret]
      refine ⟨⟨by simp [hlogged, resetEvents], fun tr => ?_⟩, fun s' hs' => ?_⟩
      · have hreset : accepted address 0 (resetEvents ++ tr) = accepted address 0 tr := rfl
        simp only [List.cons_append, List.append_assoc, accepted, haccepted, hreset]
      · obtain rfl := Option.some.inj hs'
        rfl
    | false =>
      rw [dispatch_get_stuck hget hret]
      exact ⟨⟨hlogged, haccepted⟩, by simp⟩
  · rw [dispatch_other hget]
    refine ⟨s.resp.statusCode, ⟨rfl, fun _ => rfl⟩, fun s' hs' => ?_⟩
    obtain rfl := Option.some.inj hs'
    rfl

/-- What an iteration adds to the log, whatever the run goes on with. -/
structure Adds (address : Address) (s : Conn) (r : List Event × Option Conn) (here : List LogRecord) : Prop where
  worded : ∀ record ∈ here, Worded record
  logged : logged r.1 = here.map LogRecord.message
  accepted : ∃ status, (∀ tr, accepted address s.resp.statusCode (r.1 ++ tr) = here ++ accepted address status tr) ∧
    ∀ s', r.2 = some s' → s'.resp.statusCode = status

theorem afterRead_adds (address : Address) (inp : Input) (s : Conn) :
    ∃ here, Adds address s (afterRead (inetNtoa address) inp s) here := by
  rcases afterRead_cases (inetNtoa address) inp s with ⟨-, -, h⟩ | ⟨req, -, -, h⟩ | ⟨req, -, hparse, h⟩ | ⟨-, h⟩
  · rw [h]
    refine ⟨[], by simp, rfl, s.resp.statusCode, fun _ => rfl, fun s' hs' => ?_⟩
    rw [← Option.some.inj hs']
  · rw [h]
    exact ⟨[], by simp, rfl, s.resp.statusCode, fun _ => rfl, by simp⟩
  · obtain ⟨status, hsilent, hnext⟩ :=
      silent_dispatch address inp { s with readingHeaders := false, req := req }
    obtain ⟨m, p, v, hm, hp, hv, hworded⟩ := worded_accepted (congrArg Prod.fst hparse)
    rw [hparse] at hm hp hv
    have hrecord : recordOf address s.resp.statusCode req = ⟨v, address, m, s.resp.statusCode, p⟩ := by
      simp [recordOf, Response.cArg, show req.method = some m from hm, show req.path = some p from hp,
        show req.version = some v from hv]
    rw [h]
    refine ⟨[recordOf address s.resp.statusCode req], ?_, ?_, status, fun tr => ?_, hnext⟩
    · rw [hrecord]
      simpa using hworded address s.resp.statusCode
    · simp [logRequest_eq, hsilent.logged]
    · simp [accepted, hsilent.accepted tr]
  · obtain ⟨status, hsilent, hnext⟩ := silent_dispatch address inp s
    rw [h]
    exact ⟨[], by simp, hsilent.logged, status, hsilent.accepted, hnext⟩

theorem step_adds (address : Address) (s : Conn) (inp : Input) :
    ∃ here, Adds address s (handleConnStep (inetNtoa address) s inp) here := by
  rcases handleConnStep_cases (inetNtoa address) s inp with ⟨count, h⟩ | ⟨count, chunk, -, -, -, h⟩
  · rw [h]
    exact ⟨[], by simp, rfl, s.resp.statusCode, fun _ => rfl, by simp⟩
  · obtain ⟨here, hworded, hlogged, status, haccepted, hnext⟩ := afterRead_adds address inp (s.receive chunk)
    rw [h]
    exact ⟨here, hworded, by simpa using hlogged, status, haccepted, hnext⟩

/-- The messages of a run are those of the requests it accepts. -/
theorem run_logged (address : Address) (s : Conn) (inputs : List Input) :
    (∀ record ∈ accepted address s.resp.statusCode (handleConn (inetNtoa address) s inputs).1, Worded record) ∧
      logged (handleConn (inetNtoa address) s inputs).1 =
        (accepted address s.resp.statusCode (handleConn (inetNtoa address) s inputs).1).map LogRecord.message := by
  apply Machine.run_trace (T := fun (s : Conn) tr => (∀ record ∈ accepted address s.resp.statusCode tr, Worded record) ∧
    logged tr = (accepted address s.resp.statusCode tr).map LogRecord.message)
  · exact fun s => ⟨by simp [accepted], rfl⟩
  · intro s inp es hstep
    obtain ⟨here, hworded, hlogged, status, haccepted, -⟩ := step_adds address s inp
    rw [hstep] at hlogged haccepted
    have hall := haccepted []
    rw [List.append_nil] at hall
    rw [hall]
    simpa [accepted] using And.intro hworded hlogged
  · intro s inp es s' tr hstep htr
    obtain ⟨here, hworded, hlogged, status, haccepted, hnext⟩ := step_adds address s inp
    rw [hstep] at hlogged haccepted hnext
    obtain rfl := hnext s' rfl
    rw [haccepted, logged_append, List.map_append, hlogged, htr.2]
    refine ⟨fun record hrecord => ?_, rfl⟩
    rcases List.mem_append.mp hrecord with hrecord | hrecord
    · exact hworded record hrecord
    · exact htr.1 record hrecord

/-- For every run and whatever times the calls of `logger` read: the text printed is
defined, and decodes to one line for each accepted request, in order, with the time, the
tag and the record of that request. -/
theorem log_reads_back (address : Address) (s : Conn) (inputs : List Input) {calls : List (Tm × List UInt8)}
    (hcalls : calls.map Prod.snd = logged (handleConn (inetNtoa address) s inputs).1) :
    ∃ text lines, logAll calls = some text ∧ decode nextLine text = some lines ∧
      lines.map LogLine.time = calls.map Prod.fst ∧ (∀ line ∈ lines, line.tag = ascii "staticserver") ∧
      lines.map (fun line => readLog line.message) =
        (accepted address s.resp.statusCode (handleConn (inetNtoa address) s inputs).1).map some := by
  obtain ⟨hworded, hlogged⟩ := run_logged address s inputs
  have hbreak : ∀ call ∈ calls, lf ∉ call.2 := by
    intro call hcall hlf
    have hmem : call.2 ∈ calls.map Prod.snd := List.mem_map_of_mem hcall
    rw [hcalls, hlogged] at hmem
    obtain ⟨record, hrecord, hmessage⟩ := List.mem_map.mp hmem
    rw [← hmessage] at hlf
    rcases (hworded record hrecord).mem_message hlf with h | ⟨h, -⟩ <;> exact absurd h (by decide)
  obtain ⟨lines, htext, hlines⟩ := logAll_lines hbreak
  refine ⟨lines.flatten, _, htext, decode_encoded hlines, by simp [Function.comp_def], fun line hline => ?_, ?_⟩
  · obtain ⟨call, -, rfl⟩ := List.mem_map.mp hline
    rfl
  have hread : ∀ record ∈ accepted address s.resp.statusCode (handleConn (inetNtoa address) s inputs).1,
      readLog record.message = some record := fun record hrecord => (hworded record hrecord).readLog_message
  rw [List.map_map, ← List.map_congr_left hread]
  have hmessages := congrArg (List.map readLog) (hcalls.trans hlogged)
  simpa [Function.comp_def] using hmessages

/-- The request for a missing file, logged at the Epoch. -/
theorem log_reads_back_missing :
    ∃ text lines,
      logAll ((logged (handleConn (inetNtoa localhost) (Conn.reset 0) missingInputs).1).map fun m => (epoch, m)) =
          some text ∧
        decode nextLine text = some lines ∧
          lines.map LogLine.time =
            ((logged (handleConn (inetNtoa localhost) (Conn.reset 0) missingInputs).1).map fun m => (epoch, m)).map
              Prod.fst ∧
          (∀ line ∈ lines, line.tag = ascii "staticserver") ∧
          lines.map (fun line => readLog line.message) =
            (accepted localhost 0 (handleConn (inetNtoa localhost) (Conn.reset 0) missingInputs).1).map some :=
  log_reads_back localhost (Conn.reset 0) missingInputs (by simp [Function.comp_def])

end CeeServe.Logger
