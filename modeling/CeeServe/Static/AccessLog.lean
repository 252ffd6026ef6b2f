import CeeServe.Static.HeaderChoice
import CeeServe.Static.Serving

/-! # The access log

`log_request` formats one line for each accepted request. Nothing a request can hold adds
a line to it or a field to a line, and the fields can be read back. The status it prints
is that of a local which nothing sets to the status of the answer.
-/
namespace CeeServe.Static
open CString Decimal Parse RequestLine Response

/-- An IPv4 address, its octets in the order they are written. -/
structure Address where
  a : UInt8
  b : UInt8
  c : UInt8
  d : UInt8
deriving DecidableEq, Repr

def Address.octets (address : Address) : List UInt8 := [address.a, address.b, address.c, address.d]

/-- The dotted quad of an address. -/
def inetNtoa (address : Address) : List UInt8 :=
  [dot].intercalate (address.octets.map fun octet => decimal octet.toNat)

def vt : UInt8 := 11
def ff : UInt8 := 12

/-- `char client[200]` and `char logmsg[3000]`. -/
def clientSize : ℕ := 200
def logmsgSize : ℕ := 3000

structure LogRecord where
  version : List UInt8
  address : Address
  method : List UInt8
  status : ℤ
  path : List UInt8
deriving DecidableEq, Repr

def ofInetNtoa (client : List UInt8) : Option Address :=
  match (client.splitOn dot).map fun octet => UInt8.ofNat (ofDecimal octet) with
  | [a, b, c, d] => some ⟨a, b, c, d⟩
  | _ => none

def readLog (message : List UInt8) : Option LogRecord :=
  match message.splitOn sp with
  | [version, client, method, status, path] =>
    (ofInetNtoa client).map fun address => ⟨version, address, method, ofDecimalInt status, path⟩
  | _ => none

/-- A message that fits its buffers, is one line of five fields and determines its record. -/
structure OneRecord (record : LogRecord) (message : List UInt8) : Prop where
  length_le : message.length + 1 ≤ 2176
  message_fits : message.length + 1 ≤ logmsgSize
  client_fits : (inetNtoa record.address).length + 1 ≤ clientSize
  one_line : ∀ c ∈ message, c ≠ lf ∧ c ≠ cr ∧ c ≠ vt ∧ c ≠ ff
  terminated : nul ∉ message
  fields : message.splitOn sp =
    [record.version, inetNtoa record.address, record.method, decimalInt record.status, record.path]
  recovered : readLog message = some record

theorem length_octet_le (octet : UInt8) : (decimal octet.toNat).length ≤ 3 :=
  length_decimal_le (by decide) (by have := octet.toNat_lt; omega)

theorem decimal_word {n : ℕ} {c : UInt8} (hc : c ∈ decimal n) : isspace c = false ∧ c ≠ nul :=
  decimalInt_word (z := n) hc

theorem inetNtoa_eq (address : Address) :
    inetNtoa address = decimal address.a.toNat ++ dot :: (decimal address.b.toNat ++
      dot :: (decimal address.c.toNat ++ dot :: decimal address.d.toNat)) := by
  simp [inetNtoa, Address.octets, List.intercalate]

theorem length_inetNtoa_le (address : Address) : (inetNtoa address).length ≤ 15 := by
  have ha := length_octet_le address.a
  have hb := length_octet_le address.b
  have hc := length_octet_le address.c
  have hd := length_octet_le address.d
  simp only [inetNtoa_eq, List.length_append, List.length_cons]
  omega

theorem inetNtoa_word {address : Address} {c : UInt8} (hc : c ∈ inetNtoa address) : isspace c = false ∧ c ≠ nul := by
  have hdot : isspace dot = false ∧ dot ≠ nul := by decide
  simp only [inetNtoa_eq, List.mem_append, List.mem_cons] at hc
  rcases hc with hc | rfl | hc | rfl | hc | rfl | hc
  · exact decimal_word hc
  · exact hdot
  · exact decimal_word hc
  · exact hdot
  · exact decimal_word hc
  · exact hdot
  · exact decimal_word hc

theorem ofInetNtoa_inetNtoa (address : Address) : ofInetNtoa (inetNtoa address) = some address := by
  have hdot : ∀ l ∈ address.octets.map fun octet => decimal octet.toNat, dot ∉ l := by
    intro l hl hm
    obtain ⟨octet, -, rfl⟩ := List.mem_map.mp hl
    exact absurd (mem_decimal hm).1 (by decide)
  have hback : ∀ octet : UInt8, UInt8.ofNat (ofDecimal (decimal octet.toNat)) = octet := by
    intro octet
    rw [ofDecimal_decimal, UInt8.ofNat_toNat]
  have hsplit : (inetNtoa address).splitOn dot = address.octets.map fun octet => decimal octet.toNat :=
    List.splitOn_intercalate dot hdot (by simp [Address.octets])
  rw [ofInetNtoa, hsplit, List.map_map]
  simp [Address.octets, hback]

def LogRecord.fields (record : LogRecord) : List (List UInt8) :=
  [record.version, inetNtoa record.address, record.method, decimalInt record.status, record.path]

def LogRecord.message (record : LogRecord) : List UInt8 := [sp].intercalate record.fields

/-- The three fields that come from a request are words within the widths of the format. -/
structure Worded (record : LogRecord) : Prop where
  version : ∀ c ∈ record.version, isspace c = false ∧ c ≠ nul
  method : ∀ c ∈ record.method, isspace c = false ∧ c ≠ nul
  path : ∀ c ∈ record.path, isspace c = false ∧ c ≠ nul
  version_le : record.version.length ≤ 49
  method_le : record.method.length ≤ 49
  path_le : record.path.length ≤ 2047

theorem message_eq (record : LogRecord) :
    record.message = record.version ++ sp :: inetNtoa record.address ++ sp :: record.method ++
      sp :: decimalInt record.status ++ sp :: record.path := by
  simp [LogRecord.message, LogRecord.fields, List.intercalate]

namespace Worded
variable {record : LogRecord} (h : Worded record)
include h

theorem field_word : ∀ f ∈ record.fields, ∀ c ∈ f, isspace c = false ∧ c ≠ nul := by
  intro f hf c hc
  simp only [LogRecord.fields, List.mem_cons, List.not_mem_nil, or_false] at hf
  rcases hf with rfl | rfl | rfl | rfl | rfl
  · exact h.version c hc
  · exact inetNtoa_word hc
  · exact h.method c hc
  · exact decimalInt_word hc
  · exact h.path c hc

theorem mem_message {c : UInt8} (hc : c ∈ record.message) : c = sp ∨ isspace c = false ∧ c ≠ nul := by
  have hfield := h.field_word
  simp only [LogRecord.fields, List.mem_cons, List.not_mem_nil, or_false, forall_eq_or_imp, forall_eq] at hfield
  obtain ⟨hversion, haddress, hmethod, hstatus, hpath⟩ := hfield
  simp only [message_eq, List.mem_append, List.mem_cons] at hc
  rcases hc with (((hc | hc | hc) | hc | hc) | hc | hc) | hc | hc
  · exact Or.inr (hversion c hc)
  · exact Or.inl hc
  · exact Or.inr (haddress c hc)
  · exact Or.inl hc
  · exact Or.inr (hmethod c hc)
  · exact Or.inl hc
  · exact Or.inr (hstatus c hc)
  · exact Or.inl hc
  · exact Or.inr (hpath c hc)

theorem splitOn_message : record.message.splitOn sp = record.fields := by
  apply List.splitOn_intercalate sp
  · intro f hf hsp
    exact absurd (h.field_word f hf sp hsp).1 (by decide)
  · exact List.cons_ne_nil _ _

theorem readLog_message : readLog record.message = some record := by
  rw [readLog, h.splitOn_message]
  simp [LogRecord.fields, ofInetNtoa_inetNtoa, ofDecimalInt_decimalInt]

theorem length_message_le (hlo : -2 ^ 31 ≤ record.status) (hhi : record.status < 2 ^ 31) :
    record.message.length + 1 ≤ 2176 := by
  have hversion := h.version_le
  have hmethod := h.method_le
  have hpath := h.path_le
  have haddress := length_inetNtoa_le record.address
  have hstatus := length_decimalInt_int hlo hhi
  simp only [message_eq, List.length_append, List.length_cons]
  omega

theorem oneRecord (hlo : -2 ^ 31 ≤ record.status) (hhi : record.status < 2 ^ 31) :
    OneRecord record record.message := by
  have hlength := h.length_message_le hlo hhi
  have haddress := length_inetNtoa_le record.address
  refine ⟨hlength, hlength.trans (by decide), by simp only [clientSize]; omega, fun c hc => ?_, fun hnul => ?_,
    h.splitOn_message, h.readLog_message⟩
  · rcases h.mem_message hc with rfl | ⟨hword, -⟩
    · decide
    · refine ⟨?_, ?_, ?_, ?_⟩ <;>
      · rintro rfl
        exact absurd hword (by decide)
  · rcases h.mem_message hnul with hsp | ⟨-, hne⟩
    · exact absurd hsp (by decide)
    · exact hne rfl

end Worded

theorem worded_accepted {request : List UInt8} {req : HttpRequest} (hacc : (parseHeaders request req).1 = 0) :
    ∃ m p v, (parseHeaders request req).2.method = some m ∧ (parseHeaders request req).2.path = some p ∧
      (parseHeaders request req).2.version = some v ∧ ∀ address status, Worded ⟨v, address, m, status, p⟩ := by
  rcases parseHeaders_cases request req with ⟨m, p, v, ht, -, hparse⟩ | ⟨hfail, -⟩
  · rw [hparse]
    obtain ⟨hm, hp, hv⟩ := tokens_le ht
    have hword : ∀ t ∈ [m, p, v], ∀ c ∈ t, isspace c = false ∧ c ≠ nul := by
      intro t htok c hc
      rw [← ht] at htok
      exact tokens_word htok hc
    exact ⟨m, p, v, rfl, rfl, rfl, fun address status =>
      ⟨hword v (by simp), hword m (by simp), hword p (by simp), hv, hm, hp⟩⟩
  · rw [hfail] at hacc
    cases hacc

/-- For every accepted request, every address and every `int` status, the message of
`log_request` is one record that can be read back. -/
theorem logRequest_record {request : List UInt8} {req : HttpRequest} (hacc : (parseHeaders request req).1 = 0)
    (address : Address) {resp : HttpResponse} (hlo : -2 ^ 31 ≤ resp.statusCode) (hhi : resp.statusCode < 2 ^ 31) :
    ∃ m p v, (parseHeaders request req).2.method = some m ∧ (parseHeaders request req).2.path = some p ∧
      (parseHeaders request req).2.version = some v ∧
      OneRecord ⟨v, address, m, resp.statusCode, p⟩
        (logRequest (inetNtoa address) (parseHeaders request req).2 resp) := by
  obtain ⟨m, p, v, hm, hp, hv, hworded⟩ := worded_accepted hacc
  have hmessage : logRequest (inetNtoa address) (parseHeaders request req).2 resp =
      LogRecord.message ⟨v, address, m, resp.statusCode, p⟩ := by
    rw [message_eq, logRequest, hm, hp, hv]
    rfl
  rw [hmessage]
  exact ⟨m, p, v, hm, hp, hv, (hworded address resp.statusCode).oneRecord hlo hhi⟩

theorem logRequest_record_plain :
    ∃ m p v, (parseHeaders (ascii "GET / H\r\n\r\n") HttpRequest.zero).2.method = some m ∧
      (parseHeaders (ascii "GET / H\r\n\r\n") HttpRequest.zero).2.path = some p ∧
      (parseHeaders (ascii "GET / H\r\n\r\n") HttpRequest.zero).2.version = some v ∧
      OneRecord ⟨v, ⟨127, 0, 0, 1⟩, m, 0, p⟩ (logRequest (inetNtoa ⟨127, 0, 0, 1⟩)
        (parseHeaders (ascii "GET / H\r\n\r\n") HttpRequest.zero).2 HttpResponse.zero) := by
  have hacc : (parseHeaders (ascii "GET / H\r\n\r\n") HttpRequest.zero).1 = 0 := by decide +kernel
  have hlo : -2 ^ 31 ≤ HttpResponse.zero.statusCode := by decide
  have hhi : HttpResponse.zero.statusCode < 2 ^ 31 := by decide
  exact logRequest_record hacc ⟨127, 0, 0, 1⟩ hlo hhi

/-- The first response head sent before the next request is served. -/
def headSent : List Event → Option (List UInt8)
  | [] => none
  | .sentResponse head :: _ => some head
  | .served _ :: _ => none
  | _ :: tr => headSent tr

/-- For each request served, the message logged last in its iteration and the head sent
for it; the first argument is the message logged since the last `read`. -/
def records : Option (List UInt8) → List Event → List (Option (List UInt8) × Option (List UInt8))
  | _, [] => []
  | _, .read _ :: tr => records none tr
  | _, .logged message :: tr => records (some message) tr
  | last, .served _ :: tr => (last, headSent tr) :: records last tr
  | last, _ :: tr => records last tr

/-- The status a client reads in a response head. -/
def sentStatus (head : List UInt8) : Option ℕ := (headLines head).head?.bind statusOf

/-- The message tells the status of the head. -/
def TellsTruth (r : Option (List UInt8) × Option (List UInt8)) : Prop :=
  ∃ message head record code, r.1 = some message ∧ r.2 = some head ∧ readLog message = some record ∧
    sentStatus head = some code ∧ record.status = (code : ℤ)

/-- Each request served is logged with the status of its answer. -/
def Truthful (tr : List Event) : Prop := ∀ r ∈ records none tr, TellsTruth r

/-- The status of the answer that `serve_file` gives. -/
def answerStatus (fopen : Fopen) (openFiles : ℕ) (req : HttpRequest) : ℕ :=
  if (fopen openFiles (fname (req.path.getD []))).isSome then 200 else 404

/-- An iteration that serves a request finds the status of its answer in `resp` already. -/
def StatusHeld (s : Conn) (inp : Input) : Prop :=
  ∀ req, Serving s inp req → s.resp.statusCode = answerStatus inp.fopen s.openFiles req

theorem serveFile_status (fopen : Fopen) (openFiles : ℕ) (req : HttpRequest) :
    ∃ (ok : Bool) (head : List UInt8) (bodies : List (List UInt8)), (serveFile fopen openFiles req).events =
        .fopened (fname (req.path.getD [])) ok :: .sentResponse head :: bodies.map .sentBody ∧
      sentStatus head = some (answerStatus fopen openFiles req) := by
  unfold answerStatus
  cases h : fopen openFiles (fname (req.path.getD [])) with
  | none =>
    have hstatus : sentStatus (resptostr notFoundResponse) = some 404 := by decide +kernel
    exact ⟨false, resptostr notFoundResponse, [], by rw [serveFile_none h]; rfl, hstatus⟩
  | some file =>
    have hok : statusOf (ascii "HTTP/1.1 200 OK") = some 200 := by decide +kernel
    refine ⟨true, resptostr (fileResponse (fname (req.path.getD [])) file.size), (bodyLoop false file.freads).1,
      by rw [serveFile_some h], ?_⟩
    rw [sentStatus, headLines_file, List.head?_cons, Option.bind_some, hok]
    rfl

/-- A trace that is empty or begins with a `read`, as that of every run does. -/
def StartsRead (tr : List Event) : Prop := tr = [] ∨ ∃ count rest, tr = .read count :: rest

theorem run_startsRead (client : List UInt8) (s : Conn) (inputs : List Input) :
    StartsRead (handleConn client s inputs).1 := by
  cases inputs with
  | nil => exact Or.inl rfl
  | cons inp inputs =>
    obtain ⟨es, hes⟩ := step_reads client s inp
    rcases h : handleConnStep client s inp with ⟨es', _ | s'⟩
    · rw [h] at hes
      exact Or.inr ⟨_, es, by rw [handleConn, Machine.run_cons_stop h]; exact hes⟩
    · rw [h] at hes
      refine Or.inr ⟨toSizeT (bytesToRead s.bytesRead), es ++ (handleConn client s' inputs).1, ?_⟩
      rw [handleConn, Machine.run_cons_next h, show es' = _ from hes]
      rfl

theorem records_startsRead {tr : List Event} (h : StartsRead tr) (last : Option (List UInt8)) :
    records last tr = records none tr := by
  rcases h with rfl | ⟨count, rest, rfl⟩ <;> rfl

theorem records_idle {chunk : List UInt8} {es tr : List Event} (hes : ∀ e ∈ es, Idle chunk e) (htr : StartsRead tr)
    (last : Option (List UInt8)) : records last (es ++ tr) = records none tr := by
  induction es generalizing last with
  | nil => exact records_startsRead htr last
  | cons e es ih =>
    obtain ⟨he, hrest⟩ := List.forall_mem_cons.mp hes
    cases e with
    | read count => exact ih hrest none
    | wrote object extent => exact ih hrest last
    | parsed ret req => exact ih hrest last
    | logged message => exact ih hrest (some message)
    | exited code => exact ih hrest last
    | served req => cases he
    | fopened name ok => cases he
    | sentResponse head => cases he
    | sentBody data => cases he

theorem records_bodies (bodies : List (List UInt8)) (tr : List Event) (last : Option (List UInt8)) :
    records last (bodies.map .sentBody ++ tr) = records last tr := by
  induction bodies with
  | nil => rfl
  | cons b bodies ih => exact ih

/-- The record of an iteration that serves a request, whatever follows its reset. -/
theorem records_serving (client : List UInt8) (s : Conn) (inp : Input) (req : HttpRequest) :
    ∃ head, sentStatus head = some (answerStatus inp.fopen s.openFiles req) ∧
      ∀ tr, StartsRead tr → ∀ es, es = resetEvents ∨ es = [] →
        records none (servingEvents client s inp req ++ es ++ tr) =
          (some (logRequest client req s.resp), some head) :: records none tr := by
  obtain ⟨ok, head, bodies, hshape, hstatus⟩ := serveFile_status inp.fopen s.openFiles req
  refine ⟨head, hstatus, fun tr htr es hes => ?_⟩
  have hreset : records (some (logRequest client req s.resp)) (es ++ tr) = records none tr := by
    rcases hes with rfl | rfl
    · exact records_startsRead htr _
    · exact records_startsRead htr _
  have hbodies := records_bodies bodies (es ++ tr) (some (logRequest client req s.resp))
  rw [hreset] at hbodies
  rw [servingEvents, hshape, ← hbodies]
  simp [records, headSent]

theorem readLog_logRequest {request : List UInt8} {req : HttpRequest} (hacc : (parseHeaders request req).1 = 0)
    (address : Address) (resp : HttpResponse) :
    ∃ record, readLog (logRequest (inetNtoa address) (parseHeaders request req).2 resp) = some record ∧
      record.status = resp.statusCode := by
  obtain ⟨m, p, v, hm, hp, hv, hworded⟩ := worded_accepted hacc
  refine ⟨⟨v, address, m, resp.statusCode, p⟩, ?_, rfl⟩
  rw [← (hworded address resp.statusCode).readLog_message, message_eq, logRequest, hm, hp, hv]
  rfl

theorem tellsTruth_iff {s : Conn} {inp : Input} {req : HttpRequest} (h : Serving s inp req) (address : Address)
    {head : List UInt8} {code : ℕ} (hhead : sentStatus head = some code) :
    TellsTruth (some (logRequest (inetNtoa address) req s.resp), some head) ↔ s.resp.statusCode = (code : ℤ) := by
  have hacc := congrArg Prod.fst h.parses
  obtain ⟨record, hread, hstatus⟩ := readLog_logRequest hacc address s.resp
  rw [h.parses] at hread
  constructor
  · rintro ⟨message, head', record', code', hmessage, hhead', hread', hcode', heq⟩
    obtain rfl := Option.some.inj hmessage
    obtain rfl := Option.some.inj hhead'
    obtain rfl := Option.some.inj (hread.symm.trans hread')
    obtain rfl := Option.some.inj (hhead.symm.trans hcode')
    rw [← hstatus, heq]
  · intro heq
    exact ⟨_, _, record, code, rfl, rfl, hread, hhead, hstatus.trans heq⟩

theorem statusHeld_iff {s : Conn} {inp : Input} {req : HttpRequest} (h : Serving s inp req) :
    StatusHeld s inp ↔ s.resp.statusCode = answerStatus inp.fopen s.openFiles req := by
  constructor
  · exact fun hheld => hheld req h
  · intro heq req' h'
    rw [← h.unique h']
    exact heq

/-- One iteration, whatever the run goes on with. -/
theorem step_truthful (address : Address) {s : Conn} {inp : Input} (hs : NoGetPending s) {es : List Event}
    {o : Option Conn} (hstep : handleConnStep (inetNtoa address) s inp = (es, o)) {tr : List Event}
    (htr : StartsRead tr) : Truthful (es ++ tr) ↔ StatusHeld s inp ∧ Truthful tr := by
  by_cases hserving : ∃ req, Serving s inp req
  · obtain ⟨req, h⟩ := hserving
    obtain ⟨head, hhead, hrecords⟩ := records_serving (inetNtoa address) s inp req
    obtain ⟨rest, hrest, rfl⟩ : ∃ rest, (rest = resetEvents ∨ rest = []) ∧
        es = servingEvents (inetNtoa address) s inp req ++ rest := by
      rcases step_serving (inetNtoa address) h with ⟨-, heq⟩ | ⟨-, heq⟩
      · rw [hstep] at heq
        exact ⟨resetEvents, Or.inl rfl, (Prod.mk.inj heq).1⟩
      · rw [hstep] at heq
        exact ⟨[], Or.inr rfl, by rw [(Prod.mk.inj heq).1, List.append_nil]⟩
    rw [Truthful, hrecords tr htr rest hrest, List.forall_mem_cons, tellsTruth_iff h address hhead, statusHeld_iff h]
    exact Iff.rfl
  · have hnot : NotServing s inp := fun req h => hserving ⟨req, h⟩
    have hidle := idle_events (inetNtoa address) hs hnot hstep
    have hheld : StatusHeld s inp := fun req h => absurd h (hnot req)
    rw [Truthful, records_idle hidle htr]
    exact (and_iff_right hheld).symm

theorem step_noGetPending (client : List UInt8) {s s' : Conn} {inp : Input} (hs : NoGetPending s)
    (hnext : (handleConnStep client s inp).2 = some s') : NoGetPending s' :=
  (step_accounted client inp hs accounted_nil).2 s' hnext

theorem run_truthful_iff (address : Address) {s : Conn} (hs : NoGetPending s) (inputs : List Input) :
    Truthful (handleConn (inetNtoa address) s inputs).1 ↔
      Machine.Along (handleConnStep (inetNtoa address)) StatusHeld s inputs := by
  have hnil : Truthful [] := by
    intro r hr
    cases hr
  apply Machine.run_iff_along (I := NoGetPending) hnil _ _ hs
  · intro s inp es hs hstep
    have h := step_truthful address hs hstep (Or.inl rfl)
    rw [List.append_nil] at h
    exact h.trans (and_iff_left hnil)
  · intro s inp es s' hs hstep
    exact ⟨step_noGetPending _ hs (congrArg Prod.snd hstep), fun is =>
      step_truthful address hs hstep (run_startsRead _ _ is)⟩

/-- With a status of 0, as after every reset, no request is logged with the status of its
answer. -/
theorem along_statusHeld_zero (client : List UInt8) {s : Conn} (hs : NoGetPending s) (hzero : s.resp.statusCode = 0)
    (inputs : List Input) :
    Machine.Along (handleConnStep client) StatusHeld s inputs ↔
      Machine.Along (handleConnStep client) NotServing s inputs := by
  refine Machine.along_congr (I := fun s => NoGetPending s ∧ s.resp.statusCode = 0) ?_ ?_ ⟨hs, hzero⟩ inputs
  · rintro s inp s' ⟨hs, hzero⟩ hnext
    refine ⟨step_noGetPending client hs hnext, ?_⟩
    by_cases hserving : ∃ req, Serving s inp req
    · obtain ⟨req, h⟩ := hserving
      rcases step_serving client h with ⟨-, heq⟩ | ⟨-, heq⟩
      · rw [heq] at hnext
        obtain rfl := Option.some.inj hnext
        rfl
      · rw [heq] at hnext
        cases hnext
    · obtain ⟨next, -, hidle⟩ := step_idle hs (fun req h => hserving ⟨req, h⟩)
      obtain ⟨es, -, heq⟩ := hidle client s.resp
      rw [show handleConnStep client s inp = _ from heq] at hnext
      obtain ⟨p, -, rfl⟩ := Option.map_eq_some_iff.mp hnext
      exact hzero
  · rintro s inp ⟨-, hzero⟩
    refine ⟨fun hheld req h => ?_, fun hnot req h => absurd h (hnot req)⟩
    have hstatus := hheld req h
    rw [hzero, answerStatus] at hstatus
    split at hstatus <;> cases hstatus

theorem noGetPending_fresh {s : Conn} (hs : Fresh s) : NoGetPending s := (budget_fresh hs).pending

/-- In every run from the start of a connection: the log tells the truth exactly when each
step that serves a request finds the status of its answer in `resp` already, and whatever
`resp` held at the start only when no request is served at all. -/
theorem log_truthful_iff (address : Address) {s : Conn} (hs : Fresh s) (inputs : List Input) :
    (Truthful (handleConn (inetNtoa address) s inputs).1 ↔
        Machine.Along (handleConnStep (inetNtoa address)) StatusHeld s inputs) ∧
      ((∀ resp, Truthful (handleConn (inetNtoa address) { s with resp := resp } inputs).1) ↔
        Machine.Along (handleConnStep (inetNtoa address)) NotServing s inputs) := by
  have hpending := noGetPending_fresh hs
  refine ⟨run_truthful_iff address hpending inputs, fun h => ?_, fun h resp => ?_⟩
  · have hzero : NoGetPending { s with resp := HttpResponse.zero } := hpending
    rw [← along_notServing_resp _ hpending HttpResponse.zero, ← along_statusHeld_zero _ hzero rfl,
      ← run_truthful_iff address hzero]
    exact h _
  · have hresp : NoGetPending { s with resp := resp } := hpending
    rw [run_truthful_iff address hresp]
    rw [← along_notServing_resp _ hpending resp] at h
    exact Machine.along_mono (fun _ _ hnot req hserving => absurd hserving (hnot req)) h

def localhost : Address := ⟨127, 0, 0, 1⟩

theorem log_truthful_missing :
    (Truthful (handleConn (inetNtoa localhost) (Conn.reset 0) missingInputs).1 ↔
        Machine.Along (handleConnStep (inetNtoa localhost)) StatusHeld (Conn.reset 0) missingInputs) ∧
      ((∀ resp, Truthful (handleConn (inetNtoa localhost) { Conn.reset 0 with resp := resp } missingInputs).1) ↔
        Machine.Along (handleConnStep (inetNtoa localhost)) NotServing (Conn.reset 0) missingInputs) :=
  log_truthful_iff localhost (fresh_reset 0) missingInputs

/-- With `resp` all zero, the request is logged with status 0 and answered with 404. -/
theorem missing_logged_zero :
    ¬ ∀ resp, Truthful (handleConn (inetNtoa localhost) { Conn.reset 0 with resp := resp } missingInputs).1 := by
  intro h
  have hvalues : (records none (handleConn (inetNtoa localhost)
      { Conn.reset 0 with resp := HttpResponse.zero } missingInputs).1).map
        (fun r => ((r.1.bind readLog).map LogRecord.status, r.2.bind sentStatus)) = [(some 0, some 404)] := by
    decide +kernel
  have hall := h HttpResponse.zero
  unfold Truthful at hall
  generalize records none _ = rs at hvalues hall
  obtain ⟨r, rfl, hr⟩ := List.map_eq_singleton_iff.mp hvalues
  obtain ⟨message, head, record, code, hmessage, hhead, hread, hcode, heq⟩ := hall r (List.mem_singleton.mpr rfl)
  simp only [hmessage, hhead, Option.bind_some, hread, hcode, Option.map_some, Prod.mk.injEq, Option.some.injEq] at hr
  rw [hr.1, hr.2] at heq
  cases heq

end CeeServe.Static
