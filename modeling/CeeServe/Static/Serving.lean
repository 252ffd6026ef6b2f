import CeeServe.Static.Budget

/-! # The iterations that serve a request

An iteration calls `serve_file` when its read completes a head that the parser accepts
as a GET. Which iterations these are does not depend on what `resp` holds. Every other
iteration leaves `resp` as it is, and writes nothing but what it reads.
-/
namespace CeeServe.Static
open CString Parse Response

/-- The bytes an iteration reads. -/
def incoming (s : Conn) (inp : Input) : List UInt8 := received inp.read (toSizeT (bytesToRead s.bytesRead))

/-- The iteration serves the request: it reads the end of its head, and the parser accepts
it as a GET. -/
structure Serving (s : Conn) (inp : Input) (req : HttpRequest) : Prop where
  reads : incoming s inp ≠ []
  reading : s.readingHeaders = true
  ends : endOfHeaders (s.receive (incoming s inp)).data.bytes ≠ -1
  parses : parseHeaders ((s.receive (incoming s inp)).data.bytes ++ inp.beyond) s.req = (0, req)
  get : IsGet req

def NotServing (s : Conn) (inp : Input) : Prop := ∀ req, ¬ Serving s inp req

/-- What an iteration emits that serves nothing and reads `chunk`. -/
def Idle (chunk : List UInt8) : Event → Prop
  | .read _ => True
  | .wrote object extent => object = .data ∧ extent = chunk.length
  | .parsed _ _ => True
  | .logged _ => True
  | .served _ => False
  | .fopened _ _ => False
  | .sentResponse _ => False
  | .sentBody _ => False
  | .exited _ => True

/-- One request for a file that does not exist. -/
def missingInputs : List Input := [Input.bare (ascii "GET /x H\r\n\r\n")]

theorem Serving.unique {s : Conn} {inp : Input} {req req' : HttpRequest} (h : Serving s inp req)
    (h' : Serving s inp req') : req = req' :=
  (Prod.mk.inj (h.parses.symm.trans h'.parses)).2

theorem serving_resp_iff (s : Conn) (resp : HttpResponse) (inp : Input) (req : HttpRequest) :
    Serving { s with resp := resp } inp req ↔ Serving s inp req :=
  ⟨fun h => ⟨h.reads, h.reading, h.ends, h.parses, h.get⟩, fun h => ⟨h.reads, h.reading, h.ends, h.parses, h.get⟩⟩

theorem step_incoming (client : List UInt8) {s : Conn} {inp : Input} (h : incoming s inp ≠ []) :
    handleConnStep client s inp =
      (.read (toSizeT (bytesToRead s.bytesRead)) :: .wrote .data (incoming s inp).length ::
          (afterRead client inp (s.receive (incoming s inp))).1,
        (afterRead client inp (s.receive (incoming s inp))).2) := by
  unfold incoming at h ⊢
  simp only [handleConnStep, if_neg h]

theorem step_no_incoming (client : List UInt8) {s : Conn} {inp : Input} (h : incoming s inp = []) :
    handleConnStep client s inp = ([.read (toSizeT (bytesToRead s.bytesRead)), .exited 1], none) := by
  unfold incoming at h
  simp only [handleConnStep, if_pos h]

theorem afterRead_accepts (client : List UInt8) {s : Conn} {inp : Input} {req : HttpRequest}
    (hreading : s.readingHeaders = true) (hends : endOfHeaders s.data.bytes ≠ -1)
    (hparses : parseHeaders (s.data.bytes ++ inp.beyond) s.req = (0, req)) :
    afterRead client inp s =
      (.parsed 0 req :: .logged (logRequest client req s.resp) ::
          (dispatch inp { s with readingHeaders := false, req := req }).1,
        (dispatch inp { s with readingHeaders := false, req := req }).2) := by
  have hnot : (0 : ℤ) ≠ -1 := by decide
  simp only [afterRead, hreading, if_true, if_neg hends, parseHead, hparses, if_neg hnot]

/-- What an iteration emits that serves a request, up to the reset. -/
def servingEvents (client : List UInt8) (s : Conn) (inp : Input) (req : HttpRequest) : List Event :=
  .read (toSizeT (bytesToRead s.bytesRead)) :: .wrote .data (incoming s inp).length :: .parsed 0 req ::
    .logged (logRequest client req s.resp) :: .served req :: (serveFile inp.fopen s.openFiles req).events

theorem step_serving (client : List UInt8) {s : Conn} {inp : Input} {req : HttpRequest} (h : Serving s inp req) :
    ((serveFile inp.fopen s.openFiles req).returns = true ∧
        handleConnStep client s inp = (servingEvents client s inp req ++ resetEvents,
          some (Conn.reset (serveFile inp.fopen s.openFiles req).openFiles))) ∨
      ((serveFile inp.fopen s.openFiles req).returns = false ∧
        handleConnStep client s inp = (servingEvents client s inp req, none)) := by
  have hstep := step_incoming client h.reads
  obtain ⟨-, hreading, hends, hparses, hget⟩ := h
  unfold servingEvents
  obtain ⟨chunk, hchunk⟩ : ∃ chunk, incoming s inp = chunk := ⟨_, rfl⟩
  rw [hchunk] at hstep hends hparses ⊢
  rw [hstep, afterRead_accepts (s := s.receive chunk) client hreading hends hparses]
  cases hret : (serveFile inp.fopen s.openFiles req).returns with
  | true =>
    rw [dispatch_get (s := { s.receive chunk with readingHeaders := false, req := req }) inp hget hret]
    exact Or.inl ⟨rfl, rfl⟩
  | false =>
    rw [dispatch_get_stuck (s := { s.receive chunk with readingHeaders := false, req := req }) hget hret]
    exact Or.inr ⟨rfl, rfl⟩

/-- What `afterRead` comes to without a GET: the state it leaves does not depend on `resp`. -/
theorem afterRead_idle {s : Conn} {inp : Input} (hs : s.readingHeaders = false → ¬ IsGet s.req)
    (h : ∀ req, s.readingHeaders = true → endOfHeaders s.data.bytes ≠ -1 →
      parseHeaders (s.data.bytes ++ inp.beyond) s.req = (0, req) → ¬ IsGet req) :
    ∃ next : Option (Bool × HttpRequest), (∀ p, next = some p → p.1 = false → ¬ IsGet p.2) ∧
      ∀ (client : List UInt8) (resp : HttpResponse), ∃ es, (∀ e ∈ es, ∀ chunk, Idle chunk e) ∧
        afterRead client inp { s with resp := resp } =
          (es, next.map fun p => { s with readingHeaders := p.1, req := p.2, resp := resp }) := by
  cases hr : s.readingHeaders with
  | false =>
    refine ⟨some (false, s.req), ?_, fun client resp => ⟨[], by simp, ?_⟩⟩
    · intro p hp _
      obtain rfl := Option.some.inj hp
      exact hs hr
    · exact dispatch_other (s := { s with readingHeaders := false, resp := resp }) (hs hr)
  | true =>
    by_cases hends : endOfHeaders s.data.bytes = -1
    · refine ⟨some (true, s.req), ?_, fun client resp => ⟨[], by simp, ?_⟩⟩
      · intro p hp hf
        obtain rfl := Option.some.inj hp
        cases hf
      · simp only [afterRead, if_true, if_pos hends]
        rfl
    rcases hparse : parseHeaders (s.data.bytes ++ inp.beyond) s.req with ⟨ret, req⟩
    have hret : ret = 0 ∨ ret = -1 := by
      rcases parseHeaders_cases (s.data.bytes ++ inp.beyond) s.req with ⟨m, p, v, -, -, heq⟩ | ⟨heq, -⟩
      · rw [hparse] at heq
        exact Or.inl (Prod.mk.inj heq).1
      · rw [hparse] at heq
        exact Or.inr heq
    rcases hret with rfl | rfl
    · have hget := h req hr hends hparse
      refine ⟨some (false, req), ?_, fun client resp => ⟨[.parsed 0 req, .logged (logRequest client req resp)], ?_, ?_⟩⟩
      · intro p hp _
        obtain rfl := Option.some.inj hp
        exact hget
      · simp [Idle]
      · rw [afterRead_accepts (s := { s with readingHeaders := true, resp := resp }) client rfl hends hparse,
          dispatch_other (s := { s with readingHeaders := false, req := req, resp := resp }) hget]
        rfl
    · refine ⟨none, by simp, fun client resp => ⟨[.parsed (-1) req, .exited 1], by simp [Idle], ?_⟩⟩
      simp only [afterRead, if_true, if_neg hends, parseHead, hparse]
      rfl

/-- An iteration that serves nothing leaves `resp` as it was, and otherwise does not depend
on it. -/
theorem step_idle {s : Conn} {inp : Input} (hs : NoGetPending s) (h : NotServing s inp) :
    ∃ next : Option (Bool × HttpRequest), (∀ p, next = some p → p.1 = false → ¬ IsGet p.2) ∧
      ∀ (client : List UInt8) (resp : HttpResponse), ∃ es, (∀ e ∈ es, Idle (incoming s inp) e) ∧
        handleConnStep client { s with resp := resp } inp =
          (es, next.map fun p =>
            { s.receive (incoming s inp) with readingHeaders := p.1, req := p.2, resp := resp }) := by
  have hincoming : ∀ resp, incoming { s with resp := resp } inp = incoming s inp := fun _ => rfl
  by_cases hreads : incoming s inp = []
  · refine ⟨none, by simp, fun client resp => ⟨_, ?_, step_no_incoming client ((hincoming resp).trans hreads)⟩⟩
    simp [Idle]
  have hno : ∀ req, s.readingHeaders = true → endOfHeaders (s.receive (incoming s inp)).data.bytes ≠ -1 →
      parseHeaders ((s.receive (incoming s inp)).data.bytes ++ inp.beyond) s.req = (0, req) → ¬ IsGet req :=
    fun req hreading hends hparses hget => h req ⟨hreads, hreading, hends, hparses, hget⟩
  have hreads' : ∀ resp, incoming { s with resp := resp } inp ≠ [] := fun resp => by
    rw [hincoming]
    exact hreads
  have hstep := fun client resp => step_incoming client (hreads' resp)
  simp only [hincoming] at hstep
  obtain ⟨chunk, hchunk⟩ : ∃ chunk, incoming s inp = chunk := ⟨_, rfl⟩
  rw [hchunk] at hno hstep ⊢
  have hpending : (s.receive chunk).readingHeaders = false → ¬ IsGet (s.receive chunk).req := hs
  obtain ⟨next, hnext, hafter⟩ := afterRead_idle hpending hno
  refine ⟨next, hnext, fun client resp => ?_⟩
  obtain ⟨es, hes, heq⟩ := hafter client resp
  refine ⟨.read (toSizeT (bytesToRead s.bytesRead)) :: .wrote .data chunk.length :: es, ?_, ?_⟩
  · simpa [Idle] using fun e he => hes e he chunk
  · have hreceive : ({ s with resp := resp } : Conn).receive chunk = { s.receive chunk with resp := resp } := rfl
    rw [hstep client resp, hreceive, heq]

theorem idle_events (client : List UInt8) {s : Conn} {inp : Input} (hs : NoGetPending s) (h : NotServing s inp)
    {es : List Event} {o : Option Conn} (hstep : handleConnStep client s inp = (es, o)) :
    ∀ e ∈ es, Idle (incoming s inp) e := by
  obtain ⟨next, -, hidle⟩ := step_idle hs h
  obtain ⟨es', hes', heq⟩ := hidle client s.resp
  obtain rfl : es = es' := (Prod.mk.inj (hstep.symm.trans heq)).1
  exact hes'

theorem serves_idle {chunk : List UInt8} {es : List Event} (h : ∀ e ∈ es, Idle chunk e) : serves es = [] := by
  apply List.filterMap_eq_nil_iff.mpr
  intro e he
  have hidle := h e he
  cases e with
  | served req => exact hidle.elim
  | _ => rfl

theorem step_unserved_iff (client : List UInt8) {s : Conn} {inp : Input} (hs : NoGetPending s) :
    serves (handleConnStep client s inp).1 = [] ↔ NotServing s inp := by
  constructor
  · intro hnone req h
    rcases step_serving client h with ⟨-, heq⟩ | ⟨-, heq⟩
    · rw [heq] at hnone
      simp [servingEvents] at hnone
    · rw [heq] at hnone
      simp [servingEvents] at hnone
  · intro h
    rcases hstep : handleConnStep client s inp with ⟨es, o⟩
    exact serves_idle (idle_events client hs h hstep)

/-- Whether a run serves a request does not depend on what `resp` holds at its start. -/
theorem along_notServing_resp (client : List UInt8) {s : Conn} (hs : NoGetPending s) (resp : HttpResponse)
    (inputs : List Input) :
    Machine.Along (handleConnStep client) NotServing { s with resp := resp } inputs ↔
      Machine.Along (handleConnStep client) NotServing s inputs := by
  induction inputs generalizing s resp with
  | nil => exact Iff.rfl
  | cons inp inputs ih =>
    have hfirst : NotServing { s with resp := resp } inp ↔ NotServing s inp :=
      forall_congr' fun req => not_congr (serving_resp_iff s resp inp req)
    rw [Machine.Along, Machine.Along, hfirst]
    refine and_congr_right fun hnot => ?_
    obtain ⟨next, hnext, hstep⟩ := step_idle hs hnot
    obtain ⟨es, -, heq⟩ := hstep client resp
    obtain ⟨es', -, heq'⟩ := hstep client s.resp
    rw [heq, show handleConnStep client s inp = _ from heq']
    cases next with
    | none => simp
    | some p =>
      have hpending : NoGetPending { s.receive (incoming s inp) with readingHeaders := p.1, req := p.2 } := hnext p rfl
      simp only [Option.map_some, Option.some.injEq, forall_eq']
      exact (ih hpending resp).trans (ih hpending s.resp).symm

end CeeServe.Static
