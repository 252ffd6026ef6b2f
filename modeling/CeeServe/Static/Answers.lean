import CeeServe.Static.Connection

/-! # How many response heads a request gets

The loop sends one response head for an accepted GET request before it parses again,
and nothing for a request with another method: its branch is empty, and with
`reading_headers` false nothing is parsed any more.
-/
namespace CeeServe.Static
open CString Parse

/-- The response heads of a trace up to the next call of the parser or the exit. -/
def headsUntilParse : List Event → ℕ
  | [] => 0
  | .parsed _ _ :: _ => 0
  | .exited _ :: _ => 0
  | .sentResponse _ :: tr => headsUntilParse tr + 1
  | _ :: tr => headsUntilParse tr

/-- The accepted requests of a trace, each with the response heads that follow it
before the next call of the parser or the exit. -/
def answers : List Event → List (HttpRequest × ℕ)
  | [] => []
  | .parsed ret req :: tr => if ret = 0 then (req, headsUntilParse tr) :: answers tr else answers tr
  | _ :: tr => answers tr

def responseHeads : List Event → ℕ
  | [] => 0
  | .sentResponse _ :: tr => responseHeads tr + 1
  | _ :: tr => responseHeads tr

def IsGet (req : HttpRequest) : Prop := req.method = some (ascii "GET")

instance (req : HttpRequest) : Decidable (IsGet req) := inferInstanceAs (Decidable (_ = _))

/-- From here on every accepted GET request gets one response head, every other none,
and nothing is sent before the next request. -/
structure Accounted (tr : List Event) : Prop where
  quiet : headsUntilParse tr = 0
  each : ∀ p ∈ answers tr, p.2 = if IsGet p.1 then 1 else 0
  total : responseHeads tr = ((answers tr).filter fun p => IsGet p.1).length

/-- Behind the parsed head the loop body is only left without `reading_headers` for a
request it does not serve. -/
def NoGetPending (s : Conn) : Prop := s.readingHeaders = false → ¬ IsGet s.req

theorem accounted_nil : Accounted [] := ⟨rfl, by simp [answers], rfl⟩

theorem accounted_bodies (bodies : List (List UInt8)) {tr : List Event} (h : Accounted tr) :
    headsUntilParse (bodies.map .sentBody ++ tr) = 0 ∧
      answers (bodies.map .sentBody ++ tr) = answers tr ∧
      responseHeads (bodies.map .sentBody ++ tr) = responseHeads tr := by
  induction bodies with
  | nil => exact ⟨h.quiet, rfl, rfl⟩
  | cons b bodies ih => simpa [headsUntilParse, answers, responseHeads] using ih

theorem accounted_get {req : HttpRequest} (hget : IsGet req) (message : List UInt8) (fopen : Fopen)
    (openFiles : ℕ) {tr : List Event} (h : Accounted tr) :
    Accounted (.parsed 0 req :: .logged message :: .served req ::
      ((serveFile fopen openFiles req).events ++ tr)) := by
  obtain ⟨ok, head, bodies, hshape⟩ := serveFile_shape fopen openFiles req
  obtain ⟨hquiet, hanswers, hheads⟩ := accounted_bodies bodies h
  rw [hshape]
  constructor
  · rfl
  · intro p hp
    simp only [List.cons_append, answers, if_true, List.mem_cons, hanswers, headsUntilParse, hquiet] at hp
    rcases hp with rfl | hp
    · rw [if_pos hget]
    · exact h.each p hp
  · simp only [List.cons_append, answers, if_true, responseHeads, hheads, hanswers, h.total]
    simp [hget]

theorem accounted_other {req : HttpRequest} (hget : ¬ IsGet req) (message : List UInt8) {tr : List Event}
    (h : Accounted tr) : Accounted (.parsed 0 req :: .logged message :: tr) := by
  constructor
  · rfl
  · intro p hp
    simp only [answers, if_true, List.mem_cons, headsUntilParse, h.quiet] at hp
    rcases hp with rfl | hp
    · rw [if_neg hget]
    · exact h.each p hp
  · simp only [answers, if_true, responseHeads, h.total]
    simp [hget]

theorem accounted_reset {tr : List Event} (h : Accounted tr) : Accounted (resetEvents ++ tr) :=
  ⟨h.quiet, h.each, h.total⟩

theorem accounted_read {count extent : ℕ} {object : Object} {tr : List Event} (h : Accounted tr) :
    Accounted (.read count :: .wrote object extent :: tr) :=
  ⟨h.quiet, h.each, h.total⟩

theorem dispatch_accounted (inp : Input) (s : Conn) (message : List UInt8) {tr : List Event}
    (h : Accounted tr) :
    Accounted (.parsed 0 s.req :: .logged message :: (dispatch inp s).1 ++ tr) ∧
      ∀ s', s.readingHeaders = false → (dispatch inp s).2 = some s' → NoGetPending s' := by
  by_cases hget : IsGet s.req
  · cases hret : (serveFile inp.fopen s.openFiles s.req).returns with
    | false =>
      rw [dispatch_get_stuck hget hret]
      exact ⟨accounted_get hget message inp.fopen s.openFiles h, by simp⟩
    | true =>
      rw [dispatch_get inp hget hret]
      refine ⟨?_, ?_⟩
      · have := accounted_get hget message inp.fopen s.openFiles (accounted_reset h)
        simpa only [List.cons_append, List.append_assoc] using this
      · rintro s' - hs'
        obtain rfl := Option.some.inj hs'
        intro hr
        cases hr
  · rw [dispatch_other hget]
    refine ⟨accounted_other hget message h, ?_⟩
    rintro s' - hs'
    obtain rfl := Option.some.inj hs'
    exact fun _ => hget

theorem step_accounted (client : List UInt8) {s : Conn} (inp : Input) (hs : NoGetPending s)
    {tr : List Event} (h : Accounted tr) :
    Accounted ((handleConnStep client s inp).1 ++ tr) ∧
      ∀ s', (handleConnStep client s inp).2 = some s' → NoGetPending s' := by
  rcases step_cases client s inp with ⟨count, hstep⟩ |
    ⟨count, chunk, -, -, -, ⟨hr, hstep⟩ | ⟨req, -, hstep⟩ | ⟨req, -, hstep⟩ | ⟨hr, hstep⟩⟩
  · rw [hstep]
    exact ⟨⟨rfl, h.each, h.total⟩, by simp⟩
  · rw [hstep]
    refine ⟨accounted_read h, fun s' hs' => ?_⟩
    obtain rfl := Option.some.inj hs'
    intro hf
    rw [show (s.receive chunk).readingHeaders = true from hr] at hf
    cases hf
  · rw [hstep]
    exact ⟨accounted_read ⟨rfl, h.each, h.total⟩, by simp⟩
  · obtain ⟨hacc, hnext⟩ := dispatch_accounted inp
      { s.receive chunk with readingHeaders := false, req := req } (logRequest client req s.resp) h
    rw [hstep]
    exact ⟨accounted_read hacc, fun s' hs' => hnext s' rfl hs'⟩
  · have hget : ¬ IsGet (s.receive chunk).req := hs hr
    rw [hstep, dispatch_other hget]
    refine ⟨accounted_read h, fun s' hs' => ?_⟩
    obtain rfl := Option.some.inj hs'
    exact fun _ => hget

/-- In every run, each accepted GET request is followed by exactly one response head
before the next call of the parser or the exit, each other request by none, and the
heads sent are as many as the GET requests accepted. -/
theorem heads_sent {client : List UInt8} {s : Conn} (hs : s.readingHeaders = true) (inputs : List Input) :
    (∀ p ∈ answers (handleConn client s inputs).1, p.2 = if IsGet p.1 then 1 else 0) ∧
      responseHeads (handleConn client s inputs).1 =
        ((answers (handleConn client s inputs).1).filter fun p => IsGet p.1).length := by
  have hrun : NoGetPending s → Accounted (handleConn client s inputs).1 := by
    apply Machine.run_trace (T := fun s tr => NoGetPending s → Accounted tr)
    · exact fun _ _ => accounted_nil
    · intro s inp es hstep hs
      have hes := (step_accounted client inp hs accounted_nil).1
      rwa [hstep, List.append_nil] at hes
    · intro s inp es s' tr hstep htr hs
      have hs' := (step_accounted client inp hs accounted_nil).2 s' (by rw [hstep])
      have hes := (step_accounted client inp hs (htr hs')).1
      rwa [hstep] at hes
  have hacc := hrun fun hf => by
    rw [hs] at hf
    cases hf
  exact ⟨hacc.each, hacc.total⟩

/-- A GET, a POST, and something behind it. -/
def mixedInputs : List Input :=
  [Input.bare (ascii "GET / H\r\n\r\n"), Input.bare (ascii "POST / H\r\n\r\n"), Input.bare (ascii "a=b")]

theorem heads_sent_mixed :
    (∀ p ∈ answers (handleConn [] (Conn.reset 0) mixedInputs).1, p.2 = if IsGet p.1 then 1 else 0) ∧
      responseHeads (handleConn [] (Conn.reset 0) mixedInputs).1 =
        ((answers (handleConn [] (Conn.reset 0) mixedInputs).1).filter fun p => IsGet p.1).length :=
  heads_sent rfl mixedInputs

def postInputs : List Input := [Input.bare (ascii "POST / H\r\n\r\n"), Input.bare []]

/-- The POST request is accepted, the process exits, and no response head was sent. -/
theorem post_unanswered :
    ((answers (handleConn [] (Conn.reset 0) postInputs).1).map fun p => (p.1.method, p.2)) =
        [(some (ascii "POST"), 0)] ∧
      (handleConn [] (Conn.reset 0) postInputs).2.isNone := by
  decide +kernel

end CeeServe.Static
