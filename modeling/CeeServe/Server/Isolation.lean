import CeeServe.Server.System

/-! # Each connection is a run of its own

Whatever the other processes do meanwhile, what goes out on a connection is what
`handle_conn` sends on the reads of this connection alone. The numbers of descriptors are
used again and again, so this rests on the tables: a child holds its own connection and
no other, and the parent holds none when it accepts.
-/
namespace CeeServe.Server
open CString Static Transition Machine
variable {spared : Bool}

/-- The call, made for a peer with this address, has done on its connection what a run of
the loop does. -/
structure Served (spared : Bool) (addr : List UInt8) (conn : Connection) (c : Call) : Prop where
  client : c.client = clientText addr
  fresh : Fresh c.start
  files : c.start.openFiles = 0
  run : overrunConn spared c.client c.start c.inputs = (c.trace ++ c.todo, c.next)
  head : ∀ before inp, c.inputs = before ++ [inp] → (overrunConn spared c.client c.start before).2 = some c.head
  reads : conn.reads = c.inputs.map Input.read
  sent : conn.sent = output c.trace
  noExit : ∀ code, .exited code ∉ c.trace

/-- What the table of the child for connection `k` holds before it calls `handle_conn`. -/
def StartingOk (listen : ℤ) (k : ℕ) (addr : List UInt8) (acts : List Action) (fds : Descriptors) : Prop :=
  ∃ socket, socket ≠ listen ∧
    ((acts = [.closed listen, .handleConn socket addr] ∧
        fds = Function.update (listenOnly listen) socket (some (.connection k))) ∨
      (acts = [.handleConn socket addr] ∧ fds = Function.update (fun _ => none) socket (some (.connection k))))

/-- In `handle_conn` it holds its connection and files, and nothing else. -/
structure ServingOk (spared : Bool) (k : ℕ) (addr : List UInt8) (conn : Connection) (c : Call) (fds : Descriptors) :
    Prop where
  served : Served spared addr conn c
  socket : fds c.socket = some (.connection k)
  rest : ∀ d o, fds d = some o → d = c.socket ∨ ∃ name, o = .file name

def ProcessOk (spared : Bool) (listen : ℤ) (k : ℕ) (addr : List UInt8) (conn : Connection) (p : Process) : Prop :=
  match p.phase with
  | .starting acts => conn = Connection.unused ∧ StartingOk listen k addr acts p.descriptors
  | .serving c => ServingOk spared k addr conn c p.descriptors
  | _ => (∃ c, Served spared addr conn c) ∧ p.descriptors = fun _ => none

theorem served_start (socket : ℤ) (addr : List UInt8) {start : Conn} (hstart : Fresh start)
    (hfiles : start.openFiles = 0) :
    Served spared addr Connection.unused ⟨socket, clientText addr, start, [], [], start, [], some start⟩ :=
  ⟨rfl, hstart, hfiles, rfl, by simp, rfl, rfl, by simp⟩

theorem Served.read {addr : List UInt8} {conn : Connection} {c : Call} (h : Served spared addr conn c) {next : Conn}
    (hdone : c.todo = []) (hnext : c.next = some next) (inp : Input) {r : List Event × Option Conn}
    (hstep : overrunStep spared c.client next inp = r) :
    Served spared addr (conn.receive inp.read) (c.read next inp r) := by
  have hrun := h.run
  rw [hdone, List.append_nil, hnext] at hrun
  have hmore : overrunConn spared c.client c.start (c.inputs ++ [inp]) = (c.trace ++ r.1, r.2) := by
    rw [overrunConn, run_append hrun, run_singleton, hstep]
  refine ⟨h.client, h.fresh, h.files, hmore, fun before inp' hlast => ?_, by simp [Connection.receive, Call.read, h.reads],
    h.sent, h.noExit⟩
  obtain ⟨rfl, -⟩ := List.append_inj' hlast rfl
  exact congrArg Prod.snd hrun

/-- One more `fread` makes the last iteration that of an input with one result more. -/
theorem Served.fread {addr : List UInt8} {conn : Connection} {c : Call} (h : Served spared addr conn c)
    (hdone : c.todo = []) {before : List Input} {inp : Input} (hlast : c.inputs = before ++ [inp]) {req : HttpRequest}
    (hserving : Serving c.head inp req) (hcopying : (serveFile inp.fopen c.head.openFiles req).returns = false)
    (r : FreadResult) : Served spared addr conn (c.fread before inp r (copyRound spared c.head.openFiles r)) := by
  obtain ⟨es, hstep, hmore⟩ := overrunStep_more spared c.client hserving hcopying r
  have hhead := h.head before inp hlast
  have hbefore : overrunConn spared c.client c.start before =
      ((overrunConn spared c.client c.start before).1, some c.head) := Prod.ext rfl hhead
  have hrun := h.run
  rw [hlast, overrunConn, run_append hbefore, run_singleton, hstep, hdone, List.append_nil] at hrun
  refine ⟨h.client, h.fresh, h.files, ?_, fun before' inp' hlast' => ?_, ?_, h.sent, h.noExit⟩
  · show overrunConn spared c.client c.start (before ++ [inp.more r]) = _
    rw [overrunConn, run_append hbefore, run_singleton, hmore, ← List.append_assoc, (Prod.mk.inj hrun).1]
    rfl
  · obtain ⟨rfl, -⟩ := List.append_inj' hlast' rfl
    exact hhead
  · simp [h.reads, hlast, Call.fread, Input.more]

/-- An event done leaves the run as it is; if it sends, its data is on the connection. -/
theorem Served.emit {addr : List UInt8} {conn conn' : Connection} {c : Call} (h : Served spared addr conn c)
    {e : Event} {rest : List Event} (htodo : c.todo = e :: rest) (hreads : conn'.reads = conn.reads)
    (hsent : conn'.sent = conn.sent ++ output [e]) (hexit : ∀ code, e ≠ .exited code) :
    Served spared addr conn' (c.emit e rest) := by
  refine ⟨h.client, h.fresh, h.files, ?_, h.head, hreads.trans h.reads, ?_, fun code hmem => ?_⟩
  · have hrun := h.run
    rw [htodo] at hrun
    simpa [Call.emit] using hrun
  · rw [hsent, h.sent, Call.emit, output_append]
  · rcases List.mem_append.mp hmem with hmem | hmem
    · exact h.noExit code hmem
    · exact hexit code (List.mem_singleton.mp hmem).symm

theorem Performs.not_exited {socket : ℤ} {e : Event} {a b : Descriptors × Connections} (h : Performs socket e a b)
    (code : ℤ) :
    e ≠ .exited code := by
  rintro rfl
  cases h with
  | send hdata => cases hdata
  | internal he => exact he

/-- What the call has done and is about to do is what the loop does that nothing overruns. -/
theorem Served.events {addr : List UInt8} {conn : Connection} {c : Call} (h : Served spared addr conn c) :
    (handleConn c.client c.start c.inputs).1 = c.trace ++ c.todo := by
  have hrun := congrArg Prod.fst h.run
  rcases List.eq_nil_or_concat c.inputs with hnil | ⟨before, inp, hlast⟩
  · rw [hnil, overrunConn, run_nil] at hrun
    rw [hnil, handleConn, run_nil]
    exact hrun
  · rw [List.concat_eq_append] at hlast
    rw [hlast, overrunConn_concat (h.head before inp hlast)] at hrun
    rw [hlast, hrun]

theorem Served.next_eq {addr : List UInt8} {conn : Connection} {c : Call} (h : Served spared addr conn c)
    {next : Conn} (hnext : c.next = some next) : (handleConn c.client c.start c.inputs).2 = some next := by
  have hstate := congrArg Prod.snd h.run
  rw [← overrunConn_state (hstate.trans hnext)]
  exact hstate.trans hnext

theorem output_payload {e : Event} {data : List UInt8} (h : payload e = some data) : output [e] = data := by
  cases e <;> simp [payload] at h <;> simp [h]

theorem output_internal {e : Event} (h : Internal e) : output [e] = [] := by
  cases e <;> simp [Internal, payload] at h <;> simp

theorem servingOk_performs {k : ℕ} {addr : List UInt8} {fds fds' : Descriptors} {w w' : Connections} {c : Call}
    {e : Event} {rest : List Event} (h : ServingOk spared k addr (w k) c fds) (htodo : c.todo = e :: rest)
    (hperforms : Performs c.socket e (fds, w) (fds', w')) :
    ServingOk spared k addr (w' k) (c.emit e rest) fds' ∧ ∀ j ≠ k, w' j = w j := by
  have hexit := hperforms.not_exited
  cases hperforms with
  | @send _ data _ _ j hdata hsocket =>
    obtain rfl : j = k := by simpa [h.socket] using hsocket.symm
    refine ⟨⟨h.served.emit htodo ?_ ?_ hexit, h.socket, h.rest⟩, fun i hi => Function.update_of_ne hi _ _⟩
    · rw [Function.update_self]
      rfl
    · rw [Function.update_self, output_payload hdata]
      rfl
  | @fopen name d _ _ hfree =>
    have hne : c.socket ≠ d := fun heq => by simp [← heq, h.socket] at hfree
    refine ⟨⟨h.served.emit htodo rfl (by simp) hexit, ?_, fun d' o hd' => ?_⟩, fun _ _ => rfl⟩
    · exact (Function.update_of_ne hne _ _).trans h.socket
    · by_cases heq : d' = d
      · rw [heq, Function.update_self] at hd'
        exact Or.inr ⟨name, (Option.some.inj hd').symm⟩
      · rw [Function.update_of_ne heq] at hd'
        exact h.rest d' o hd'
  | internal he =>
    exact ⟨⟨h.served.emit htodo rfl (by rw [output_internal he, List.append_nil]) hexit, h.socket, h.rest⟩, fun _ _ => rfl⟩

theorem ProcessOk.some_call {listen : ℤ} {k : ℕ} {addr : List UInt8} {conn : Connection} {p : Process}
    (h : ProcessOk spared listen k addr conn p) : ∃ c, Served spared addr conn c := by
  unfold ProcessOk at h
  split at h
  · obtain ⟨rfl, socket, -⟩ := h
    exact ⟨_, served_start socket addr (fresh_reset 0) rfl⟩
  · exact ⟨_, h.served⟩
  · exact h.1

/-- A step of the child for connection `k` touches no other connection. -/
theorem processStep_ok {listen : ℤ} {k : ℕ} {addr : List UInt8} {p p' : Process} {w w' : Connections}
    (h : ProcessOk spared listen k addr (w k) p) (hstep : ProcessStep spared (p, w) (p', w')) :
    ProcessOk spared listen k addr (w' k) p' ∧ ∀ j ≠ k, w' j = w j := by
  have hcall := h.some_call
  cases hstep with
  | @close _ _ d rest hphase =>
    simp only [ProcessOk, hphase] at h ⊢
    obtain ⟨hconn, socket, hne, ⟨hacts, hfds⟩ | ⟨hacts, -⟩⟩ := h
    · obtain ⟨hd, rfl⟩ := List.cons.inj hacts
      obtain rfl := Action.closed.inj hd
      refine ⟨⟨hconn, socket, hne, Or.inr ⟨rfl, ?_⟩⟩, fun _ _ => trivial⟩
      rw [hfds, listenOnly, Function.update_comm hne.symm, Function.update_idem, Function.update_eq_self_iff]
      exact (Function.update_of_ne hne.symm (some (OpenFile.connection k)) (fun _ => none)).symm
    · cases hacts
  | @call _ _ socket _ start hphase hstart hfiles =>
    simp only [ProcessOk, hphase] at h ⊢
    obtain ⟨hconn, socket', hne, ⟨hacts, -⟩ | ⟨hacts, hfds⟩⟩ := h
    · cases hacts
    · obtain ⟨rfl, rfl⟩ := Action.handleConn.inj (List.cons.inj hacts).1
      rw [hconn, hfds]
      refine ⟨⟨served_start socket _ hstart hfiles, Function.update_self _ _ _, fun d o hd => ?_⟩, fun _ _ => trivial⟩
      by_cases heq : d = socket
      · exact Or.inl heq
      · rw [Function.update_of_ne heq] at hd
        cases hd
  | @read _ _ c conn j inp hphase hdone hnext hsocket =>
    simp only [ProcessOk, hphase] at h ⊢
    obtain rfl : j = k := by simpa [h.socket] using hsocket.symm
    refine ⟨⟨?_, h.socket, h.rest⟩, fun i hi => Function.update_of_ne hi _ _⟩
    rw [Function.update_self]
    exact h.served.read hdone hnext inp rfl
  | fread r hphase hdone hlast hserving hcopying =>
    simp only [ProcessOk, hphase] at h ⊢
    exact ⟨⟨h.served.fread hdone hlast hserving hcopying r, h.socket, h.rest⟩, fun _ _ => trivial⟩
  | emit hphase htodo hperforms =>
    simp only [ProcessOk, hphase] at h ⊢
    exact servingOk_performs h htodo hperforms
  | exit hphase htodo => exact ⟨⟨hcall, rfl⟩, fun _ _ => rfl⟩
  | kill halive => exact ⟨⟨hcall, rfl⟩, fun _ _ => rfl⟩

/-- The parent holds the socket it listens on, and between `fork` and `close` the
connection it has accepted last. -/
def ParentOk (listen : ℤ) (s : Host) : Prop :=
  (s.main = none ∧ s.todo = [] ∧ s.descriptors = fun _ => none) ∨
    ∃ m, s.main = some m ∧ m.listenSocket = listen ∧
      ((s.todo = [] ∧ s.descriptors = listenOnly listen) ∨
        ∃ d k, d ≠ listen ∧ k + 1 = s.processes.length ∧ s.todo = [.closed d] ∧
          s.descriptors = Function.update (listenOnly listen) d (some (.connection k)))

structure Consistent (spared : Bool) (listen : ℤ) (s : Host) : Prop where
  processes : ∀ k p, s.processes[k]? = some p →
    ∃ a, s.answers[k]? = some a ∧ ProcessOk spared listen k a.clientAddr (s.connections k) p
  answered : s.main.isSome → s.answers.length = s.processes.length
  unused : ∀ k, s.processes.length ≤ k → s.connections k = Connection.unused
  parent : ParentOk listen s

theorem consistent_booted (listen : ℤ) : Consistent spared listen (booted listen) :=
  ⟨by simp [booted], fun _ => rfl, fun _ _ => rfl, Or.inr ⟨_, rfl, rfl, Or.inl ⟨rfl, rfl⟩⟩⟩

/-- At `accept` the table of the parent has the one entry. -/
theorem ParentOk.at_accept {listen : ℤ} {s : Host} (h : ParentOk listen s) {m : Main} (hmain : s.main = some m)
    (hdone : s.todo = []) : m.listenSocket = listen ∧ s.descriptors = listenOnly listen := by
  rcases h with ⟨hnone, -⟩ | ⟨m', hm', hlisten, ⟨-, hfds⟩ | ⟨d, k, -, -, htodo, -⟩⟩
  · rw [hmain] at hnone
    cases hnone
  · rw [hmain] at hm'
    exact ⟨Option.some.inj hm' ▸ hlisten, hfds⟩
  · rw [hdone] at htodo
    cases htodo

/-- Changing one process keeps the others, if it changes their connections in nothing. -/
theorem consistent_set {listen : ℤ} {s s' : Host} {k : ℕ} {p p' : Process} {a : Answer}
    (h : Consistent spared listen s)
    (hp : s.processes[k]? = some p) (ha : s.answers[k]? = some a) (hprocesses : s'.processes = s.processes.set k p')
    (hok : ProcessOk spared listen k a.clientAddr (s'.connections k) p')
    (hothers : ∀ j ≠ k, s'.connections j = s.connections j) (hmain : s'.main = s.main)
    (hfds : s'.descriptors = s.descriptors) (htodo : s'.todo = s.todo) (hanswers : s'.answers = s.answers) :
    Consistent spared listen s' := by
  have hlt : k < s.processes.length := (List.getElem?_eq_some_iff.mp hp).1
  have hlen : s'.processes.length = s.processes.length := by rw [hprocesses, List.length_set]
  refine ⟨fun j q hq => ?_, fun hsome => ?_, fun j hj => ?_, ?_⟩
  · rw [hprocesses] at hq
    rw [hanswers]
    by_cases hj : j = k
    · subst hj
      rw [List.getElem?_set_self hlt] at hq
      exact ⟨a, ha, Option.some.inj hq ▸ hok⟩
    · rw [List.getElem?_set_ne (Ne.symm hj)] at hq
      rw [hothers j hj]
      exact h.processes j q hq
  · rw [hlen, hanswers]
    exact h.answered (hmain ▸ hsome)
  · rw [hlen] at hj
    rw [hothers j (by omega)]
    exact h.unused j hj
  · have hparent := h.parent
    unfold ParentOk at hparent ⊢
    rwa [hmain, hfds, htodo, hlen]

theorem consistent_iterate {listen : ℤ} {s : Host} {m m' : Main} {a : Answer} {acts : List Action} {child : Child}
    (h : Consistent spared listen s) (hmain : s.main = some m) (hdone : s.todo = [])
    (hfree : s.descriptors a.servingSocket = none)
    (hstep : mainStep m a = (.accepted a.servingSocket :: acts, some m')) (hfork : m'.children = m.children ++ [child])
    {fds : Descriptors}
    (hfds : fds = Function.update s.descriptors a.servingSocket (some (.connection s.processes.length))) :
    Consistent spared listen
      { s with
        main := some m'
        descriptors := fds
        todo := acts
        processes := s.processes ++ [⟨child.cpid, fds, .starting child.actions⟩]
        answers := s.answers ++ [a] } := by
  obtain ⟨hlisten, htable⟩ := h.parent.at_accept hmain hdone
  obtain ⟨rfl, hlisten', -, rfl⟩ := mainStep_forked hstep hfork
  have hne : a.servingSocket ≠ listen := by
    intro heq
    rw [htable, listenOnly, heq, Function.update_self] at hfree
    cases hfree
  rw [htable] at hfds
  have hlen := h.answered (by rw [hmain]; rfl)
  refine ⟨fun j q hq => ?_, fun _ => by simp [hlen], fun j hj => ?_, ?_⟩
  · rcases getElem?_concat_cases hq with hq | ⟨rfl, rfl⟩
    · obtain ⟨a', ha', hok⟩ := h.processes j q hq
      exact ⟨a', getElem?_concat_left ha' a, hok⟩
    · refine ⟨a, hlen ▸ List.getElem?_concat_length, h.unused _ le_rfl, a.servingSocket, hne, Or.inl ⟨?_, hfds⟩⟩
      rw [hlisten]
  · exact h.unused j (by simp at hj; omega)
  · exact Or.inr ⟨m', rfl, hlisten'.trans hlisten, Or.inr ⟨_, s.processes.length, hne, by simp, rfl, hfds⟩⟩

theorem consistent_act {listen : ℤ} {s : Host} {action : Action} {rest : List Action} (h : Consistent spared listen s)
    (htodo : s.todo = action :: rest) :
    Consistent spared listen { s with descriptors := action.perform s.descriptors, todo := rest } := by
  refine ⟨h.processes, h.answered, h.unused, ?_⟩
  rcases h.parent with ⟨-, hdone, -⟩ | ⟨m, hm, hlisten, ⟨hdone, -⟩ | ⟨d, k, hne, -, hclose, hfds⟩⟩
  · rw [htodo] at hdone
    cases hdone
  · rw [htodo] at hdone
    cases hdone
  · obtain ⟨rfl, rfl⟩ := List.cons.inj (htodo.symm.trans hclose)
    refine Or.inr ⟨m, hm, hlisten, Or.inl ⟨rfl, ?_⟩⟩
    show Function.update s.descriptors d none = listenOnly listen
    rw [hfds, Function.update_idem, Function.update_eq_self_iff]
    exact (Function.update_of_ne hne (some OpenFile.listening) (fun _ => none)).symm

theorem signal_consistent {listen : ℤ} {s s' : Host} (h : Consistent spared listen s) (hstep : SignalStep s s') :
    Consistent spared listen s' := by
  cases hstep with
  | @reap k p _ hp hz =>
    obtain ⟨a, ha, hok⟩ := h.processes k p hp
    simp only [ProcessOk, hz] at hok
    exact consistent_set h hp ha rfl hok (fun _ _ => rfl) rfl rfl rfl rfl
  | deliver | reapNone | finish => exact ⟨h.processes, h.answered, h.unused, h.parent⟩

theorem step_consistent {listen : ℤ} {s s' : Host} (h : Consistent spared listen s)
    (hstep : HostStep registerZombieKiller spared s s') : Consistent spared listen s' := by
  cases hstep with
  | iterate hmain _ hdone hfree _ hstep hfork => exact consistent_iterate h hmain hdone hfree hstep hfork rfl
  | @stop m a hmain _ hdone =>
    refine ⟨fun k p hp => ?_, fun hsome => (by cases hsome), h.unused, Or.inl ⟨rfl, hdone, rfl⟩⟩
    obtain ⟨a', ha', hok⟩ := h.processes k p hp
    exact ⟨a', getElem?_concat_left ha' a, hok⟩
  | act _ htodo => exact consistent_act h htodo
  | process hp hstep =>
    obtain ⟨a, ha, hok⟩ := h.processes _ _ hp
    obtain ⟨hok', hothers⟩ := processStep_ok hok hstep
    exact consistent_set h hp ha rfl hok' hothers rfl rfl rfl rfl
  | signal hstep => exact signal_consistent h hstep
  | interrupt hflag => cases hflag

theorem reachable_consistent {listen : ℤ} {s : Host}
    (h : (serverSystem registerZombieKiller spared listen).Reachable s) :
    Consistent spared listen s :=
  reachable_invariant (fun _ h => h ▸ consistent_booted listen) (fun _ _ => step_consistent) h

theorem serving_ok {listen : ℤ} {s : Host} (h : (serverSystem registerZombieKiller spared listen).Reachable s) {k : ℕ}
    {p : Process} {c : Call} (hp : s.processes[k]? = some p) (hphase : p.phase = .serving c) :
    ∃ addr, ServingOk spared k addr (s.connections k) c p.descriptors := by
  obtain ⟨a, -, hok⟩ := (reachable_consistent h).processes k p hp
  simp only [ProcessOk, hphase] at hok
  exact ⟨_, hok⟩

/-- Some process has a descriptor for the connection. -/
def Host.Open (s : Host) (k : ℕ) : Prop :=
  (∃ d, s.descriptors d = some (.connection k)) ∨
    ∃ p ∈ s.processes, ∃ d, p.descriptors d = some (.connection k)

theorem startingOk_holds {listen : ℤ} {k : ℕ} {addr : List UInt8} {acts : List Action} {fds : Descriptors}
    (h : StartingOk listen k addr acts fds) :
    (∃ d, fds d = some (.connection k)) ∧ ∀ d j, fds d = some (.connection j) → j = k := by
  obtain ⟨socket, -, ⟨-, rfl⟩ | ⟨-, rfl⟩⟩ := h
  · refine ⟨⟨socket, Function.update_self _ _ _⟩, fun d j hd => ?_⟩
    simp only [listenOnly, Function.update_apply] at hd
    split at hd
    · simpa using hd.symm
    · split at hd <;> cases hd
  · refine ⟨⟨socket, Function.update_self _ _ _⟩, fun d j hd => ?_⟩
    simp only [Function.update_apply] at hd
    split at hd
    · simpa using hd.symm
    · cases hd

theorem servingOk_holds {k : ℕ} {addr : List UInt8} {conn : Connection} {c : Call} {fds : Descriptors}
    (h : ServingOk spared k addr conn c fds) :
    (∃ d, fds d = some (.connection k)) ∧ ∀ d j, fds d = some (.connection j) → j = k := by
  refine ⟨⟨c.socket, h.socket⟩, fun d j hd => ?_⟩
  rcases h.rest d _ hd with rfl | ⟨name, heq⟩
  · simpa [h.socket] using hd.symm
  · cases heq

/-- A child holds its own connection as long as it lives, and never another one. -/
theorem processOk_holds {listen : ℤ} {k : ℕ} {addr : List UInt8} {conn : Connection} {p : Process}
    (h : ProcessOk spared listen k addr conn p) :
    ((∃ d, p.descriptors d = some (.connection k)) ↔ p.phase.isAlive = true) ∧
      ∀ d j, p.descriptors d = some (.connection j) → j = k := by
  unfold ProcessOk at h
  cases hphase : p.phase with
  | starting acts =>
    rw [hphase] at h
    obtain ⟨hheld, hown⟩ := startingOk_holds h.2
    exact ⟨iff_of_true hheld rfl, hown⟩
  | serving c =>
    rw [hphase] at h
    obtain ⟨hheld, hown⟩ := servingOk_holds h
    exact ⟨iff_of_true hheld rfl, hown⟩
  | zombie =>
    rw [hphase] at h
    simp [h.2, Phase.isAlive]
  | reaped =>
    rw [hphase] at h
    simp [h.2, Phase.isAlive]

/-- In every reachable state with the parent at `accept`, a connection is open exactly as
long as its own child lives; so the client sees the end of it when that child ends, and
whatever other processes do. -/
theorem connection_open_iff {listen : ℤ} {s : Host}
    (h : (serverSystem registerZombieKiller spared listen).Reachable s) (hdone : s.todo = []) (k : ℕ) :
    s.Open k ↔ ∃ p, s.processes[k]? = some p ∧ p.phase.isAlive = true := by
  have hs := reachable_consistent h
  have hparent : ∀ d, s.descriptors d ≠ some (.connection k) := by
    intro d hd
    rcases hs.parent with ⟨-, -, hfds⟩ | ⟨m, -, -, ⟨-, hfds⟩ | ⟨d', j, -, -, htodo, -⟩⟩
    · rw [hfds] at hd
      cases hd
    · simp only [hfds, listenOnly, Function.update_apply] at hd
      split at hd <;> cases hd
    · rw [hdone] at htodo
      cases htodo
  constructor
  · rintro (⟨d, hd⟩ | ⟨p, hp, d, hd⟩)
    · exact absurd hd (hparent d)
    · obtain ⟨j, hj⟩ := List.mem_iff_getElem?.mp hp
      obtain ⟨a, -, hok⟩ := hs.processes j p hj
      obtain ⟨hheld, hown⟩ := processOk_holds hok
      obtain rfl := hown d k hd
      exact ⟨p, hj, hheld.mp ⟨d, hd⟩⟩
  · rintro ⟨p, hp, halive⟩
    obtain ⟨a, -, hok⟩ := hs.processes k p hp
    obtain ⟨d, hd⟩ := (processOk_holds hok).1.mpr halive
    exact Or.inr ⟨p, List.mem_of_getElem? hp, d, hd⟩

/-- The parent has accepted two connections, and its children have not moved. -/
theorem twoChildren_reachable (spared : Bool) :
    ∃ s p q, (serverSystem registerZombieKiller spared 3).Reachable s ∧ s.main.isSome ∧ s.todo = [] ∧ s.processes = [p, q] ∧
      p.phase = .starting [.closed 3, .handleConn (firstAnswer 3).servingSocket (firstAnswer 3).clientAddr] ∧
      q.phase.isAlive = true := by
  obtain ⟨s, m, p, h, hmain, hoff, htodo, -, hp, hphase⟩ := firstChild_reachable registerZombieKiller spared 3
  have hclosed := reachable_step h (.act hoff htodo)
  obtain ⟨hlisten, hfds⟩ := (reachable_consistent hclosed).parent.at_accept hmain rfl
  have hle := le_abs_self p.pid
  have hnonneg := abs_nonneg p.pid
  have hpid : ∀ r ∈ s.processes, r.phase ≠ .reaped → r.pid ≠ |p.pid| + 1 := by
    rw [hp]
    exact List.forall_mem_singleton.mpr fun _ => by omega
  obtain ⟨t, m', q, hstep, hmain', hoff', htodo', -, hq, hqphase⟩ :=
    hostStep_accepts registerZombieKiller spared
      (s := { s with descriptors := Action.perform (.closed (firstAnswer 3).servingSocket) s.descriptors, todo := [] })
      hmain hlisten hoff rfl hfds (by omega) hpid
  have hprocesses : t.processes = [p, q] := by rw [hq, hp]; rfl
  exact ⟨_, p, q, reachable_step (reachable_step hclosed hstep) (.act hoff' htodo'), by rw [hmain']; rfl, rfl,
    hprocesses, hphase, by rw [hqphase]; rfl⟩

/-- The child of the first of two clients has been killed: its connection is closed, and
the other one is open. -/
theorem connection_open_second : ∃ s : Host, s.processes.length = 2 ∧ ¬ s.Open 0 ∧ s.Open 1 := by
  obtain ⟨s, p, q, h, -, htodo, hp, hphase, halive⟩ := twoChildren_reachable false
  have hget : s.processes[0]? = some p := by rw [hp]; rfl
  have hkilled := reachable_step h (.process hget (.kill (by rw [hphase]; rfl)))
  rw [show s.processes.set 0 p.terminate = [p.terminate, q] by rw [hp]; rfl] at hkilled
  refine ⟨_, rfl, fun hopen => ?_, (connection_open_iff hkilled htodo 1).mpr ⟨q, rfl, halive⟩⟩
  obtain ⟨r, hr, hralive⟩ := (connection_open_iff hkilled htodo 0).mp hopen
  obtain rfl := Option.some.inj hr
  cases hralive

end CeeServe.Server
