import CeeServe.Server.Isolation

/-! # A child by itself

Between two reads nothing blocks a child: it can do the rest of its iteration by steps of
its own, and these touch no other process and no other connection.
-/
namespace CeeServe.Server
open CString Static Transition Machine
variable {spared : Bool}

inductive ChildStep (spared : Bool) (k : ℕ) : Host → Host → Prop
  | mk {s : Host} {p p' : Process} {w : Connections} (hp : s.processes[k]? = some p)
      (hstep : ProcessStep spared (p, s.connections) (p', w)) :
      ChildStep spared k s
        { s with
          processes := s.processes.set k p'
          connections := w
          pending := s.pending || p'.phase.isZombie }

theorem ChildStep.hostStep {act : SigAction} {k : ℕ} {s s' : Host} (h : ChildStep spared k s s') :
    HostStep act spared s s' := by
  obtain ⟨hp, hstep⟩ := h
  exact .process hp hstep

def Bounded (fds : Descriptors) : Prop := {d | fds d ≠ none}.Finite

theorem Bounded.update {fds : Descriptors} (h : Bounded fds) (d : ℤ) (o : Option OpenFile) :
    Bounded (Function.update fds d o) := by
  refine (h.insert d).subset fun e he => ?_
  by_cases heq : e = d
  · exact Or.inl heq
  · refine Or.inr fun hnone => he ?_
    rw [Function.update_of_ne heq, hnone]

theorem bounded_empty : Bounded fun _ => none := by simp [Bounded]

theorem Bounded.exists_free {fds : Descriptors} (h : Bounded fds) : ∃ d, fds d = none := by
  obtain ⟨d, hd⟩ := h.exists_notMem
  exact ⟨d, not_not.mp hd⟩

theorem processStep_bounded {p p' : Process} {w w' : Connections} (h : Bounded p.descriptors)
    (hstep : ProcessStep spared (p, w) (p', w')) : Bounded p'.descriptors := by
  cases hstep with
  | close => exact h.update _ _
  | emit _ _ hperforms =>
    cases hperforms with
    | fopen => exact h.update _ _
    | send | internal => exact h
  | exit | kill => exact bounded_empty
  | call | read | fread => exact h

theorem reachable_bounded {act : SigAction} {listen : ℤ} {s : Host}
    (h : (serverSystem act spared listen).Reachable s) :
    Bounded s.descriptors ∧ ∀ p ∈ s.processes, Bounded p.descriptors := by
  refine reachable_invariant (I := fun s : Host => Bounded s.descriptors ∧ ∀ p ∈ s.processes, Bounded p.descriptors)
    (fun s hs => ?_) (fun s s' hs hstep => ?_) h
  · rw [show s = booted listen from hs]
    exact ⟨bounded_empty.update _ _, by simp [booted]⟩
  obtain ⟨hmain, hall⟩ := hs
  cases hstep with
  | iterate =>
    exact ⟨hmain.update _ _, List.forall_mem_append.mpr ⟨hall, List.forall_mem_singleton.mpr (hmain.update _ _)⟩⟩
  | stop | interrupt => exact ⟨bounded_empty, hall⟩
  | @act action =>
    refine ⟨?_, hall⟩
    cases action with
    | closed d => exact hmain.update _ _
    | accepted | handleConn | perror | exited => exact hmain
  | process hp hstep => exact ⟨hmain, forall_set hall _ (processStep_bounded (hall _ (List.mem_of_getElem? hp)) hstep)⟩
  | signal hstep =>
    cases hstep with
    | @reap _ p _ hp => exact ⟨hmain, forall_set hall _ (hall p (List.mem_of_getElem? hp))⟩
    | deliver | reapNone | finish => exact ⟨hmain, hall⟩

theorem event_cases (e : Event) : (∃ code, e = .exited code) ∨ (∃ data, payload e = some data) ∨
    (∃ name, e = .fopened name true) ∨ Internal e := by
  cases e with
  | exited code => exact Or.inl ⟨code, rfl⟩
  | sentResponse data => exact Or.inr (Or.inl ⟨data, rfl⟩)
  | sentBody data => exact Or.inr (Or.inl ⟨data, rfl⟩)
  | fopened name ok =>
    cases ok with
    | true => exact Or.inr (Or.inr (Or.inl ⟨name, rfl⟩))
    | false => exact Or.inr (Or.inr (Or.inr rfl))
  | read | wrote | parsed | logged | served => exact Or.inr (Or.inr (Or.inr rfl))

theorem performs_exists {socket : ℤ} {fds : Descriptors} {j : ℕ} (hsocket : fds socket = some (.connection j))
    (hbounded : Bounded fds) (w : Connections) {e : Event} (hexit : ∀ code, e ≠ .exited code) :
    ∃ fds' w', Performs socket e (fds, w) (fds', w') := by
  rcases event_cases e with ⟨code, rfl⟩ | ⟨data, hdata⟩ | ⟨name, rfl⟩ | he
  · exact absurd rfl (hexit code)
  · exact ⟨_, _, .send hdata hsocket⟩
  · obtain ⟨d, hfree⟩ := hbounded.exists_free
    exact ⟨_, _, .fopen hfree⟩
  · exact ⟨_, _, .internal he⟩

theorem serving_performs {listen : ℤ} {s : Host} (h : (serverSystem registerZombieKiller spared listen).Reachable s)
    {k : ℕ} {p : Process} {c : Call} (hp : s.processes[k]? = some p) (hphase : p.phase = .serving c) {e : Event}
    (hexit : ∀ code, e ≠ .exited code) : ∃ fds w, Performs c.socket e (p.descriptors, s.connections) (fds, w) := by
  obtain ⟨addr, hok⟩ := serving_ok h hp hphase
  exact performs_exists hok.socket ((reachable_bounded h).2 p (List.mem_of_getElem? hp)) s.connections hexit

/-- What is next in an iteration is never blocked. -/
theorem childStep_exists {listen : ℤ} {s : Host} (h : (serverSystem registerZombieKiller spared listen).Reachable s)
    {k : ℕ} {p : Process} {c : Call} {e : Event} {rest : List Event} (hp : s.processes[k]? = some p)
    (hphase : p.phase = .serving c) (htodo : c.todo = e :: rest) :
    ∃ s' p', ChildStep spared k s s' ∧ s'.processes[k]? = some p' ∧
      (p'.phase = .serving (c.emit e rest) ∨ (∃ code, e = .exited code) ∧ p'.phase = .zombie) := by
  have hlt := (List.getElem?_eq_some_iff.mp hp).1
  by_cases hexit : ∃ code, e = .exited code
  · obtain ⟨code, rfl⟩ := hexit
    exact ⟨_, _, .mk hp (.exit hphase htodo), List.getElem?_set_self hlt, Or.inr ⟨⟨code, rfl⟩, rfl⟩⟩
  · obtain ⟨fds, w, hperforms⟩ := serving_performs h hp hphase (not_exists.mp hexit)
    exact ⟨_, _, .mk hp (.emit hphase htodo hperforms), List.getElem?_set_self hlt, Or.inl rfl⟩

/-- The induction is on what is left of the iteration. -/
theorem child_drains {listen : ℤ} {k : ℕ} (es : List Event) {s : Host}
    (h : (serverSystem registerZombieKiller spared listen).Reachable s) {p : Process} {c : Call}
    (hp : s.processes[k]? = some p) (hphase : p.phase = .serving c) (htodo : c.todo = es) :
    ∃ s' p', Relation.ReflTransGen (ChildStep spared k) s s' ∧ s'.processes[k]? = some p' ∧
      ((∃ code, .exited code ∈ es ∧ p'.phase = .zombie) ∨
        p'.phase = .serving { c with trace := c.trace ++ es, todo := [] }) := by
  induction es generalizing s p c with
  | nil =>
    refine ⟨s, p, .refl, hp, Or.inr ?_⟩
    rw [hphase, List.append_nil, ← htodo]
  | cons e es ih =>
    obtain ⟨s₁, p₁, hstep, hp₁, hphase₁ | ⟨⟨code, rfl⟩, hz⟩⟩ := childStep_exists h hp hphase htodo
    · obtain ⟨s', p', hsteps, hp', hend⟩ := ih (reachable_step h hstep.hostStep) hp₁ hphase₁ rfl
      refine ⟨s', p', .head hstep hsteps, hp', ?_⟩
      rcases hend with ⟨code, hcode, hz⟩ | hserving
      · exact Or.inl ⟨code, List.mem_cons_of_mem e hcode, hz⟩
      · refine Or.inr ?_
        rw [hserving]
        simp [Call.emit]
    · exact ⟨s₁, p₁, .single hstep, hp₁, Or.inl ⟨code, List.mem_cons_self, hz⟩⟩

/-- What the child for one connection does leaves the others as they are. -/
theorem childStep_others {listen : ℤ} {k : ℕ} {s s' : Host}
    (h : (serverSystem registerZombieKiller spared listen).Reachable s) (hstep : ChildStep spared k s s') :
    ∀ j ≠ k, s'.processes[j]? = s.processes[j]? ∧ s'.connections j = s.connections j := by
  obtain ⟨hp, hstep⟩ := hstep
  obtain ⟨a, -, hok⟩ := (reachable_consistent h).processes k _ hp
  obtain ⟨-, hothers⟩ := processStep_ok hok hstep
  exact fun j hj => ⟨List.getElem?_set_ne hj.symm, hothers j hj⟩

theorem childSteps_reachable {listen : ℤ} {k : ℕ} {s s' : Host}
    (h : (serverSystem registerZombieKiller spared listen).Reachable s)
    (hsteps : Relation.ReflTransGen (ChildStep spared k) s s') :
    (serverSystem registerZombieKiller spared listen).Reachable s' ∧
      ∀ j ≠ k, s'.processes[j]? = s.processes[j]? ∧ s'.connections j = s.connections j := by
  induction hsteps with
  | refl => exact ⟨h, fun _ _ => ⟨rfl, rfl⟩⟩
  | tail _ hlast ih =>
    refine ⟨reachable_step ih.1 hlast.hostStep, fun j hj => ?_⟩
    obtain ⟨hprocess, hconnection⟩ := childStep_others ih.1 hlast j hj
    exact ⟨hprocess.trans (ih.2 j hj).1, hconnection.trans (ih.2 j hj).2⟩

theorem childStep_mk {k : ℕ} {s : Host} {p p' : Process} {w : Connections} (hp : s.processes[k]? = some p)
    (hstep : ProcessStep spared (p, s.connections) (p', w)) :
    ∃ s', ChildStep spared k s s' ∧ s'.processes[k]? = some p' :=
  ⟨_, .mk hp hstep, List.getElem?_set_self (List.getElem?_eq_some_iff.mp hp).1⟩

theorem dispatch_no_exit (inp : Input) (s : Conn) (code : ℤ) : .exited code ∉ (dispatch inp s).1 := by
  have hfile : .exited code ∉ (serveFile inp.fopen s.openFiles s.req).events := by
    intro hmem
    rcases mem_serveFile hmem with ⟨ok, he⟩ | ⟨data, he⟩ | ⟨data, he⟩ <;> cases he
  by_cases hget : s.req.method = some (ascii "GET")
  · cases hret : (serveFile inp.fopen s.openFiles s.req).returns with
    | true =>
      rw [dispatch_get inp hget hret]
      simp [hfile, resetEvents]
    | false =>
      rw [dispatch_get_stuck hget hret]
      simp [hfile]
  · rw [dispatch_other hget]
    exact List.not_mem_nil

theorem step_no_exit {client : List UInt8} {s : Conn} {inp : Input} (h : (handleConnStep client s inp).2.isSome)
    (code : ℤ) :
    .exited code ∉ (handleConnStep client s inp).1 := by
  rcases step_cases client s inp with ⟨count, hstep⟩ |
    ⟨count, chunk, -, -, -, ⟨-, hstep⟩ | ⟨req, -, hstep⟩ | ⟨req, -, hstep⟩ | ⟨-, hstep⟩⟩
  · rw [hstep] at h
    cases h
  · rw [hstep]
    simp
  · rw [hstep] at h
    cases h
  · rw [hstep]
    simp [dispatch_no_exit]
  · rw [hstep]
    simp [dispatch_no_exit]

/-- A child at the loop head takes a read that it does not exit from, and gets to the end
of what it does then. -/
theorem child_iterates {listen : ℤ} {k : ℕ} {s : Host}
    (h : (serverSystem registerZombieKiller spared listen).Reachable s)
    {p : Process} {c : Call} {conn : Conn} (hp : s.processes[k]? = some p) (hphase : p.phase = .serving c)
    (hdone : c.todo = []) (hnext : c.next = some conn) (inp : Input)
    (hexit : ∀ code, .exited code ∉ (handleConnStep c.client conn inp).1) :
    ∃ s' p' c', Relation.ReflTransGen (ChildStep spared k) s s' ∧ s'.processes[k]? = some p' ∧ p'.phase = .serving c' ∧
      c'.inputs = c.inputs ++ [inp] ∧ c'.trace = c.trace ++ (handleConnStep c.client conn inp).1 ∧ c'.todo = [] ∧
      c'.next = (overrunStep spared c.client conn inp).2 := by
  obtain ⟨addr, hok⟩ := serving_ok h hp hphase
  obtain ⟨s₁, hread, hp₁⟩ := childStep_mk hp (.read inp hphase hdone hnext hok.socket)
  have hevents := overrunStep_events spared c.client conn inp
  obtain ⟨r, hr⟩ : ∃ r, overrunStep spared c.client conn inp = r := ⟨_, rfl⟩
  rw [hr] at hp₁ hevents
  rw [← hevents] at hexit
  obtain ⟨s', p', hsteps, hp', ⟨code, hcode, -⟩ | hserving⟩ :=
    child_drains r.1 (reachable_step h hread.hostStep) hp₁ rfl rfl
  · exact absurd hcode (hexit code)
  · exact ⟨s', p', _, .head hread hsteps, hp', hserving, rfl, by rw [← hevents]; rfl, rfl, by rw [hr]; rfl⟩

theorem Served.head_budget {addr : List UInt8} {conn : Connection} {c : Call} (h : Served spared addr conn c)
    {before : List Input} {inp : Input} (hlast : c.inputs = before ++ [inp]) : Budget c.head := by
  have hhead := h.head before inp hlast
  rw [overrunConn_state hhead] at hhead
  exact run_budget (budget_fresh h.fresh) hhead

/-- What a call has done at the end of an iteration is what the iterations before this one
did, and this one. -/
theorem Served.trace_eq {addr : List UInt8} {conn : Connection} {c : Call} (h : Served spared addr conn c)
    (hdone : c.todo = []) {before : List Input} {inp : Input} (hlast : c.inputs = before ++ [inp]) :
    c.trace = (overrunConn spared c.client c.start before).1 ++ (handleConnStep c.client c.head inp).1 ∧
      c.next = (overrunStep spared c.client c.head inp).2 := by
  have hbefore : overrunConn spared c.client c.start before =
      ((overrunConn spared c.client c.start before).1, some c.head) := Prod.ext rfl (h.head before inp hlast)
  have hrun := h.run
  rw [hlast, overrunConn, run_append hbefore, run_singleton, overrunStep_events, hdone, List.append_nil] at hrun
  obtain ⟨htrace, hnext⟩ := Prod.mk.inj hrun
  exact ⟨htrace.symm, hnext.symm⟩

/-- At the end of an iteration a call that nothing has overrun reads again, or copies on. -/
theorem Served.goes_on {addr : List UInt8} {conn : Connection} {c : Call} (h : Served spared addr conn c)
    (hdone : c.todo = []) (hsurvives : Survives spared c.trace) :
    c.next.isSome ∨ ∃ before inp req, c.inputs = before ++ [inp] ∧ Serving c.head inp req ∧
      (serveFile inp.fopen c.head.openFiles req).returns = false := by
  rcases List.eq_nil_or_concat c.inputs with hnil | ⟨before, inp, hlast⟩
  · have hrun := h.run
    rw [hnil, overrunConn, run_nil] at hrun
    exact Or.inl (by rw [← (Prod.mk.inj hrun).2]; rfl)
  rw [List.concat_eq_append] at hlast
  obtain ⟨htrace, hnext⟩ := h.trace_eq hdone hlast
  cases hstop : c.next with
  | some s => exact Or.inl rfl
  | none =>
    have hexit : ∀ code, .exited code ∉ (handleConnStep c.client c.head inp).1 := fun code hmem =>
      h.noExit code (by rw [htrace]; exact List.mem_append_right _ hmem)
    rw [htrace, survives_append] at hsurvives
    obtain ⟨req, hserving, hcopying⟩ :=
      overrunStep_copying (h.head_budget hlast) (hnext.symm.trans hstop) hexit hsurvives.2
    exact Or.inr ⟨before, inp, req, hlast, hserving, hcopying⟩

/-- The first of two children has called `handle_conn`. -/
theorem firstCall_reachable (spared : Bool) :
    ∃ s p c, (serverSystem registerZombieKiller spared 3).Reachable s ∧ s.processes[0]? = some p ∧ p.phase = .serving c ∧
      c.inputs = [] ∧ c.trace = [] ∧ c.todo = [] ∧ c.next = some (Conn.reset 0) ∧
      ∃ q, s.processes[1]? = some q ∧ q.phase.isAlive = true := by
  obtain ⟨s, p, q, h, -, -, hp, hphase, halive⟩ := twoChildren_reachable spared
  have hget : s.processes[0]? = some p := by rw [hp]; rfl
  have hother : s.processes[1]? = some q := by rw [hp]; rfl
  obtain ⟨s₁, hstep₁, hget₁⟩ := childStep_mk hget (.close hphase)
  have h₁ := reachable_step h hstep₁.hostStep
  obtain ⟨s₂, hstep₂, hget₂⟩ := childStep_mk hget₁ (.call rfl (fresh_reset 0) rfl)
  obtain ⟨h₂, hothers⟩ := childSteps_reachable h (.tail (.single hstep₁) hstep₂)
  exact ⟨s₂, _, _, h₂, hget₂, rfl, rfl, rfl, rfl, rfl, q, (hothers 1 (by decide)).1.trans hother, halive⟩

/-- It has done all that it does for its first read. -/
theorem firstRead_reachable (spared : Bool) (inp : Input)
    (hexit : ∀ client code, .exited code ∉ (handleConnStep client (Conn.reset 0) inp).1) :
    ∃ s p c, (serverSystem registerZombieKiller spared 3).Reachable s ∧ s.processes[0]? = some p ∧ p.phase = .serving c ∧
      c.inputs = [inp] ∧ c.todo = [] ∧
      (∃ client, c.trace = (handleConnStep client (Conn.reset 0) inp).1 ∧
        c.next = (overrunStep spared client (Conn.reset 0) inp).2) ∧
      ∃ q, s.processes[1]? = some q ∧ q.phase.isAlive = true := by
  obtain ⟨s, p, c, h, hp, hphase, hinputs, htrace, hdone, hnext, q, hq, halive⟩ := firstCall_reachable spared
  obtain ⟨s', p', c', hsteps, hp', hphase', hinputs', htrace', hdone', hnext'⟩ :=
    child_iterates h hp hphase hdone hnext inp (hexit c.client)
  obtain ⟨h', hothers⟩ := childSteps_reachable h hsteps
  rw [hinputs, List.nil_append] at hinputs'
  rw [htrace, List.nil_append] at htrace'
  exact ⟨s', p', c', h', hp', hphase', hinputs', hdone', ⟨c.client, htrace', hnext'⟩, q,
    (hothers 1 (by decide)).1.trans hq, halive⟩

/-- In every reachable state a child that serves can go on, by a step that does not end
it, exactly when it is not about to exit and has not got past a reset that does not spare
the loop: it waits in `read`, it does what is next in its iteration, or it copies a file,
and that for ever if no `fread` comes to the end of it. -/
theorem child_goes_on_iff {listen : ℤ} {s : Host} (h : (serverSystem registerZombieKiller spared listen).Reachable s)
    {k : ℕ} {p : Process} {c : Call} (hp : s.processes[k]? = some p) (hphase : p.phase = .serving c) :
    (∃ p' w c', ProcessStep spared (p, s.connections) (p', w) ∧ p'.phase = .serving c') ↔
      (∀ code, c.todo.head? ≠ some (.exited code)) ∧ (c.todo = [] → Survives spared c.trace) := by
  obtain ⟨addr, hok⟩ := serving_ok h hp hphase
  constructor
  · rintro ⟨p', w, c', hstep, hphase'⟩
    cases hstep with
    | close hstart | call hstart =>
      rw [hphase] at hstart
      cases hstart
    | read inp hcall hdone hnext =>
      obtain rfl := Phase.serving.inj (hphase.symm.trans hcall)
      refine ⟨by simp [hdone], fun _ => ?_⟩
      have hrun := hok.served.run
      rw [hdone, List.append_nil, hnext] at hrun
      have hsurvives := overrunConn_survives (congrArg Prod.snd hrun)
      rwa [hrun] at hsurvives
    | @fread _ _ _ before inp req r hcall hdone hlast hserving hcopying =>
      obtain rfl := Phase.serving.inj (hphase.symm.trans hcall)
      refine ⟨by simp [hdone], fun _ => ?_⟩
      rw [(hok.served.trace_eq hdone hlast).1, survives_append]
      exact ⟨overrunConn_survives (hok.served.head before inp hlast),
        Or.inr (copying_inside _ (hok.served.head_budget hlast) hserving hcopying)⟩
    | emit hcall htodo hperforms =>
      obtain rfl := Phase.serving.inj (hphase.symm.trans hcall)
      rw [htodo]
      exact ⟨fun code heq => hperforms.not_exited code (Option.some.inj heq), fun hdone => (by cases hdone)⟩
    | exit | kill => cases hphase'
  · rintro ⟨hexit, hsurvives⟩
    cases htodo : c.todo with
    | cons e rest =>
      have hnext : ∀ code, e ≠ .exited code := fun code heq => hexit code (by rw [htodo, heq]; rfl)
      obtain ⟨fds, w, hperforms⟩ := serving_performs h hp hphase hnext
      exact ⟨_, _, _, .emit hphase htodo hperforms, rfl⟩
    | nil =>
      rcases hok.served.goes_on htodo (hsurvives htodo) with hnext | ⟨before, inp, req, hlast, hserving, hcopying⟩
      · obtain ⟨conn, hconn⟩ := Option.isSome_iff_exists.mp hnext
        exact ⟨_, _, _, .read (Input.bare []) hphase htodo hconn hok.socket, rfl⟩
      · exact ⟨_, _, _, .fread ⟨[], true, Nat.zero_le _⟩ hphase htodo hlast hserving hcopying, rfl⟩

/-- A request for the index where the index is a directory: no `fread` comes to its end. -/
def askDirectory : Input := ⟨some plainHead.bytes, fun _ _ => some ⟨4096, []⟩, []⟩

theorem inside_askDirectory (client : List UInt8) : Inside (handleConnStep client (Conn.reset 0) askDirectory).1 := by
  rcases hstep : handleConnStep client (Conn.reset 0) askDirectory with ⟨es, o⟩
  refine (step_inside client (budget_fresh (fresh_reset 0)) hstep).mpr fun req _ => ?_
  have hopen : askDirectory.fopen (Conn.reset 0).openFiles (fname (req.path.getD [])) = some ⟨4096, []⟩ := rfl
  rw [serveFile_some hopen]
  rfl

/-- As the program is built, a child goes on copying a directory, and does not go on behind
the answer to a request. -/
theorem child_goes_on_directory :
    (∃ (s : Host) (p : Process) (c : Call), s.processes[0]? = some p ∧ p.phase = .serving c ∧
      c.inputs = [askDirectory] ∧ c.todo = [] ∧
      ∃ p' w c', ProcessStep false (p, s.connections) (p', w) ∧ p'.phase = .serving c') ∧
    ∃ (s : Host) (p : Process) (c : Call), s.processes[0]? = some p ∧ p.phase = .serving c ∧
      c.inputs = [Input.bare plainHead.bytes] ∧ c.todo = [] ∧
      ¬ ∃ p' w c', ProcessStep false (p, s.connections) (p', w) ∧ p'.phase = .serving c' := by
  have hexit : ∀ inp : Input, inp.read = some plainHead.bytes →
      ∀ client code, .exited code ∉ (handleConnStep client (Conn.reset 0) inp).1 := by
    intro inp hread client code
    rw [plainHead.step_serve client [] (fresh_reset 0) (plainHead.read_alone hread) plainHead.fits_alone]
    simp [dispatch_no_exit]
  constructor
  · obtain ⟨s, p, c, h, hp, hphase, hinputs, hdone, ⟨client, htrace, -⟩, -⟩ :=
      firstRead_reachable false askDirectory (hexit askDirectory rfl)
    refine ⟨s, p, c, hp, hphase, hinputs, hdone, (child_goes_on_iff h hp hphase).mpr ⟨by simp [hdone], fun _ => ?_⟩⟩
    rw [htrace]
    exact Or.inr (inside_askDirectory client)
  · obtain ⟨s, p, c, h, hp, hphase, hinputs, hdone, ⟨client, htrace, -⟩, -⟩ :=
      firstRead_reachable false (Input.bare plainHead.bytes) (hexit _ rfl)
    refine ⟨s, p, c, hp, hphase, hinputs, hdone, fun hgoes => ?_⟩
    have hread := plainHead.read_alone (show (Input.bare plainHead.bytes).read = some plainHead.bytes from rfl)
    have hret : (serveFile (Input.bare plainHead.bytes).fopen 0 (plainHead.request HttpRequest.zero)).returns = true := by
      rw [serveFile_none (by rfl)]
    have hstep := plainHead.step_served client [] (fresh_reset 0) hread plainHead.fits_alone hret
    have hserves := (plainHead.step_trace client [] (fresh_reset 0) hread plainHead.fits_alone).2.1
    have hinside := step_inside_iff client (budget_fresh (fresh_reset 0)) (congrArg Prod.snd hstep)
    have hsurvives := ((child_goes_on_iff h hp hphase).mp hgoes).2 hdone
    rw [htrace, Survives, hinside, hserves] at hsurvives
    simp at hsurvives

end CeeServe.Server
