import CeeServe.Server.Children
import CeeServe.Static.Session

/-! # Every client has a server to itself

A client that asks for one file at a time gets the replies of a session of its own,
however many other clients there are, and however the processes take turns; as the
program is built, it gets the first of them.
-/
namespace CeeServe.Server
open CString Static Framing Transition Machine
variable {spared : Bool}

theorem serving_session {listen : ℤ} {s : Host} (h : (serverSystem registerZombieKiller spared listen).Reachable s)
    {k : ℕ} {p : Process} {c : Call} (hp : s.processes[k]? = some p) (hphase : p.phase = .serving c) {fs : FileSystem}
    {limit : ℕ} {inputs : List Input} {heads : List GetHead} (hin : List.Forall₂ (AsksFor fs limit) inputs heads) :
    (handleConn c.client c.start inputs).2.isSome ∧ decode nextReply (output (handleConn c.client c.start inputs).1) =
      some ((⟨fs, limit⟩ : Session).replies (heads.map fun h => fname h.path)) := by
  obtain ⟨addr, hok⟩ := serving_ok h hp hphase
  exact run_session c.client ⟨hok.served.fresh, rfl, by rw [hok.served.files, Nat.zero_add]⟩ hin

theorem asksFor_index (limit : ℕ) : AsksFor indexOnly limit (askIndex limit) plainHead :=
  ⟨⟨[], by rw [List.append_nil]; rfl, plainHead.fits_alone⟩, rfl⟩

theorem answered_reachable (spared : Bool) :
    ∃ s p c, (serverSystem registerZombieKiller spared 3).Reachable s ∧ s.processes[0]? = some p ∧ p.phase = .serving c ∧
      c.inputs = [askIndex 2] ∧ c.todo = [] ∧
      (∃ client, c.trace = (handleConnStep client (Conn.reset 0) (askIndex 2)).1 ∧
        c.next = (overrunStep spared client (Conn.reset 0) (askIndex 2)).2) ∧
      decode nextReply (s.connections 0).sent = some [⟨200, ascii "a\r\n\r\nb"⟩] ∧
      ∃ q, s.processes[1]? = some q ∧ q.phase.isAlive = true := by
  have hsession : InSession indexOnly 2 (Conn.reset 0) ⟨indexOnly, 2⟩ := ⟨fresh_reset 0, rfl, rfl⟩
  have hexit : ∀ client code, .exited code ∉ (handleConnStep client (Conn.reset 0) (askIndex 2)).1 := by
    intro client
    obtain ⟨es, s', hstep, -⟩ := step_session client hsession (asksFor_index 2)
    exact step_no_exit (by rw [hstep]; rfl)
  obtain ⟨s, p, c, h, hp, hphase, hinputs, hdone, ⟨client, htrace, hnext⟩, hother⟩ :=
    firstRead_reachable spared (askIndex 2) hexit
  obtain ⟨addr, hok⟩ := serving_ok h hp hphase
  obtain ⟨es, s', hstep, henc, -⟩ := step_session client hsession (asksFor_index 2)
  have hsent : (s.connections 0).sent = output es := by rw [hok.served.sent, htrace, hstep]
  have hdecode := decode_encoded (.cons henc .nil)
  rw [List.flatten_singleton, ← hsent] at hdecode
  have hanswer : ((⟨indexOnly, 2⟩ : Session).answer (fname plainHead.path)).1 = ⟨200, ascii "a\r\n\r\nb"⟩ := by
    decide +kernel
  exact ⟨s, p, c, h, hp, hphase, hinputs, hdone, ⟨client, htrace, hnext⟩, hdecode.trans (by rw [hanswer]), hother⟩

/-- In every reachable state: the bytes on the `k`-th connection are what `handle_conn`
sends, called for the address that the `k`-th `accept` returned and with locals of any
content, on the reads made from this connection, as far as its child has got. -/
theorem connection_is_run {listen : ℤ} {s : Host} (h : (serverSystem registerZombieKiller spared listen).Reachable s)
    {k : ℕ} (hk : k < s.processes.length) :
    ∃ (a : Answer) (start : Conn) (inputs : List Input) (trace todo : List Event),
      s.answers[k]? = some a ∧ Fresh start ∧ start.openFiles = 0 ∧
        (s.connections k).reads = inputs.map Input.read ∧
        (handleConn (clientText a.clientAddr) start inputs).1 = trace ++ todo ∧
        (s.connections k).sent = output trace := by
  obtain ⟨a, ha, hok⟩ := (reachable_consistent h).processes k s.processes[k] (List.getElem?_eq_getElem hk)
  obtain ⟨c, hc⟩ := hok.some_call
  have hrun := hc.events
  rw [hc.client] at hrun
  exact ⟨a, c.start, c.inputs, c.trace, c.todo, ha, hc.fresh, hc.files, hc.reads, hrun, hc.sent⟩

theorem connection_is_run_answered :
    ∃ s : Host, 1 < s.processes.length ∧ decode nextReply (s.connections 0).sent = some [⟨200, ascii "a\r\n\r\nb"⟩] ∧
      ∃ (a : Answer) (start : Conn) (inputs : List Input) (trace todo : List Event),
        s.answers[0]? = some a ∧ Fresh start ∧ start.openFiles = 0 ∧
          (s.connections 0).reads = inputs.map Input.read ∧
          (handleConn (clientText a.clientAddr) start inputs).1 = trace ++ todo ∧
          (s.connections 0).sent = output trace := by
  obtain ⟨s, p, c, h, hp, -, -, -, -, hdecode, q, hq, -⟩ := answered_reachable false
  exact ⟨s, (List.getElem?_eq_some_iff.mp hq).1, hdecode, connection_is_run h (List.getElem?_eq_some_iff.mp hp).1⟩

theorem child_serves {listen : ℤ} {k : ℕ} {fs : FileSystem} {limit : ℕ} {later : List Input}
    {laterHeads : List GetHead} (hlater : List.Forall₂ (AsksFor fs limit) later laterHeads) {s : Host}
    (h : (serverSystem registerZombieKiller spared listen).Reachable s) {p : Process} {c : Call}
    (hp : s.processes[k]? = some p) (hphase : p.phase = .serving c) (hdone : c.todo = []) {heads : List GetHead}
    (hin : List.Forall₂ (AsksFor fs limit) c.inputs heads)
    (hcan : later = [] ∨ c.next.isSome ∧ (spared = true ∨ later.length ≤ 1)) :
    ∃ s' p' c', Relation.ReflTransGen (ChildStep spared k) s s' ∧ s'.processes[k]? = some p' ∧ p'.phase = .serving c' ∧
      c'.todo = [] ∧ c'.inputs = c.inputs ++ later := by
  -- where the resets do not spare the loop one request at most is still to come, and no
  -- loop head is needed behind it
  induction hlater generalizing s p c heads with
  | nil => exact ⟨s, p, c, .refl, hp, hphase, hdone, by rw [List.append_nil]⟩
  | @cons inp head later laterHeads hask _ ih =>
    obtain ⟨hsome, hmany⟩ := hcan.resolve_left (List.cons_ne_nil inp later)
    obtain ⟨conn, hnext⟩ := Option.isSome_iff_exists.mp hsome
    obtain ⟨addr, hok⟩ := serving_ok h hp hphase
    have hmore : List.Forall₂ (AsksFor fs limit) (c.inputs ++ [inp]) (heads ++ [head]) :=
      List.rel_append hin (.cons hask .nil)
    have hgoes := (serving_session h hp hphase hmore).1
    rw [handleConn, run_concat_state (hok.served.next_eq hnext)] at hgoes
    obtain ⟨s₁, p₁, c₁, hsteps₁, hp₁, hphase₁, hinputs₁, -, hdone₁, hnext₁⟩ :=
      child_iterates h hp hphase hdone hnext inp (step_no_exit hgoes)
    rw [← hinputs₁] at hmore
    have hcan₁ : later = [] ∨ c₁.next.isSome ∧ (spared = true ∨ later.length ≤ 1) := by
      rcases hmany with rfl | hone
      · rw [overrunStep_spared] at hnext₁
        exact Or.inr ⟨hnext₁ ▸ hgoes, Or.inl rfl⟩
      · exact Or.inl (List.eq_nil_of_length_eq_zero (Nat.le_zero.mp (Nat.le_of_succ_le_succ hone)))
    obtain ⟨s', p', c', hsteps, hp', hphase', hdone', hinputs⟩ :=
      ih (childSteps_reachable h hsteps₁).1 hp₁ hphase₁ hdone₁ hmore hcan₁
    refine ⟨s', p', c', hsteps₁.trans hsteps, hp', hphase', hdone', ?_⟩
    rw [hinputs, hinputs₁, List.append_assoc, List.singleton_append]

/-- In every reachable state: where the reads of a child have brought whole heads, what
its connection has carried is the beginning of the replies of a session with all its
descriptors left, and behind the last thing the child does for them it is all of them. -/
theorem client_gets_replies {listen : ℤ} {s : Host}
    (h : (serverSystem registerZombieKiller spared listen).Reachable s) {k : ℕ}
    {p : Process} {c : Call} (hp : s.processes[k]? = some p) (hphase : p.phase = .serving c) {fs : FileSystem}
    {limit : ℕ} {heads : List GetHead} (hin : List.Forall₂ (AsksFor fs limit) c.inputs heads) :
    ∃ rest, (c.todo = [] → rest = []) ∧ decode nextReply ((s.connections k).sent ++ rest) =
      some ((⟨fs, limit⟩ : Session).replies (heads.map fun h => fname h.path)) := by
  obtain ⟨addr, hok⟩ := serving_ok h hp hphase
  have hdecode := (serving_session h hp hphase hin).2
  rw [hok.served.events] at hdecode
  refine ⟨output c.todo, fun hdone => by rw [hdone, output_nil], ?_⟩
  rw [hok.served.sent, ← output_append]
  exact hdecode

/-- As the program is built a client has got the reply to one request for the index. With
one descriptor, and a loop that survives its resets, it has got two, the second one as if
there were no such file. -/
theorem client_gets_replies_index :
    (∃ s : Host, 1 < s.processes.length ∧ decode nextReply (s.connections 0).sent =
      some ((⟨indexOnly, 2⟩ : Session).replies ([plainHead].map fun h => fname h.path))) ∧
    ∃ s : Host, decode nextReply (s.connections 0).sent = some [⟨200, ascii "a\r\n\r\nb"⟩, ⟨404, []⟩] := by
  constructor
  · obtain ⟨s, p, c, h, hp, hphase, hinputs, hdone, -, -, q, hq, -⟩ := answered_reachable false
    have hin : List.Forall₂ (AsksFor indexOnly 2) c.inputs [plainHead] := by
      rw [hinputs]
      exact .cons (asksFor_index 2) .nil
    obtain ⟨rest, hrest, hdecode⟩ := client_gets_replies h hp hphase hin
    rw [hrest hdone, List.append_nil] at hdecode
    exact ⟨s, (List.getElem?_eq_some_iff.mp hq).1, hdecode⟩
  · obtain ⟨s, p, c, h, hp, hphase, hinputs, -, hdone, hnext, -⟩ := firstCall_reachable true
    have hnone : List.Forall₂ (AsksFor indexOnly 1) c.inputs [] := hinputs ▸ .nil
    have hlater : List.Forall₂ (AsksFor indexOnly 1) [askIndex 1, askIndex 1] [plainHead, plainHead] :=
      .cons (asksFor_index 1) (.cons (asksFor_index 1) .nil)
    obtain ⟨s', p', c', hsteps, hp', hphase', hdone', hinputs'⟩ :=
      child_serves hlater h hp hphase hdone hnone (Or.inr ⟨by rw [hnext]; rfl, Or.inl rfl⟩)
    rw [hinputs, List.nil_append] at hinputs'
    rw [← hinputs'] at hlater
    obtain ⟨rest, hrest, hdecode⟩ := client_gets_replies (childSteps_reachable h hsteps).1 hp' hphase' hlater
    have hreplies : (⟨indexOnly, 1⟩ : Session).replies ([plainHead, plainHead].map fun h : GetHead => fname h.path) =
        [⟨200, ascii "a\r\n\r\nb"⟩, ⟨404, []⟩] := by decide +kernel
    rw [hrest hdone', List.append_nil, hreplies] at hdecode
    exact ⟨s', hdecode⟩

/-- From every reachable state with a child at the loop head: whatever file its client
asks for, and if the loop survives its resets whatever files from then on, the child can
send all the replies by steps of its own, and no other child or connection is touched. -/
theorem requests_are_answered {listen : ℤ} {s : Host}
    (h : (serverSystem registerZombieKiller spared listen).Reachable s) {k : ℕ}
    {p : Process} {c : Call} (hp : s.processes[k]? = some p) (hphase : p.phase = .serving c) (hdone : c.todo = [])
    (hnext : c.next.isSome) {fs : FileSystem} {limit : ℕ} {heads : List GetHead}
    (hin : List.Forall₂ (AsksFor fs limit) c.inputs heads) {later : List Input} {laterHeads : List GetHead}
    (hlater : List.Forall₂ (AsksFor fs limit) later laterHeads) (hcan : spared = true ∨ later.length ≤ 1) :
    ∃ s', Relation.ReflTransGen (ChildStep spared k) s s' ∧
      (s'.connections k).reads = (s.connections k).reads ++ later.map Input.read ∧
      decode nextReply (s'.connections k).sent =
        some ((⟨fs, limit⟩ : Session).replies ((heads ++ laterHeads).map fun h => fname h.path)) ∧
      ∀ j ≠ k, s'.processes[j]? = s.processes[j]? ∧ s'.connections j = s.connections j := by
  obtain ⟨s', p', c', hsteps, hp', hphase', hdone', hinputs⟩ :=
    child_serves hlater h hp hphase hdone hin (Or.inr ⟨hnext, hcan⟩)
  obtain ⟨h', hothers⟩ := childSteps_reachable h hsteps
  obtain ⟨addr, hok⟩ := serving_ok h hp hphase
  obtain ⟨addr', hok'⟩ := serving_ok h' hp' hphase'
  refine ⟨s', hsteps, ?_, ?_, hothers⟩
  · rw [hok'.served.reads, hok.served.reads, hinputs, List.map_append]
  · have hall : List.Forall₂ (AsksFor fs limit) (c.inputs ++ later) (heads ++ laterHeads) := List.rel_append hin hlater
    rw [← hinputs] at hall
    have hdecode := (serving_session h' hp' hphase' hall).2
    rwa [hok'.served.events, hdone', List.append_nil, ← hok'.served.sent] at hdecode

theorem requests_are_answered_index :
    (∃ s s' : Host, Relation.ReflTransGen (ChildStep false 0) s s' ∧
      decode nextReply (s'.connections 0).sent = some [⟨200, ascii "a\r\n\r\nb"⟩]) ∧
    ∃ s s' : Host, Relation.ReflTransGen (ChildStep true 0) s s' ∧
      decode nextReply (s'.connections 0).sent = some [⟨200, ascii "a\r\n\r\nb"⟩, ⟨404, []⟩] := by
  constructor
  · obtain ⟨s, p, c, h, hp, hphase, hinputs, -, hdone, hnext, -⟩ := firstCall_reachable false
    have hin : List.Forall₂ (AsksFor indexOnly 1) c.inputs [] := hinputs ▸ .nil
    obtain ⟨s', hsteps, -, hdecode, -⟩ := requests_are_answered h hp hphase hdone (by rw [hnext]; rfl) hin
      (.cons (asksFor_index 1) .nil) (Or.inr le_rfl)
    have hreplies : (⟨indexOnly, 1⟩ : Session).replies (([] ++ [plainHead]).map fun h : GetHead => fname h.path) =
        [⟨200, ascii "a\r\n\r\nb"⟩] := by decide +kernel
    exact ⟨s, s', hsteps, hdecode.trans (congrArg some hreplies)⟩
  · obtain ⟨s, p, c, h, hp, hphase, hinputs, -, hdone, hnext, -⟩ := firstCall_reachable true
    have hin : List.Forall₂ (AsksFor indexOnly 1) c.inputs [] := hinputs ▸ .nil
    obtain ⟨s', hsteps, -, hdecode, -⟩ := requests_are_answered h hp hphase hdone (by rw [hnext]; rfl) hin
      (.cons (asksFor_index 1) (.cons (asksFor_index 1) .nil)) (Or.inl rfl)
    have hreplies : (⟨indexOnly, 1⟩ : Session).replies (([] ++ [plainHead, plainHead]).map fun h : GetHead => fname h.path) =
        [⟨200, ascii "a\r\n\r\nb"⟩, ⟨404, []⟩] := by decide +kernel
    exact ⟨s, s', hsteps, hdecode.trans (congrArg some hreplies)⟩

end CeeServe.Server
