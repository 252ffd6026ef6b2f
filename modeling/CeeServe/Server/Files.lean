import CeeServe.Server.Clients
import Mathlib.Data.List.Nodup

/-! # The files a child holds

`serve_file` closes nothing it opens. So the table of a child has one descriptor for each
file it ever opened, under the names its own client asked for, and the count that
`handle_conn` is modelled with is the number of these descriptors.
-/
namespace CeeServe.Server
open CString Static Transition Machine
variable {spared : Bool}

/-- The names looked up are those of requests served, and the count of open files goes
with the files opened. -/
structure Opens (tr : List Event) (n : ℕ) (next : Option Conn) : Prop where
  asked : ∀ name ok, .fopened name ok ∈ tr → ∃ req ∈ serves tr, name = fname (req.path.getD [])
  counted : ∀ s', next = some s' → s'.openFiles = n + (opened tr).length

theorem serveFile_counts (fopen : Fopen) (n : ℕ) (req : HttpRequest) :
    (serveFile fopen n req).openFiles = n + (opened (serveFile fopen n req).events).length := by
  cases h : fopen n (fname (req.path.getD [])) with
  | none =>
    rw [serveFile_none h]
    rfl
  | some file =>
    have hone : ∀ (name head : List UInt8) (bodies : List (List UInt8)),
        opened (.fopened name true :: .sentResponse head :: bodies.map .sentBody) = name :: opened (bodies.map .sentBody) :=
      fun _ _ _ => rfl
    rw [serveFile_some h, hone, opened_bodies]
    rfl

theorem dispatch_opens (inp : Input) (s : Conn) :
    Opens (dispatch inp s).1 s.openFiles (dispatch inp s).2 := by
  have hnames : ∀ (rest : List Event), (∀ name ok, .fopened name ok ∉ rest) → ∀ name ok,
      .fopened name ok ∈ .served s.req :: ((serveFile inp.fopen s.openFiles s.req).events ++ rest) →
        ∃ req ∈ serves (.served s.req :: ((serveFile inp.fopen s.openFiles s.req).events ++ rest)),
          name = fname (req.path.getD []) := by
    intro rest hrest name ok hmem
    refine ⟨s.req, by simp, ?_⟩
    rcases List.mem_cons.mp hmem with h | h
    · cases h
    rcases List.mem_append.mp h with h | h
    · rcases mem_serveFile h with ⟨ok', he⟩ | ⟨data, he⟩ | ⟨data, he⟩
      · exact (Event.fopened.inj he).1
      · cases he
      · cases he
    · exact absurd h (hrest name ok)
  by_cases hget : s.req.method = some (ascii "GET")
  · cases hret : (serveFile inp.fopen s.openFiles s.req).returns with
    | true =>
      rw [dispatch_get inp hget hret]
      refine ⟨hnames resetEvents (by simp [resetEvents]), fun s' hs' => ?_⟩
      obtain rfl := Option.some.inj hs'
      have hserved : opened (.served s.req :: (serveFile inp.fopen s.openFiles s.req).events ++ resetEvents) =
          opened (serveFile inp.fopen s.openFiles s.req).events ++ [] := opened_append _ _
      rw [hserved, List.append_nil]
      exact serveFile_counts inp.fopen s.openFiles s.req
    | false =>
      rw [dispatch_get_stuck hget hret]
      refine ⟨?_, by simp⟩
      simpa using hnames [] (by simp)
  · rw [dispatch_other hget]
    refine ⟨by simp, fun s' hs' => ?_⟩
    obtain rfl := Option.some.inj hs'
    rfl

theorem step_opens (client : List UInt8) (s : Conn) (inp : Input) :
    Opens (handleConnStep client s inp).1 s.openFiles (handleConnStep client s inp).2 := by
  have hbehind : ∀ (before : List Event) {t : Conn}, (∀ name ok, .fopened name ok ∉ before) → opened before = [] →
      Opens (before ++ (dispatch inp t).1) t.openFiles (dispatch inp t).2 := by
    intro before t hbefore hnone
    obtain ⟨hasked, hcounted⟩ := dispatch_opens inp t
    refine ⟨fun name ok hmem => ?_, fun s' hs' => ?_⟩
    · rcases List.mem_append.mp hmem with h | h
      · exact absurd h (hbefore name ok)
      · obtain ⟨req, hreq, hname⟩ := hasked name ok h
        exact ⟨req, by rw [serves_append]; exact List.mem_append_right _ hreq, hname⟩
    · rw [opened_append, hnone, List.nil_append]
      exact hcounted s' hs'
  rcases step_cases client s inp with ⟨count, h⟩ |
    ⟨count, chunk, -, -, -, ⟨-, h⟩ | ⟨req, -, h⟩ | ⟨req, -, h⟩ | ⟨-, h⟩⟩
  · rw [h]
    exact ⟨by simp, by simp⟩
  · rw [h]
    refine ⟨by simp, fun s' hs' => ?_⟩
    obtain rfl := Option.some.inj hs'
    rfl
  · rw [h]
    exact ⟨by simp, by simp⟩
  · rw [h]
    exact hbehind [.read count, .wrote .data chunk.length, .parsed 0 req, .logged (logRequest client req s.resp)]
      (t := { s.receive chunk with readingHeaders := false, req := req }) (by simp) rfl
  · rw [h]
    exact hbehind [.read count, .wrote .data chunk.length] (t := s.receive chunk) (by simp) rfl

theorem run_opens (client : List UInt8) (s : Conn) (inputs : List Input) :
    Opens (handleConn client s inputs).1 s.openFiles (handleConn client s inputs).2 := by
  refine ⟨?_, fun s' hrun => ?_⟩
  · refine run_trace (T := fun _ tr => ∀ name ok, .fopened name ok ∈ tr → ∃ req ∈ serves tr, name = fname (req.path.getD []))
      (by simp) (fun s inp es hstep => ?_) (fun s inp es s' tr hstep htr => ?_) s inputs
    · have h := (step_opens client s inp).asked
      rwa [hstep] at h
    · have h := (step_opens client s inp).asked
      rw [hstep] at h
      intro name ok hmem
      rw [serves_append]
      rcases List.mem_append.mp hmem with hmem | hmem
      · obtain ⟨req, hreq, hname⟩ := h name ok hmem
        exact ⟨req, List.mem_append_left _ hreq, hname⟩
      · obtain ⟨req, hreq, hname⟩ := htr name ok hmem
        exact ⟨req, List.mem_append_right _ hreq, hname⟩
  · refine run_accounts (A := fun (s : Conn) tr s' => s'.openFiles = s.openFiles + (opened tr).length) (fun _ => rfl)
      (fun inp _ s es s₁ hstep tr s' htr => ?_) hrun
    have h := (step_opens client s inp).counted
    rw [hstep] at h
    rw [htr, h s₁ rfl, opened_append, List.length_append, Nat.add_assoc]

/-- The table has one descriptor for each of these files, and refers to no other file. -/
def Holds (fds : Descriptors) (names : List (List UInt8)) : Prop :=
  ∃ ds : List (ℤ × List UInt8), (ds.map Prod.fst).Nodup ∧
    (∀ d name, fds d = some (.file name) ↔ (d, name) ∈ ds) ∧ ds.map Prod.snd = names

theorem holds_nil {fds : Descriptors} (h : ∀ d name, fds d ≠ some (.file name)) : Holds fds [] :=
  ⟨[], List.nodup_nil, fun d name => iff_of_false (h d name) (List.not_mem_nil), rfl⟩

theorem Holds.fopen {fds : Descriptors} {names : List (List UInt8)} (h : Holds fds names) {d : ℤ}
    (hfree : fds d = none)
    (name : List UInt8) : Holds (Function.update fds d (some (.file name))) (names ++ [name]) := by
  obtain ⟨ds, hnodup, htable, hnames⟩ := h
  have hnew : d ∉ ds.map Prod.fst := by
    intro hmem
    obtain ⟨⟨e, name'⟩, he, rfl⟩ := List.mem_map.mp hmem
    rw [(htable e name').mpr he] at hfree
    cases hfree
  refine ⟨ds ++ [(d, name)], ?_, fun e name' => ?_, by simp [hnames]⟩
  · rw [List.map_append, List.nodup_append]
    exact ⟨hnodup, List.nodup_singleton d, fun a ha b hb heq => hnew (by simp_all)⟩
  · rw [List.mem_append, List.mem_singleton]
    by_cases heq : e = d
    · subst heq
      have hnot : (e, name') ∉ ds := fun hmem => hnew (List.mem_map_of_mem hmem)
      simp [hnot, eq_comm]
    · rw [Function.update_of_ne heq, htable e name']
      simp [heq]

def FilesOk (p : Process) : Prop := ∀ c, p.phase = .serving c → Holds p.descriptors (opened c.trace)

theorem opened_payload {e : Event} {data : List UInt8} (h : payload e = some data) : opened [e] = [] := by
  cases e <;> simp [payload] at h <;> rfl

theorem opened_internal {e : Event} (h : Internal e) : opened [e] = [] := by
  cases e with
  | fopened name ok =>
    obtain rfl : ok = false := h
    rfl
  | _ => rfl

theorem processStep_files {listen : ℤ} {k : ℕ} {addr : List UInt8} {p p' : Process} {w w' : Connections}
    (hok : ProcessOk spared listen k addr (w k) p) (h : FilesOk p) (hstep : ProcessStep spared (p, w) (p', w')) :
    FilesOk p' := by
  intro c' hphase'
  cases hstep with
  | close => cases hphase'
  | call hphase =>
    obtain rfl := Phase.serving.inj hphase'
    simp only [ProcessOk, hphase] at hok
    obtain ⟨-, socket, -, ⟨hacts, -⟩ | ⟨-, hfds⟩⟩ := hok
    · cases hacts
    · apply holds_nil
      intro d name
      rw [hfds, Function.update_apply]
      split <;> simp
  | @read _ _ c _ _ inp hphase =>
    obtain rfl := Phase.serving.inj hphase'
    exact h c hphase
  | @fread _ _ c _ _ _ r hphase =>
    obtain rfl := Phase.serving.inj hphase'
    exact h c hphase
  | @emit _ _ _ _ c e rest hphase htodo hperforms =>
    obtain rfl := Phase.serving.inj hphase'
    have hheld := h c hphase
    rw [Call.emit, opened_append]
    cases hperforms with
    | send hdata =>
      rw [opened_payload hdata, List.append_nil]
      exact hheld
    | fopen hfree => exact hheld.fopen hfree _
    | internal he =>
      rw [opened_internal he, List.append_nil]
      exact hheld
  | exit => cases hphase'
  | kill => cases hphase'

theorem reachable_files {listen : ℤ} {s : Host} (h : (serverSystem registerZombieKiller spared listen).Reachable s) :
    Consistent spared listen s ∧ ∀ p ∈ s.processes, FilesOk p := by
  refine reachable_invariant (I := fun s : Host => Consistent spared listen s ∧ ∀ p ∈ s.processes, FilesOk p)
    (fun s hs => ?_) (fun s s' hs hstep => ⟨step_consistent hs.1 hstep, ?_⟩) h
  · rw [show s = booted listen from hs]
    exact ⟨consistent_booted listen, by simp [booted]⟩
  obtain ⟨hconsistent, hall⟩ := hs
  cases hstep with
  | iterate =>
    refine List.forall_mem_append.mpr ⟨hall, List.forall_mem_singleton.mpr ?_⟩
    rintro c ⟨⟩
  | process hp hstep =>
    obtain ⟨a, -, hok⟩ := hconsistent.processes _ _ hp
    exact forall_set hall _ (processStep_files hok (hall _ (List.mem_of_getElem? hp)) hstep)
  | signal hstep =>
    cases hstep with
    | reap =>
      refine forall_set hall _ ?_
      rintro c ⟨⟩
    | deliver | reapNone | finish => exact hall
  | stop | act | interrupt => exact hall

/-- In every reachable state the table of a child that serves has one descriptor for each
file opened on its connection so far, in order, each with a name that a request of its
own client led to; at the loop head these are as many as the loop counts. -/
theorem files_held {listen : ℤ} {s : Host} (h : (serverSystem registerZombieKiller spared listen).Reachable s) {k : ℕ}
    {p : Process} {c : Call} (hp : s.processes[k]? = some p) (hphase : p.phase = .serving c) :
    ∃ ds : List (ℤ × List UInt8), (ds.map Prod.fst).Nodup ∧
      (∀ d name, p.descriptors d = some (.file name) ↔ (d, name) ∈ ds) ∧ ds.map Prod.snd = opened c.trace ∧
      (∀ name ∈ ds.map Prod.snd,
        ∃ req ∈ serves (handleConn c.client c.start c.inputs).1, name = fname (req.path.getD [])) ∧
      ∀ conn, c.todo = [] → c.next = some conn → ds.length = conn.openFiles := by
  obtain ⟨hconsistent, hall⟩ := reachable_files h
  obtain ⟨a, -, hok⟩ := hconsistent.processes k p hp
  simp only [ProcessOk, hphase] at hok
  obtain ⟨ds, hnodup, htable, hnames⟩ := hall p (List.mem_of_getElem? hp) c hphase
  obtain ⟨hasked, hcounted⟩ := run_opens c.client c.start c.inputs
  refine ⟨ds, hnodup, htable, hnames, fun name hname => ?_, fun conn hdone hnext => ?_⟩
  · rw [hnames] at hname
    obtain ⟨e, he, hopened⟩ := List.mem_filterMap.mp hname
    have hevent : e = .fopened name true := by
      cases e with
      | fopened name' ok => cases ok <;> simp at hopened; rw [hopened]
      | _ => cases hopened
    apply hasked name true
    rw [hok.served.events, ← hevent]
    exact List.mem_append_left _ he
  · have hcount := hcounted conn (hok.served.next_eq hnext)
    rw [hok.served.events, hdone, List.append_nil, hok.served.files, Nat.zero_add, ← hnames, List.length_map] at hcount
    exact hcount.symm

/-- The child that has answered one request for the index holds this file, as the program
is built and where the resets spare the loop. -/
theorem files_held_index :
    (∃ (p : Process) (c : Call) (d : ℤ), c.inputs = [askIndex 2] ∧ c.next = none ∧
      ∃ ds : List (ℤ × List UInt8), ds = [(d, ascii "index.html")] ∧
        (∀ d name, p.descriptors d = some (.file name) ↔ (d, name) ∈ ds) ∧
        ∀ name ∈ ds.map Prod.snd,
          ∃ req ∈ serves (handleConn c.client c.start c.inputs).1, name = fname (req.path.getD [])) ∧
    ∃ (p : Process) (c : Call) (d : ℤ), c.inputs = [askIndex 2] ∧ c.next = some (Conn.reset 1) ∧
      ∃ ds : List (ℤ × List UInt8), ds = [(d, ascii "index.html")] ∧
        (∀ d name, p.descriptors d = some (.file name) ↔ (d, name) ∈ ds) ∧
        ds.length = (Conn.reset 1).openFiles := by
  have hserved : ∀ client, opened (handleConnStep client (Conn.reset 0) (askIndex 2)).1 = [ascii "index.html"] ∧
      (overrunStep false client (Conn.reset 0) (askIndex 2)).2 = none ∧
      (overrunStep true client (Conn.reset 0) (askIndex 2)).2 = some (Conn.reset 1) := by
    intro client
    have hread := plainHead.read_alone (show (askIndex 2).read = some plainHead.bytes from rfl)
    have hstep := plainHead.step_served client [] (fresh_reset 0) hread plainHead.fits_alone serveFile_askIndex.1
    have hserves := (plainHead.step_trace client [] (fresh_reset 0) hread plainHead.fits_alone).2.1
    have hfile : opened ((serveFile (askIndex 2).fopen 0 (plainHead.request HttpRequest.zero)).events ++ resetEvents) =
        [ascii "index.html"] := by decide +kernel
    refine ⟨by rw [hstep]; exact hfile, ?_, ?_⟩
    · rw [overrunStep_served client (budget_fresh (fresh_reset 0)) (by rw [hserves]; exact List.cons_ne_nil _ _)]
    · rw [overrunStep_spared, hstep]
      exact congrArg (fun n => some (Conn.reset n)) serveFile_askIndex.2
  constructor
  · obtain ⟨s, p, c, h, hp, hphase, hinputs, -, ⟨client, htrace, hnext⟩, -⟩ := answered_reachable false
    obtain ⟨hopened, hnone, -⟩ := hserved client
    obtain ⟨ds, -, htable, hnames, hasked, -⟩ := files_held h hp hphase
    rw [htrace, hopened] at hnames
    obtain ⟨⟨d, name⟩, rfl, rfl⟩ := List.map_eq_singleton_iff.mp hnames
    exact ⟨p, c, d, hinputs, hnext.trans hnone, _, rfl, htable, hasked⟩
  · obtain ⟨s, p, c, h, hp, hphase, hinputs, hdone, ⟨client, htrace, hnext⟩, -⟩ := answered_reachable true
    obtain ⟨hopened, -, hsome⟩ := hserved client
    obtain ⟨ds, -, htable, hnames, -, hcounted⟩ := files_held h hp hphase
    rw [htrace, hopened] at hnames
    obtain ⟨⟨d, name⟩, rfl, rfl⟩ := List.map_eq_singleton_iff.mp hnames
    exact ⟨p, c, d, hinputs, hnext.trans hsome, _, rfl, htable, hcounted _ hdone (hnext.trans hsome)⟩

end CeeServe.Server
