import CeeServe.Lib.Transition
import CeeServe.Server.MainLoop
import CeeServe.Server.Zombies
import CeeServe.Static.AccessLog
import CeeServe.Static.CopyRound
import Mathlib.Algebra.Order.Group.Abs
import Mathlib.Data.Set.Finite.Basic
import Mathlib.Logic.Function.Basic
import Mathlib.Tactic.Positivity

/-! # The whole server

The parent runs the accept loop, one child runs `handle_conn` for each connection, and
signals interrupt the parent. A descriptor is a number that each process has its own
table for; `fork` copies the table, and `accept` and `fopen` take a number that is free
in the table of their process. Processes take their steps in any order, and a child can
be killed between any two of them.
-/
namespace CeeServe.Server
open CString Static Transition Machine

/-- What a descriptor refers to; connections are numbered as they are accepted. -/
inductive OpenFile where
  | listening
  | connection (k : ℕ)
  | file (name : List UInt8)
deriving DecidableEq

abbrev Descriptors := ℤ → Option OpenFile

structure Connection where
  reads : List (Option (List UInt8))
  sent : List UInt8

abbrev Connections := ℕ → Connection

/-- A call of `handle_conn`: its arguments, what it was called with in its locals and has
read and done since, the loop head at its last read, what is left of its iteration, and
the loop head behind it. -/
structure Call where
  socket : ℤ
  client : List UInt8
  start : Conn
  inputs : List Input
  trace : List Event
  head : Conn
  todo : List Event
  next : Option Conn

inductive Phase where
  | starting (actions : List Action)
  | serving (call : Call)
  | zombie
  | reaped

def Phase.isAlive : Phase → Bool
  | .starting _ => true
  | .serving _ => true
  | .zombie => false
  | .reaped => false

def Phase.isZombie : Phase → Bool
  | .zombie => true
  | _ => false

structure Process where
  pid : ℤ
  descriptors : Descriptors
  phase : Phase

/-- `inet_ntoa` of the address that `accept` filled in. -/
def clientText (clientAddr : List UInt8) : List UInt8 :=
  match clientAddr with
  | [a, b, c, d] => inetNtoa ⟨a, b, c, d⟩
  | _ => []

def Connection.receive (c : Connection) (read : Option (List UInt8)) : Connection :=
  { c with reads := c.reads ++ [read] }

def Connection.send (c : Connection) (data : List UInt8) : Connection := { c with sent := c.sent ++ data }

def Call.read (c : Call) (conn : Conn) (inp : Input) (iteration : List Event × Option Conn) : Call :=
  { c with inputs := c.inputs ++ [inp], head := conn, todo := iteration.1, next := iteration.2 }

/-- It goes on with one more `fread`, in place of the last input. -/
def Call.fread (c : Call) (before : List Input) (inp : Input) (r : FreadResult) (round : List Event × Option Conn) :
    Call :=
  { c with inputs := before ++ [inp.more r], todo := round.1, next := round.2 }

def Call.emit (c : Call) (e : Event) (rest : List Event) : Call := { c with trace := c.trace ++ [e], todo := rest }

def payload : Event → Option (List UInt8)
  | .sentResponse data => some data
  | .sentBody data => some data
  | _ => none

/-- The events that neither send, nor open a file, nor exit. -/
def Internal : Event → Prop
  | .fopened _ ok => ok = false
  | .exited _ => False
  | e => payload e = none

/-- What an event of a call does to the descriptors of its process and to the connections:
`send` goes to whatever the socket refers to. -/
inductive Performs (socket : ℤ) : Event → Descriptors × Connections → Descriptors × Connections → Prop
  | send {e : Event} {data : List UInt8} {fds : Descriptors} {w : Connections} {j : ℕ} (hdata : payload e = some data)
      (hsocket : fds socket = some (.connection j)) :
      Performs socket e (fds, w) (fds, Function.update w j ((w j).send data))
  | fopen {name : List UInt8} {d : ℤ} {fds : Descriptors} {w : Connections} (hfree : fds d = none) :
      Performs socket (.fopened name true) (fds, w) (Function.update fds d (some (.file name)), w)
  | internal {e : Event} {fds : Descriptors} {w : Connections} (he : Internal e) : Performs socket e (fds, w) (fds, w)

def Process.terminate (p : Process) : Process := { p with descriptors := fun _ => none, phase := .zombie }

/-- The steps of a child. The locals of `handle_conn` hold anything when it is called, and
the copy loop of `serve_file` goes on until an `fread` sets the end-of-file indicator. -/
inductive ProcessStep (spared : Bool) : Process × Connections → Process × Connections → Prop
  | close {p : Process} {w : Connections} {d : ℤ} {rest : List Action} (h : p.phase = .starting (.closed d :: rest)) :
      ProcessStep spared (p, w)
        ({ p with descriptors := Function.update p.descriptors d none, phase := .starting rest }, w)
  | call {p : Process} {w : Connections} {socket : ℤ} {addr : List UInt8} {start : Conn}
      (h : p.phase = .starting [.handleConn socket addr]) (hstart : Fresh start) (hfiles : start.openFiles = 0) :
      ProcessStep spared (p, w)
        ({ p with phase := .serving ⟨socket, clientText addr, start, [], [], start, [], some start⟩ }, w)
  | read {p : Process} {w : Connections} {c : Call} {conn : Conn} {j : ℕ} (inp : Input) (h : p.phase = .serving c)
      (hdone : c.todo = []) (hnext : c.next = some conn) (hsocket : p.descriptors c.socket = some (.connection j)) :
      ProcessStep spared (p, w)
        ({ p with phase := .serving (c.read conn inp (overrunStep spared c.client conn inp)) },
          Function.update w j ((w j).receive inp.read))
  | fread {p : Process} {w : Connections} {c : Call} {before : List Input} {inp : Input} {req : HttpRequest}
      (r : FreadResult) (h : p.phase = .serving c) (hdone : c.todo = []) (hlast : c.inputs = before ++ [inp])
      (hserving : Serving c.head inp req) (hcopying : (serveFile inp.fopen c.head.openFiles req).returns = false) :
      ProcessStep spared (p, w)
        ({ p with phase := .serving (c.fread before inp r (copyRound spared c.head.openFiles r)) }, w)
  | emit {p : Process} {w w' : Connections} {fds : Descriptors} {c : Call} {e : Event} {rest : List Event}
      (h : p.phase = .serving c) (htodo : c.todo = e :: rest)
      (hperforms : Performs c.socket e (p.descriptors, w) (fds, w')) :
      ProcessStep spared (p, w) ({ p with descriptors := fds, phase := .serving (c.emit e rest) }, w')
  | exit {p : Process} {w : Connections} {c : Call} {code : ℤ} {rest : List Event} (h : p.phase = .serving c)
      (htodo : c.todo = .exited code :: rest) : ProcessStep spared (p, w) (p.terminate, w)
  | kill {p : Process} {w : Connections} (h : p.phase.isAlive = true) : ProcessStep spared (p, w) (p.terminate, w)

structure SigAction where
  saRestart : Bool

/-- `act.sa_flags = SA_RESTART`. -/
def registerZombieKiller : SigAction := ⟨true⟩

@[ext]
structure Host where
  /-- The parent at the head of its loop, or behind it in its last iteration; `none` once
  it has exited. -/
  main : Option Main
  descriptors : Descriptors
  /-- What is left of the parent's iteration. -/
  todo : List Action
  /-- The children, each for the connection of its index. -/
  processes : List Process
  connections : Connections
  pending : Bool
  handler : Handler
  /-- What `accept` and `fork` have returned so far. -/
  answers : List Answer

def Action.perform : Action → Descriptors → Descriptors
  | .closed d, fds => Function.update fds d none
  | _, fds => fds

/-- The kernel calls the handler, `waitpid` returns, and the handler returns. -/
inductive SignalStep : Host → Host → Prop
  | deliver {s : Host} (hmain : s.main.isSome) (hpending : s.pending = true) (hoff : s.handler = .off) :
      SignalStep s { s with pending := false, handler := .calling }
  | reap {s : Host} {k : ℕ} {p : Process} (hh : s.handler = .calling) (hp : s.processes[k]? = some p)
      (hz : p.phase = .zombie) :
      SignalStep s
        { s with processes := s.processes.set k { p with phase := .reaped }, handler := sigchldHandler p.pid }
  | reapNone {s : Host} {ret : ℤ} (hh : s.handler = .calling) (hz : ∀ p ∈ s.processes, p.phase ≠ .zombie)
      (hret : ret = if s.processes.any (fun p => p.phase.isAlive) then 0 else -1) :
      SignalStep s { s with handler := sigchldHandler ret }
  | finish {s : Host} (hh : s.handler = .returning) : SignalStep s { s with handler := .off }

inductive HostStep (act : SigAction) (spared : Bool) : Host → Host → Prop
  | iterate {s : Host} {m m' : Main} {a : Answer} {acts : List Action} {child : Child} (hmain : s.main = some m)
      (hoff : s.handler = .off) (hdone : s.todo = []) (hfree : s.descriptors a.servingSocket = none)
      (hpid : ∀ p ∈ s.processes, p.phase ≠ .reaped → p.pid ≠ a.cpid)
      (hstep : mainStep m a = (.accepted a.servingSocket :: acts, some m'))
      (hfork : m'.children = m.children ++ [child]) :
      HostStep act spared s
        { s with
          main := some m'
          descriptors := Function.update s.descriptors a.servingSocket (some (.connection s.processes.length))
          todo := acts
          processes := s.processes ++ [⟨child.cpid,
            Function.update s.descriptors a.servingSocket (some (.connection s.processes.length)),
            .starting child.actions⟩]
          answers := s.answers ++ [a] }
  | stop {s : Host} {m : Main} {a : Answer} (hmain : s.main = some m) (hoff : s.handler = .off) (hdone : s.todo = [])
      (hpid : a.cpid = -1 ∨ 0 < a.cpid) (hstep : (mainStep m a).2 = none) :
      HostStep act spared s { s with main := none, descriptors := fun _ => none, answers := s.answers ++ [a] }
  | act {s : Host} {action : Action} {rest : List Action} (hoff : s.handler = .off) (htodo : s.todo = action :: rest) :
      HostStep act spared s { s with descriptors := action.perform s.descriptors, todo := rest }
  | process {s : Host} {k : ℕ} {p p' : Process} {w : Connections} (hp : s.processes[k]? = some p)
      (hstep : ProcessStep spared (p, s.connections) (p', w)) :
      HostStep act spared s
        { s with
          processes := s.processes.set k p'
          connections := w
          pending := s.pending || p'.phase.isZombie }
  | signal {s s' : Host} (h : SignalStep s s') : HostStep act spared s s'
  /-- Without SA_RESTART the `accept` that was interrupted fails. -/
  | interrupt {s : Host} {m : Main} (hflag : act.saRestart = false) (hh : s.handler = .returning)
      (hmain : s.main = some m) (hdone : s.todo = []) (hstep : (mainStep m ⟨-1, [], -1⟩).2 = none) :
      HostStep act spared s
        { s with main := none, descriptors := fun _ => none, handler := .off, answers := s.answers ++ [⟨-1, [], -1⟩] }

def listenOnly (listen : ℤ) : Descriptors := Function.update (fun _ => none) listen (some .listening)

def Connection.unused : Connection := ⟨[], []⟩

theorem getElem?_concat_left {α : Type*} {l : List α} {b : α} {j : ℕ} (h : l[j]? = some b) (a : α) :
    (l ++ [a])[j]? = some b := by
  rw [List.getElem?_append_left (List.getElem?_eq_some_iff.mp h).1, h]

theorem getElem?_concat_cases {α : Type*} {l : List α} {a b : α} {j : ℕ} (h : (l ++ [a])[j]? = some b) :
    l[j]? = some b ∨ j = l.length ∧ b = a := by
  rw [List.getElem?_append] at h
  split at h
  · exact Or.inl h
  · obtain ⟨hj, hb⟩ := List.getElem?_eq_some_iff.mp h
    rw [List.length_singleton] at hj
    refine Or.inr ⟨by omega, ?_⟩
    rw [← hb]
    simp

theorem forall_set {α : Type*} {l : List α} {Q : α → Prop} (h : ∀ a ∈ l, Q a) (k : ℕ) {b : α} (hb : Q b) :
    ∀ a ∈ l.set k b, Q a := fun _ ha => (List.mem_or_eq_of_mem_set ha).elim (h _) fun heq => heq ▸ hb

theorem map_set_same {α β : Type*} {f : α → β} {l : List α} {k : ℕ} {a b : α} (h : l[k]? = some a) (hf : f b = f a) :
    (l.set k b).map f = l.map f := by
  obtain ⟨hlt, hget⟩ := List.getElem?_eq_some_iff.mp h
  rw [List.map_set, hf, ← hget, ← List.getElem_map f (h := by simpa using hlt), List.set_getElem_self]

theorem mainStep_forked {m m' : Main} {a : Answer} {acts : List Action} {child : Child}
    (hstep : mainStep m a = (.accepted a.servingSocket :: acts, some m')) (hfork : m'.children = m.children ++ [child]) :
    acts = [.closed a.servingSocket] ∧ m'.listenSocket = m.listenSocket ∧ 0 < a.cpid ∧
      child = ⟨a.cpid, [.closed m.listenSocket, .handleConn a.servingSocket a.clientAddr]⟩ := by
  by_cases hneg : a.servingSocket < 0
  · rw [mainStep_failure m hneg] at hstep
    cases hstep
  by_cases hpos : 0 < a.cpid
  · rw [mainStep_success m (Int.not_lt.mp hneg) hpos] at hstep
    simp only [Prod.mk.injEq, List.cons.injEq, true_and, Option.some.injEq] at hstep
    obtain ⟨hacts, rfl⟩ := hstep
    have hchild := List.append_cancel_left hfork
    exact ⟨hacts.symm, rfl, hpos, (List.cons.inj hchild).1.symm⟩
  · -- `fork` made no child, so the list of children is the old one
    simp only [mainStep, andThen_next, if_neg hneg, fork, if_neg hpos, afterFork] at hstep
    split at hstep
    · simp [error] at hstep
    · split at hstep
      · simp [closeDescriptor] at hstep
      · simp only [closeDescriptor, Prod.mk.injEq, Option.some.injEq] at hstep
        rw [← hstep.2] at hfork
        simp at hfork

def booted (listen : ℤ) : Host where
  main := some ⟨listen, [listen], []⟩
  descriptors := listenOnly listen
  todo := []
  processes := []
  connections := fun _ => Connection.unused
  pending := false
  handler := .off
  answers := []

def serverSystem (act : SigAction) (spared : Bool) (listen : ℤ) : System Host :=
  ⟨fun s => s = booted listen, HostStep act spared⟩

/-- The number behind the one that the parent listens on, and a peer on the loopback
address. -/
def nextAnswer (listen pid : ℤ) : Answer := ⟨|listen| + 1, [127, 0, 0, 1], pid⟩

theorem hostStep_accepts (act : SigAction) (spared : Bool) {listen pid : ℤ} {s : Host} {m : Main}
    (hmain : s.main = some m) (hlisten : m.listenSocket = listen) (hoff : s.handler = .off) (hdone : s.todo = [])
    (hfds : s.descriptors = listenOnly listen) (hpos : 0 < pid)
    (hpid : ∀ p ∈ s.processes, p.phase ≠ .reaped → p.pid ≠ pid) :
    ∃ s' m' p, HostStep act spared s s' ∧ s'.main = some m' ∧ s'.handler = .off ∧
      s'.todo = [.closed (nextAnswer listen pid).servingSocket] ∧ s'.answers = s.answers ++ [nextAnswer listen pid] ∧
        s'.processes = s.processes ++ [p] ∧ p.phase = .starting
          [.closed listen, .handleConn (nextAnswer listen pid).servingSocket (nextAnswer listen pid).clientAddr] := by
  have hnonneg : 0 ≤ (nextAnswer listen pid).servingSocket := by simp only [nextAnswer]; positivity
  have hne : (nextAnswer listen pid).servingSocket ≠ listen := by
    have hle := le_abs_self listen
    simp only [nextAnswer]
    omega
  have hfree : s.descriptors (nextAnswer listen pid).servingSocket = none := by
    simp only [hfds, listenOnly, Function.update_of_ne hne]
  have hstep := mainStep_success m hnonneg (show 0 < (nextAnswer listen pid).cpid from hpos)
  rw [hlisten] at hstep
  exact ⟨_, _, _, .iterate hmain hoff hdone hfree hpid hstep rfl, rfl, hoff, rfl, rfl, rfl, rfl⟩

def firstAnswer (listen : ℤ) : Answer := nextAnswer listen 100

theorem firstChild_reachable (act : SigAction) (spared : Bool) (listen : ℤ) :
    ∃ s m p, (serverSystem act spared listen).Reachable s ∧ s.main = some m ∧ s.handler = .off ∧
      s.todo = [.closed (firstAnswer listen).servingSocket] ∧ s.answers = [firstAnswer listen] ∧
        s.processes = [p] ∧ p.phase = .starting
          [.closed listen, .handleConn (firstAnswer listen).servingSocket (firstAnswer listen).clientAddr] := by
  have h := reachable_init (S := serverSystem act spared listen) (s := booted listen) rfl
  obtain ⟨s, m, p, hstep, hrest⟩ :=
    hostStep_accepts act spared (s := booted listen) rfl rfl rfl rfl rfl (show (0 : ℤ) < 100 by decide) (by simp [booted])
  exact ⟨s, m, p, reachable_step h hstep, hrest⟩

end CeeServe.Server
