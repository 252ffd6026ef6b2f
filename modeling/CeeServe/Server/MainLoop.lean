import CeeServe.Lib.CString
import CeeServe.Lib.Machine

/-! # The accept loop

One iteration of the loop in `main` is a step of the parent process: its input is what
`accept` and `fork` return. A child is what the branches behind `fork` do where `fork`
returned 0. `error` ends the process it is called in, so nothing behind a call of it
is reached.
-/
namespace CeeServe.Server
open CString Machine

inductive Action where
  | accepted (servingSocket : ℤ)
  | closed (descriptor : ℤ)
  | handleConn (servingSocket : ℤ) (clientAddr : List UInt8)
  | perror (msg : List UInt8)
  | exited (code : ℤ)
deriving DecidableEq, Repr

/-- What the kernel returns in one iteration; `cpid` is the value in the parent. -/
structure Answer where
  servingSocket : ℤ
  clientAddr : List UInt8
  cpid : ℤ

structure Child where
  cpid : ℤ
  actions : List Action

/-- The parent at the head of its loop, with its open descriptors and the children it
has forked. -/
structure Main where
  listenSocket : ℤ
  descriptors : List ℤ
  children : List Child

def exitProcess (code : ℤ) : List Action × Option Main := ([.exited code], none)

/-- `perror(msg); exit(1);` -/
def error (msg : List UInt8) : List Action × Option Main :=
  ([.perror msg, .exited 1], none)

def closeDescriptor (d : ℤ) (s : Main) : List Action × Option Main :=
  ([.closed d], some { s with descriptors := s.descriptors.erase d })

/-- The branches behind `fork`, with the value it returned to the process. -/
def afterFork (a : Answer) (cpid : ℤ) (s : Main) : List Action × Option Main :=
  if cpid = -1 then andThen (error (ascii "fork")) fun _ => exitProcess 1
  else if cpid = 0 then -- Child; handle_conn does not return
    andThen (closeDescriptor s.listenSocket s) fun _ => ([.handleConn a.servingSocket a.clientAddr], none)
  else closeDescriptor a.servingSocket s -- Parent

/-- `fork` makes a child that goes on from the same state with the value 0. -/
def fork (a : Answer) (s : Main) : Main :=
  if 0 < a.cpid then { s with children := s.children ++ [⟨a.cpid, (afterFork a 0 s).1⟩] } else s

/-- The body of `while(1)`. -/
def mainStep (s : Main) (a : Answer) : List Action × Option Main :=
  andThen ([.accepted a.servingSocket], some s) fun s =>
    if a.servingSocket < 0 then andThen (error (ascii "accept")) fun s => ([], some s) -- continue
    else afterFork a a.cpid (fork a { s with descriptors := a.servingSocket :: s.descriptors })

abbrev mainLoop : Main → List Answer → List Action × Option Main := run mainStep

def Child.connections (c : Child) : List (ℤ × List UInt8) :=
  c.actions.filterMap fun
    | .handleConn socket addr => some (socket, addr)
    | _ => none

def Main.connections (s : Main) : List (List (ℤ × List UInt8)) := s.children.map Child.connections

theorem mainStep_failure (s : Main) {a : Answer} (h : a.servingSocket < 0) :
    mainStep s a = ([.accepted a.servingSocket, .perror (ascii "accept"), .exited 1], none) := by
  simp [mainStep, h, error]

theorem mainStep_success (s : Main) {a : Answer} (h : 0 ≤ a.servingSocket) (hfork : 0 < a.cpid) :
    mainStep s a = ([.accepted a.servingSocket, .closed a.servingSocket],
      some { s with children := s.children ++
        [⟨a.cpid, [.closed s.listenSocket, .handleConn a.servingSocket a.clientAddr]⟩] }) := by
  have hneg : ¬ a.servingSocket < 0 := by omega
  have hfail : a.cpid ≠ -1 := by omega
  have hchild : a.cpid ≠ 0 := by omega
  simp [mainStep, hneg, afterFork, hfail, hchild, fork, hfork, closeDescriptor]

/-- After each answer of the kernel the parent is back at `accept`, holds no descriptor
but the one it listens on, and every connection accepted so far has one child of its
own. -/
def KeepsServing (s : Main) (answers : List Answer) : Prop :=
  ∀ p, p <+: answers → ∃ s', (mainLoop s p).2 = some s' ∧ s'.descriptors = [s.listenSocket] ∧
    s'.connections = s.connections ++
      (p.filter fun a => 0 ≤ a.servingSocket).map fun a => [(a.servingSocket, a.clientAddr)]

/-- The induction is on the answers; the children of the first ones are in the state the
rest starts from. -/
theorem mainLoop_successes {answers : List Answer} (hok : ∀ a ∈ answers, 0 ≤ a.servingSocket ∧ 0 < a.cpid)
    (s : Main) : ∃ s', (mainLoop s answers).2 = some s' ∧ s'.descriptors = s.descriptors ∧
      s'.connections = s.connections ++ answers.map fun a => [(a.servingSocket, a.clientAddr)] := by
  induction answers generalizing s with
  | nil => exact ⟨s, rfl, rfl, by simp⟩
  | cons a answers ih =>
    obtain ⟨⟨haccept, hfork⟩, hrest⟩ := List.forall_mem_cons.mp hok
    obtain ⟨s', hrun, hdescriptors, hconnections⟩ := ih hrest
      { s with children := s.children ++
        [⟨a.cpid, [.closed s.listenSocket, .handleConn a.servingSocket a.clientAddr]⟩] }
    refine ⟨s', ?_, hdescriptors, ?_⟩
    · rw [mainLoop, run_cons_next (mainStep_success s haccept hfork)]
      exact hrun
    · rw [hconnections]
      simp [Main.connections, Child.connections]

/-- With every `fork` succeeding, the server keeps serving exactly when no `accept`
fails. -/
theorem keepsServing_iff {s : Main} (hs : s.descriptors = [s.listenSocket]) {answers : List Answer}
    (hfork : ∀ a ∈ answers, 0 ≤ a.servingSocket → 0 < a.cpid) :
    KeepsServing s answers ↔ ∀ a ∈ answers, 0 ≤ a.servingSocket := by
  constructor
  · intro hkeeps a ha
    obtain ⟨s', hrun, -⟩ := hkeeps answers (List.prefix_refl answers)
    obtain ⟨t, t', hstep⟩ := run_goes_on hrun a ha
    by_contra hneg
    rw [mainStep_failure t (Int.not_le.mp hneg)] at hstep
    cases hstep
  · intro hok p hp
    have hmem : ∀ a ∈ p, 0 ≤ a.servingSocket ∧ 0 < a.cpid := fun a ha =>
      ⟨hok a (hp.subset ha), hfork a (hp.subset ha) (hok a (hp.subset ha))⟩
    obtain ⟨s', hrun, hdescriptors, hconnections⟩ := mainLoop_successes hmem s
    refine ⟨s', hrun, hdescriptors.trans hs, ?_⟩
    rw [hconnections, List.filter_eq_self.mpr fun a ha => decide_eq_true (hmem a ha).1]

theorem keepsServing_two :
    KeepsServing ⟨3, [3], []⟩ [⟨4, [], 100⟩, ⟨4, [], 101⟩] ↔
      ∀ a ∈ ([⟨4, [], 100⟩, ⟨4, [], 101⟩] : List Answer), 0 ≤ a.servingSocket :=
  keepsServing_iff rfl (by simp)

theorem failedAccept_stops : ¬ KeepsServing ⟨3, [3], []⟩ [⟨-1, [], 0⟩, ⟨4, [], 100⟩] := by
  intro h
  obtain ⟨s', hrun, -⟩ := h [⟨-1, [], 0⟩] ⟨[⟨4, [], 100⟩], rfl⟩
  have hstop : (mainLoop ⟨3, [3], []⟩ [⟨-1, [], 0⟩]).2 = none := rfl
  rw [hstop] at hrun
  cases hrun

end CeeServe.Server
