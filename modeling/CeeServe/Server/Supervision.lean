import CeeServe.Server.Isolation
import Mathlib.Data.Finset.Dedup
import Mathlib.Data.Finset.Insert
import Mathlib.Order.Interval.Set.Infinite

/-! # The parent among its children

Seen from the process table, the whole server is the parent of the zombie killer: the
children that live and the zombies are the numbers of its processes. Its own loop runs
as if there were no signals: it ends when `accept` or `fork` fails, and not before.
-/
namespace CeeServe.Server
open CString Static Transition Machine
variable {spared : Bool}

def pids (f : Phase → Bool) (ps : List Process) : Finset ℤ :=
  ((ps.filter fun p => f p.phase).map Process.pid).toFinset

theorem mem_pids {f : Phase → Bool} {ps : List Process} {pid : ℤ} :
    pid ∈ pids f ps ↔ ∃ p ∈ ps, f p.phase = true ∧ p.pid = pid := by
  simp [pids, and_assoc]

/-- What the zombie killer has to do with. -/
def Host.table (s : Host) : Parent where
  children := pids Phase.isAlive s.processes
  zombies := pids Phase.isZombie s.processes
  pending := s.pending
  handler := s.handler

theorem isZombie_iff {phase : Phase} : phase.isZombie = true ↔ phase = .zombie := by
  cases phase <;> simp [Phase.isZombie]

/-- The kernel gives no number twice that is still in use. -/
structure Numbered (ps : List Process) : Prop where
  pos : ∀ p ∈ ps, 0 < p.pid
  distinct : ∀ (i j : ℕ) (p q : Process), ps[i]? = some p → ps[j]? = some q → p.phase ≠ .reaped → q.phase ≠ .reaped →
    p.pid = q.pid → i = j

theorem Numbered.concat {ps : List Process} (h : Numbered ps) {p : Process} (hpos : 0 < p.pid)
    (hnew : ∀ q ∈ ps, q.phase ≠ .reaped → q.pid ≠ p.pid) : Numbered (ps ++ [p]) := by
  refine ⟨List.forall_mem_append.mpr ⟨h.pos, List.forall_mem_singleton.mpr hpos⟩, fun i j q r hq hr hqp hrp heq => ?_⟩
  · rcases getElem?_concat_cases hq with hq' | ⟨rfl, rfl⟩
    · rcases getElem?_concat_cases hr with hr' | ⟨rfl, rfl⟩
      · exact h.distinct i j q r hq' hr' hqp hrp heq
      · exact absurd heq (hnew q (List.mem_of_getElem? hq') hqp)
    · rcases getElem?_concat_cases hr with hr' | ⟨rfl, rfl⟩
      · exact absurd heq.symm (hnew r (List.mem_of_getElem? hr') hrp)
      · rfl

/-- A process keeps its number, and one that was waited for does not come back. -/
theorem Numbered.set {ps : List Process} (h : Numbered ps) {k : ℕ} {p p' : Process} (hp : ps[k]? = some p)
    (hpid : p'.pid = p.pid) (hphase : p.phase ≠ .reaped) : Numbered (ps.set k p') := by
  have hcases : ∀ {i : ℕ} {x : Process}, (ps.set k p')[i]? = some x →
      ∃ y, ps[i]? = some y ∧ y.pid = x.pid ∧ (x.phase ≠ .reaped → y.phase ≠ .reaped) := by
    intro i x hx
    by_cases hi : i = k
    · subst hi
      rw [List.getElem?_set_self (List.getElem?_eq_some_iff.mp hp).1] at hx
      obtain rfl := Option.some.inj hx
      exact ⟨p, hp, hpid.symm, fun _ => hphase⟩
    · rw [List.getElem?_set_ne (Ne.symm hi)] at hx
      exact ⟨x, hx, rfl, id⟩
  refine ⟨fun x hx => ?_, fun i j x y hx hy hxp hyp heq => ?_⟩
  · obtain ⟨i, hi⟩ := List.mem_iff_getElem?.mp hx
    obtain ⟨y, hy, hyx, -⟩ := hcases hi
    rw [← hyx]
    exact h.pos y (List.mem_of_getElem? hy)
  · obtain ⟨x', hx', hxpid, hxphase⟩ := hcases hx
    obtain ⟨y', hy', hypid, hyphase⟩ := hcases hy
    exact h.distinct i j x' y' hx' hy' (hxphase hxp) (hyphase hyp) (hxpid.trans (heq.trans hypid.symm))

/-- Whoever else satisfies `f` behind an update did so before. -/
theorem mem_pids_set {f : Phase → Bool} {ps : List Process} {k : ℕ} {p p' : Process} (hp : ps[k]? = some p)
    {pid : ℤ} :
    pid ∈ pids f (ps.set k p') ↔
      (f p'.phase = true ∧ p'.pid = pid) ∨ ∃ j q, j ≠ k ∧ ps[j]? = some q ∧ f q.phase = true ∧ q.pid = pid := by
  have hlt := (List.getElem?_eq_some_iff.mp hp).1
  rw [mem_pids]
  constructor
  · rintro ⟨q, hq, hf, hpid⟩
    obtain ⟨j, hj⟩ := List.mem_iff_getElem?.mp hq
    by_cases hjk : j = k
    · subst hjk
      rw [List.getElem?_set_self hlt] at hj
      obtain rfl := Option.some.inj hj
      exact Or.inl ⟨hf, hpid⟩
    · rw [List.getElem?_set_ne (Ne.symm hjk)] at hj
      exact Or.inr ⟨j, q, hjk, hj, hf, hpid⟩
  · rintro (⟨hf, hpid⟩ | ⟨j, q, hjk, hj, hf, hpid⟩)
    · exact ⟨p', List.mem_of_getElem? (List.getElem?_set_self hlt), hf, hpid⟩
    · rw [← List.getElem?_set_ne (Ne.symm hjk)] at hj
      exact ⟨q, List.mem_of_getElem? hj, hf, hpid⟩

theorem mem_pids_split {f : Phase → Bool} {ps : List Process} {k : ℕ} {p : Process} (hp : ps[k]? = some p) {pid : ℤ} :
    pid ∈ pids f ps ↔
      (f p.phase = true ∧ p.pid = pid) ∨ ∃ j q, j ≠ k ∧ ps[j]? = some q ∧ f q.phase = true ∧ q.pid = pid := by
  obtain ⟨hlt, heq⟩ := List.getElem?_eq_some_iff.mp hp
  have hset : ps.set k p = ps := by rw [← heq, List.set_getElem_self]
  rw [← mem_pids_set hp, hset]

theorem pids_set_same {f : Phase → Bool} {ps : List Process} {k : ℕ} {p q : Process} (hp : ps[k]? = some p)
    (hpid : q.pid = p.pid) (hphase : f q.phase = f p.phase) : pids f (ps.set k q) = pids f ps := by
  ext pid
  rw [mem_pids_set hp, mem_pids_split hp, hpid, hphase]

theorem pids_set_insert {f : Phase → Bool} {ps : List Process} {k : ℕ} {p q : Process} (hp : ps[k]? = some p)
    (hpid : q.pid = p.pid) (hbefore : f p.phase = false) (hafter : f q.phase = true) :
    pids f (ps.set k q) = insert p.pid (pids f ps) := by
  ext pid
  rw [mem_pids_set hp, Finset.mem_insert, mem_pids_split hp, hpid]
  simp only [hbefore, hafter, Bool.false_eq_true, false_and, false_or, true_and]
  exact or_congr_left eq_comm

theorem pids_set_erase {f : Phase → Bool} {ps : List Process} (h : Numbered ps) {k : ℕ} {p q : Process}
    (hp : ps[k]? = some p) (hreaped : f .reaped = false) (hbefore : f p.phase = true) (hafter : f q.phase = false) :
    pids f (ps.set k q) = (pids f ps).erase p.pid := by
  have hlives : ∀ {phase : Phase}, f phase = true → phase ≠ .reaped := by
    intro phase hf heq
    rw [heq, hreaped] at hf
    cases hf
  ext pid
  rw [mem_pids_set hp, Finset.mem_erase, mem_pids_split hp]
  simp only [hbefore, hafter, Bool.false_eq_true, false_and, false_or, true_and]
  constructor
  · rintro ⟨j, r, hjk, hj, hf, rfl⟩
    exact ⟨fun heq => hjk (h.distinct j k r p hj hp (hlives hf) (hlives hbefore) heq), Or.inr ⟨j, r, hjk, hj, hf, rfl⟩⟩
  · rintro ⟨hne, heq | hother⟩
    · exact absurd heq.symm hne
    · exact hother

theorem processStep_phase {p p' : Process} {w w' : Connections} (h : ProcessStep spared (p, w) (p', w')) :
    p.phase.isAlive = true ∧ p'.pid = p.pid ∧ (p'.phase.isAlive = true ∨ p' = p.terminate) := by
  cases h with
  | close h => exact ⟨by rw [h]; rfl, rfl, Or.inl rfl⟩
  | call h => exact ⟨by rw [h]; rfl, rfl, Or.inl rfl⟩
  | read inp h => exact ⟨by rw [h]; rfl, rfl, Or.inl rfl⟩
  | fread r h => exact ⟨by rw [h]; rfl, rfl, Or.inl rfl⟩
  | emit h => exact ⟨by rw [h]; rfl, rfl, Or.inl rfl⟩
  | exit h => exact ⟨by rw [h]; rfl, rfl, Or.inr rfl⟩
  | kill h => exact ⟨h, rfl, Or.inr rfl⟩

theorem isAlive_ne_reaped {phase : Phase} (h : phase.isAlive = true) : phase ≠ .reaped := by
  rintro rfl
  cases h

theorem isAlive_not_zombie {phase : Phase} (h : phase.isAlive = true) : phase.isZombie = false := by
  cases phase with
  | starting | serving => rfl
  | zombie | reaped => cases h

theorem step_numbered {act : SigAction} {s s' : Host} (h : Numbered s.processes) (hstep : HostStep act spared s s') :
    Numbered s'.processes := by
  cases hstep with
  | iterate _ _ _ _ hpid hstep hfork =>
    obtain ⟨-, -, hpos, rfl⟩ := mainStep_forked hstep hfork
    exact h.concat hpos hpid
  | process hp hstep =>
    obtain ⟨halive, hpid, -⟩ := processStep_phase hstep
    exact h.set hp hpid (isAlive_ne_reaped halive)
  | signal hstep =>
    cases hstep with
    | reap _ hp hz => exact h.set hp rfl (by simp [hz])
    | deliver | reapNone | finish => exact h
  | stop | act | interrupt => exact h

theorem reachable_numbered {act : SigAction} {listen : ℤ} {s : Host}
    (h : (serverSystem act spared listen).Reachable s) :
    Numbered s.processes :=
  reachable_invariant (I := fun s : Host => Numbered s.processes)
    (fun s h => by rw [show s = booted listen from h]; exact ⟨by simp [booted], by simp [booted]⟩)
    (fun _ _ => step_numbered) h

/-- Forking puts the new number among the children. -/
theorem pids_concat {f : Phase → Bool} {ps : List Process} {p : Process} :
    pids f (ps ++ [p]) = if f p.phase then insert p.pid (pids f ps) else pids f ps := by
  ext pid
  rw [mem_pids]
  simp only [List.mem_append, List.mem_singleton, or_and_right, exists_or, exists_eq_left, ← mem_pids]
  split
  case isTrue hf => rw [Finset.mem_insert, or_comm, and_iff_right hf, eq_comm]
  case isFalse hf => rw [or_iff_left fun h => hf h.1]

theorem signalStep_table {s s' : Host} (h : Numbered s.processes) (hstep : SignalStep s s') :
    ParentStep s.table s'.table := by
  cases hstep with
  | deliver _ hpending hoff => exact .deliver hpending hoff
  | @reap k p hh hp hz =>
    have hmem : p.pid ∈ s.table.zombies := mem_pids.mpr ⟨p, List.mem_of_getElem? hp, isZombie_iff.mpr hz, rfl⟩
    have hcall := ParentStep.call hh (Waitpid.reaped hmem)
    simpa only [Host.table, pids_set_erase h hp (f := Phase.isZombie) (q := { p with phase := .reaped }) rfl
      (isZombie_iff.mpr hz) rfl, pids_set_same hp (f := Phase.isAlive) (q := { p with phase := .reaped }) rfl
      (by rw [hz]; rfl)] using hcall
  | @reapNone ret hh hz hret =>
    have hnone : s.table.zombies = ∅ := by
      refine Finset.eq_empty_of_forall_notMem fun pid hpid => ?_
      obtain ⟨p, hp, hzombie, -⟩ := mem_pids.mp hpid
      exact hz p hp (isZombie_iff.mp hzombie)
    have hany : s.processes.any (fun p => p.phase.isAlive) = true ↔ s.table.children ≠ ∅ := by
      rw [List.any_eq_true, ← Finset.nonempty_iff_ne_empty]
      constructor
      · rintro ⟨p, hp, halive⟩
        exact ⟨p.pid, mem_pids.mpr ⟨p, hp, halive, rfl⟩⟩
      · rintro ⟨pid, hpid⟩
        obtain ⟨p, hp, halive, -⟩ := mem_pids.mp hpid
        exact ⟨p, hp, halive⟩
    rw [hret]
    split
    case isTrue halive => exact .call hh (.allRunning hnone (hany.mp halive))
    case isFalse halive => exact .call hh (.noChild hnone (Classical.not_not.mp fun hne => halive (hany.mpr hne)))
  | finish hh => exact .finish hh

/-- A step of the server is a step of the parent of the zombie killer, or does not
concern it. -/
theorem step_table {act : SigAction} {s s' : Host} (h : Numbered s.processes) (hstep : HostStep act spared s s') :
    s'.table = s.table ∨ ParentStep s.table s'.table := by
  cases hstep with
  | @iterate m m' a acts child _ _ _ _ hpid hstep hfork =>
    obtain ⟨-, -, hpos, rfl⟩ := mainStep_forked hstep hfork
    have hnew : a.cpid ∉ s.table.children ∪ s.table.zombies := by
      simp only [Host.table, Finset.mem_union, mem_pids, not_or]
      refine ⟨?_, ?_⟩
      · rintro ⟨p, hp, halive, heq⟩
        exact hpid p hp (isAlive_ne_reaped halive) heq
      · rintro ⟨p, hp, hz, heq⟩
        exact hpid p hp (by simp [isZombie_iff.mp hz]) heq
    have hfork := ParentStep.fork hpos hnew
    refine Or.inr ?_
    simpa only [Host.table, pids_concat, Phase.isAlive, Phase.isZombie, if_true, Bool.false_eq_true, if_false] using hfork
  | @process k p p' w hp hstep =>
    obtain ⟨halive, hpid, halive' | rfl⟩ := processStep_phase hstep
    · refine Or.inl ?_
      simp only [Host.table, pids_set_same hp hpid (halive'.trans halive.symm),
        pids_set_same hp hpid ((isAlive_not_zombie halive').trans (isAlive_not_zombie halive).symm),
        isAlive_not_zombie halive', Bool.or_false]
    · have hmem : p.pid ∈ s.table.children := mem_pids.mpr ⟨p, List.mem_of_getElem? hp, halive, rfl⟩
      have hexit := ParentStep.exit hmem
      have hchildren := pids_set_erase h hp (f := Phase.isAlive) (q := p.terminate) rfl halive rfl
      have hzombies := pids_set_insert hp (f := Phase.isZombie) (q := p.terminate) rfl (isAlive_not_zombie halive) rfl
      have hpending : p.terminate.phase.isZombie = true := rfl
      refine Or.inr ?_
      simpa only [Host.table, hchildren, hzombies, hpending, Bool.or_true] using hexit
  | signal hstep => exact Or.inr (signalStep_table h hstep)
  | interrupt _ hh => exact Or.inr (.finish hh)
  | stop | act => exact Or.inl rfl

/-- In every reachable state of the whole server the process table is a reachable state
of the parent of the zombie killer, whatever the children do and however they end. -/
theorem table_reachable {act : SigAction} {listen : ℤ} {s : Host} (h : (serverSystem act spared listen).Reachable s) :
    parentSystem.Reachable s.table :=
  reachable_simulation Host.table (fun s hs => by rw [show s = booted listen from hs]; rfl)
    (fun _ _ hs hstep => step_table (reachable_numbered hs) hstep) h

/-- A process that has ended is waited for: none is left once no SIGCHLD is pending and
the handler does not run. -/
theorem ended_is_reaped {act : SigAction} {listen : ℤ} {s : Host} (h : (serverSystem act spared listen).Reachable s)
    (hpending : s.pending = false) (hoff : s.handler = .off) {p : Process} (hp : p ∈ s.processes) :
    p.phase ≠ .zombie := by
  intro hz
  have hmem : p.pid ∈ s.table.zombies := mem_pids.mpr ⟨p, hp, isZombie_iff.mpr hz, rfl⟩
  rw [(reachable_watched (table_reachable h)).zombies_eq hpending hoff] at hmem
  exact absurd hmem (Finset.notMem_empty p.pid)

def Handler.work : Handler → ℕ
  | .off => 0
  | .calling => 2
  | .returning => 1

/-- A call of `waitpid` for each zombie and one behind them, and twice that one with its
return and the delivery when the signal is pending. -/
def Host.work (s : Host) : ℕ :=
  s.processes.countP (fun p => p.phase.isZombie) + (if s.pending then 3 else 0) + s.handler.work

def Process.waited (p : Process) : Process := if p.phase.isZombie then { p with phase := .reaped } else p

theorem signalStep_work {s s' : Host} (h : Numbered s.processes)
    (hstep : SignalStep s s') : s.work = s'.work + 1 := by
  cases hstep with
  | deliver _ hpending hoff => simp [Host.work, Handler.work, hpending, hoff]
  | @reap k p hh hp hz =>
    obtain ⟨hlt, hget⟩ := List.getElem?_eq_some_iff.mp hp
    have hpos : 0 < s.processes.countP fun p => p.phase.isZombie :=
      List.countP_pos_iff.mpr ⟨p, List.mem_of_getElem? hp, isZombie_iff.mpr hz⟩
    have hcalling : sigchldHandler p.pid = .calling := if_pos (h.pos p (List.mem_of_getElem? hp))
    have hset : (s.processes.set k { p with phase := .reaped }).countP (fun p => p.phase.isZombie) =
        s.processes.countP (fun p => p.phase.isZombie) - 1 := by
      rw [List.countP_set hlt, hget, if_pos (isZombie_iff.mpr hz), if_neg (by simp [Phase.isZombie]), Nat.add_zero]
    simp only [Host.work, hset, hcalling, hh]
    omega
  | @reapNone ret hh hz hret =>
    have hreturning : sigchldHandler ret = .returning := by
      rw [hret]
      split <;> rfl
    simp only [Host.work, hreturning, hh, Handler.work]
  | finish hh => simp only [Host.work, hh, Handler.work]

/-- What a step of the handler leaves alone, and that it brings no process further than
to be waited for. -/
structure Kept (s s' : Host) : Prop where
  processes : s'.processes.map Process.waited = s.processes.map Process.waited
  connections : s'.connections = s.connections
  main : s'.main = s.main
  descriptors : s'.descriptors = s.descriptors
  todo : s'.todo = s.todo
  answers : s'.answers = s.answers

theorem kept_refl (s : Host) : Kept s s := ⟨rfl, rfl, rfl, rfl, rfl, rfl⟩

theorem Kept.trans {s t u : Host} (h : Kept s t) (h' : Kept t u) : Kept s u where
  processes := h'.processes.trans h.processes
  connections := h'.connections.trans h.connections
  main := h'.main.trans h.main
  descriptors := h'.descriptors.trans h.descriptors
  todo := h'.todo.trans h.todo
  answers := h'.answers.trans h.answers

theorem Kept.all_waited {s t : Host} (h : Kept s t) (hnone : ∀ p ∈ t.processes, p.phase.isZombie = false) :
    t.processes = s.processes.map Process.waited := by
  have hsame : t.processes.map Process.waited = t.processes :=
    (List.map_congr_left fun p hp => if_neg (by simp [hnone p hp])).trans (List.map_id _)
  exact hsame.symm.trans h.processes

theorem signalStep_kept {s s' : Host} (hstep : SignalStep s s') : Kept s s' := by
  cases hstep with
  | @reap k p hh hp hz =>
    have hwaited : Process.waited { p with phase := .reaped } = p.waited := by
      simp [Process.waited, hz, Phase.isZombie]
    exact ⟨map_set_same hp hwaited, rfl, rfl, rfl, rfl, rfl⟩
  | deliver | reapNone | finish => exact ⟨rfl, rfl, rfl, rfl, rfl, rfl⟩

theorem work_eq_zero_iff {s : Host} : s.work = 0 ↔
    (∀ p ∈ s.processes, p.phase.isZombie = false) ∧ s.pending = false ∧ s.handler = .off := by
  have hhandler : s.handler.work = 0 ↔ s.handler = .off := by cases s.handler <;> simp [Handler.work]
  simp [Host.work, hhandler, List.countP_eq_zero, and_assoc]

/-- The handler can go on as long as there is work for it. -/
theorem signalStep_exists {act : SigAction} {listen : ℤ} {s : Host} (h : (serverSystem act spared listen).Reachable s)
    (hmain : s.main.isSome) (hwork : 0 < s.work) : ∃ t, SignalStep s t := by
  cases hh : s.handler with
  | off =>
    cases hpending : s.pending with
    | true => exact ⟨_, .deliver hmain hpending hh⟩
    | false =>
      have hzero : s.work = 0 := work_eq_zero_iff.mpr ⟨fun p hp => ?_, hpending, hh⟩
      · omega
      · exact Bool.eq_false_iff.mpr fun hz => ended_is_reaped h hpending hh hp (isZombie_iff.mp hz)
  | calling =>
    by_cases hz : ∃ p ∈ s.processes, p.phase = .zombie
    · obtain ⟨p, hp, hz⟩ := hz
      obtain ⟨k, hk⟩ := List.mem_iff_getElem?.mp hp
      exact ⟨_, .reap hh hk hz⟩
    · exact ⟨_, .reapNone hh (fun p hp hzombie => hz ⟨p, hp, hzombie⟩) rfl⟩
  | returning => exact ⟨_, .finish hh⟩

theorem signalRun_spec {act : SigAction} {listen : ℤ} {s s' : Host} {n : ℕ}
    (h : (serverSystem act spared listen).Reachable s) (hrun : Runs SignalStep s s' n) :
    (serverSystem act spared listen).Reachable s' ∧ Kept s s' ∧ s.work = s'.work + n := by
  obtain ⟨⟨hreach, hkept⟩, hwork⟩ := hrun.work (I := fun t => (serverSystem act spared listen).Reachable t ∧ Kept s t)
    ⟨h, kept_refl s⟩ fun t u ht hstep => ⟨⟨reachable_step ht.1 (.signal hstep), ht.2.trans (signalStep_kept hstep)⟩,
      signalStep_work (reachable_numbered ht.1) hstep⟩
  exact ⟨hreach, hkept, hwork⟩

/-- Whatever state SIGCHLD finds the server in: as long as no process moves, the handler
takes as many steps as there is work, never gets stuck before and never goes on behind,
and then every process that had ended is waited for and nothing else has changed. -/
theorem handler_finishes {act : SigAction} {listen : ℤ} {s s' : Host} {n : ℕ}
    (h : (serverSystem act spared listen).Reachable s) (hmain : s.main.isSome) (hrun : Runs SignalStep s s' n) :
    n ≤ s.work ∧ (n < s.work → ∃ t, SignalStep s' t) ∧
      (n = s.work → (∀ t, ¬ SignalStep s' t) ∧
        s' = { s with processes := s.processes.map Process.waited, pending := false, handler := .off }) := by
  obtain ⟨hreach, hkept, hwork⟩ := signalRun_spec h hrun
  refine ⟨by omega, fun hlt => signalStep_exists hreach (hkept.main ▸ hmain) (by omega), fun heq => ⟨?_, ?_⟩⟩
  · intro t hstep
    have hless := signalStep_work (reachable_numbered hreach) hstep
    omega
  · obtain ⟨hnone, hpending, hoff⟩ := work_eq_zero_iff.mp (show s'.work = 0 by omega)
    exact Host.ext hkept.main hkept.descriptors hkept.todo (hkept.all_waited hnone) hkept.connections hpending hoff
      hkept.answers

/-- One zombie, up to the return of the handler. -/
theorem handler_returns {s : Host} {p : Process} (hmain : s.main.isSome) (hpending : s.pending = true)
    (hoff : s.handler = .off) (hp : s.processes = [p]) (hz : p.phase = .zombie) (hpos : 0 < p.pid) :
    Runs SignalStep s { s with processes := [p.waited], pending := false, handler := .returning } 3 := by
  have hget : s.processes[0]? = some p := by rw [hp]; rfl
  have hwaited : { p with phase := .reaped } = p.waited := by simp [Process.waited, hz, Phase.isZombie]
  have hset : s.processes.set 0 { p with phase := .reaped } = [p.waited] := by rw [hp, hwaited]; rfl
  have hnone : ∀ q ∈ [p.waited], q.phase ≠ .zombie := by simp [← hwaited]
  have hreap := SignalStep.reap (s := { s with pending := false, handler := .calling }) rfl hget hz
  rw [hset, show sigchldHandler p.pid = .calling from if_pos hpos] at hreap
  have hlast := SignalStep.reapNone
    (s := { s with processes := [p.waited], pending := false, handler := .calling }) rfl hnone rfl
  have hreturning : sigchldHandler (if [p.waited].any fun p => p.phase.isAlive then 0 else -1) = .returning := by
    split <;> rfl
  rw [hreturning] at hlast
  exact ((Runs.refl.tail (.deliver hmain hpending hoff)).tail hreap).tail hlast

/-- The first child has been killed: the signal is delivered, two calls of `waitpid`, and
the handler has returned. -/
theorem firstReaped (spared : Bool) : ∃ (s s' : Host) (p : Process),
    (serverSystem registerZombieKiller spared 3).Reachable s ∧ s.main.isSome ∧
    s.work = 4 ∧ Runs SignalStep s s' 4 ∧ s'.processes = [p] ∧ s'.pending = false ∧ s'.handler = .off := by
  obtain ⟨s, m, p, h, hmain, hoff, -, -, hp, hphase⟩ := firstChild_reachable registerZombieKiller spared 3
  have halive : p.phase.isAlive = true := by rw [hphase]; rfl
  have hget : s.processes[0]? = some p := by rw [hp]; rfl
  have hpos := (reachable_numbered h).pos p (List.mem_of_getElem? hget)
  have hkilled := reachable_step h (.process hget (.kill halive))
  have hsome : s.main.isSome := by rw [hmain]; rfl
  rw [show s.processes.set 0 p.terminate = [p.terminate] by rw [hp]; rfl] at hkilled
  have hruns := handler_returns (p := p.terminate)
    (s := { s with processes := [p.terminate], pending := s.pending || p.terminate.phase.isZombie })
    hsome (Bool.or_true _) hoff rfl rfl hpos
  have hwork : Host.work { s with
      processes := [p.terminate], pending := s.pending || p.terminate.phase.isZombie } = 4 := by
    simp [Host.work, Process.terminate, Phase.isZombie, hoff, Handler.work]
  exact ⟨_, _, _, hkilled, hsome, hwork, hruns.tail (.finish rfl), rfl, rfl, rfl⟩

theorem handler_finishes_first : ∃ s s' : Host, s.work = 4 ∧ Runs SignalStep s s' 4 ∧
    s' = { s with processes := s.processes.map Process.waited, pending := false, handler := .off } := by
  obtain ⟨s, s', p, h, hmain, hwork, hruns, -⟩ := firstReaped false
  exact ⟨s, s', hwork, hruns, ((handler_finishes h hmain hruns).2.2 hwork.symm).2⟩

/-- The handler can be run to its end. -/
theorem signalRun_exists {act : SigAction} {listen : ℤ} {s : Host} (h : (serverSystem act spared listen).Reachable s)
    (hmain : s.main.isSome) (n : ℕ) (hn : n ≤ s.work) : ∃ t, Runs SignalStep s t n := by
  induction n with
  | zero => exact ⟨s, .refl⟩
  | succ n ih =>
    obtain ⟨t, hrun⟩ := ih (by omega)
    obtain ⟨hreach, hkept, hwork⟩ := signalRun_spec h hrun
    obtain ⟨u, hstep⟩ := signalStep_exists hreach (hkept.main ▸ hmain) (by omega)
    exact ⟨u, hrun.tail hstep⟩

theorem mainLoop_concat {m₀ m : Main} {answers : List Answer} (h : some m = (mainLoop m₀ answers).2) (a : Answer) :
    (mainLoop m₀ (answers ++ [a])).2 = (mainStep m a).2 := run_concat_state h.symm a

/-- The parent is where its loop alone would be behind the same answers of the kernel, and
its children are those that it forked. -/
structure InLoop (listen : ℤ) (s : Host) : Prop where
  main : s.main = (mainLoop ⟨listen, [listen], []⟩ s.answers).2
  forked : ∀ a ∈ s.answers, a.cpid = -1 ∨ 0 < a.cpid
  pids : s.main.isSome → s.processes.map Process.pid = s.answers.map Answer.cpid

theorem InLoop.answer {listen : ℤ} {s s' : Host} {m : Main} {a : Answer} (h : InLoop listen s)
    (hmain : s.main = some m)
    (hanswers : s'.answers = s.answers ++ [a]) (hstep : s'.main = (mainStep m a).2) (hcpid : a.cpid = -1 ∨ 0 < a.cpid)
    (hpids : s'.main.isSome → s'.processes.map Process.pid = s.processes.map Process.pid ++ [a.cpid]) :
    InLoop listen s' := by
  refine ⟨?_, ?_, fun hsome => ?_⟩
  · rw [hstep, hanswers, mainLoop_concat (hmain ▸ h.main)]
  · rw [hanswers]
    exact List.forall_mem_append.mpr ⟨h.forked, List.forall_mem_singleton.mpr hcpid⟩
  · rw [hpids hsome, h.pids (by rw [hmain]; rfl), hanswers, List.map_append, List.map_singleton]

theorem step_inLoop {act : SigAction} {listen : ℤ} {s s' : Host} (h : InLoop listen s)
    (hstep : HostStep act spared s s') :
    InLoop listen s' := by
  cases hstep with
  | iterate hmain _ _ _ _ hstep hfork =>
    obtain ⟨-, -, hpos, rfl⟩ := mainStep_forked hstep hfork
    exact h.answer hmain rfl (by rw [hstep]) (Or.inr hpos) fun _ => List.map_append
  | stop hmain _ _ hpid hstep => exact h.answer hmain rfl hstep.symm hpid fun hsome => by cases hsome
  | interrupt _ _ hmain _ hstep => exact h.answer hmain rfl hstep.symm (Or.inl rfl) fun hsome => by cases hsome
  | process hp hstep =>
    exact ⟨h.main, h.forked, fun hsome => (map_set_same hp (processStep_phase hstep).2.1).trans (h.pids hsome)⟩
  | signal hstep =>
    cases hstep with
    | @reap k p _ hp =>
      have hpids := map_set_same (f := Process.pid) (b := { p with phase := .reaped }) hp rfl
      exact ⟨h.main, h.forked, fun hsome => hpids.trans (h.pids hsome)⟩
    | deliver | reapNone | finish => exact ⟨h.main, h.forked, h.pids⟩
  | act => exact ⟨h.main, h.forked, h.pids⟩

theorem reachable_inLoop {act : SigAction} {listen : ℤ} {s : Host}
    (h : (serverSystem act spared listen).Reachable s) :
    InLoop listen s :=
  reachable_invariant (fun s hs => by rw [show s = booted listen from hs]; exact ⟨rfl, by simp [booted], fun _ => rfl⟩)
    (fun _ _ => step_inLoop) h

theorem mainStep_goes_on {m m' : Main} {a : Answer} (h : (mainStep m a).2 = some m') :
    0 ≤ a.servingSocket ∧ a.cpid ≠ -1 := by
  by_cases hneg : a.servingSocket < 0
  · rw [mainStep_failure m hneg] at h
    cases h
  · refine ⟨Int.not_lt.mp hneg, fun hfail => ?_⟩
    simp [mainStep, hneg, afterFork, hfail, error] at h

/-- In every reachable state: the parent is still there exactly when every `accept` and
every `fork` so far has succeeded, and then it holds the socket it listens on and has one
child for each connection, the process that `fork` returned then, whatever signals and
children did in between. -/
theorem parent_runs_iff {act : SigAction} {listen : ℤ} {s : Host} (h : (serverSystem act spared listen).Reachable s) :
    (s.main.isSome ↔ ∀ a ∈ s.answers, 0 ≤ a.servingSocket ∧ 0 < a.cpid) ∧
      ∀ m, s.main = some m → m.descriptors = [listen] ∧
        m.connections = s.answers.map (fun a => [(a.servingSocket, a.clientAddr)]) ∧
        s.processes.map Process.pid = s.answers.map Answer.cpid := by
  obtain ⟨hmain, hforked, hpids⟩ := reachable_inLoop h
  have hsucceeds : s.main.isSome → ∀ a ∈ s.answers, 0 ≤ a.servingSocket ∧ 0 < a.cpid := by
    intro hsome a ha
    obtain ⟨m, hm⟩ := Option.isSome_iff_exists.mp hsome
    obtain ⟨t, t', hstep⟩ := run_goes_on (hmain.symm.trans hm) a ha
    obtain ⟨haccept, hfork⟩ := mainStep_goes_on hstep
    exact ⟨haccept, (hforked a ha).resolve_left hfork⟩
  refine ⟨⟨hsucceeds, fun hok => ?_⟩, fun m hm => ?_⟩
  · obtain ⟨m, hrun, -⟩ := mainLoop_successes hok ⟨listen, [listen], []⟩
    rw [hmain, hrun]
    rfl
  · obtain ⟨m', hrun, hdescriptors, hconnections⟩ :=
      mainLoop_successes (hsucceeds (by rw [hm]; rfl)) ⟨listen, [listen], []⟩
    obtain rfl : m = m' := Option.some.inj (hm.symm.trans (hmain.trans hrun))
    exact ⟨hdescriptors, hconnections, hpids (by rw [hm]; rfl)⟩

/-- The parent of two children. -/
theorem parent_runs_two : ∃ (s : Host) (m : Main), s.main = some m ∧ s.answers.length = 2 ∧
    (∀ a ∈ s.answers, 0 ≤ a.servingSocket ∧ 0 < a.cpid) ∧
      m.connections = s.answers.map (fun a => [(a.servingSocket, a.clientAddr)]) ∧
        s.processes.map Process.pid = s.answers.map Answer.cpid := by
  obtain ⟨s, p, q, h, hsome, -, hp, -⟩ := twoChildren_reachable false
  obtain ⟨m, hm⟩ := Option.isSome_iff_exists.mp hsome
  obtain ⟨hruns, hchildren⟩ := parent_runs_iff h
  have hlength := (reachable_consistent h).answered hsome
  rw [hp] at hlength
  exact ⟨s, m, hm, hlength, hruns.mp hsome, (hchildren m hm).2⟩

theorem exists_pid (ps : List Process) : ∃ pid : ℤ, 0 < pid ∧ ∀ p ∈ ps, p.phase ≠ .reaped → p.pid ≠ pid := by
  obtain ⟨pid, hpos, hnew⟩ := ((Set.Ioi_infinite (0 : ℤ)).sdiff (ps.map Process.pid).finite_toSet).nonempty
  exact ⟨pid, hpos, fun p hp _ heq => hnew (List.mem_map.mpr ⟨p, hp, heq⟩)⟩

/-- With the handler off, at most the closing of a connection is left to do before `accept`. -/
theorem at_accept {listen : ℤ} {s : Host} {m : Main}
    (h : (serverSystem registerZombieKiller spared listen).Reachable s)
    (hmain : s.main = some m) (hoff : s.handler = .off) :
    ∃ t, Relation.ReflTransGen (HostStep registerZombieKiller spared) s t ∧ t.main = some m ∧ m.listenSocket = listen ∧
      t.handler = .off ∧ t.todo = [] ∧ t.descriptors = listenOnly listen ∧ t.processes = s.processes := by
  have hparent := (reachable_consistent h).parent
  rcases hparent with ⟨hnone, -⟩ | ⟨m', hm', -, ⟨hdone, -⟩ | ⟨d, k, -, -, htodo, -⟩⟩
  · rw [hmain] at hnone
    cases hnone
  · obtain ⟨hlisten, hfds⟩ := (reachable_consistent h).parent.at_accept hmain hdone
    exact ⟨s, .refl, hmain, hlisten, hoff, hdone, hfds, rfl⟩
  · have hact : HostStep registerZombieKiller spared s _ := .act hoff htodo
    obtain ⟨hlisten, hfds⟩ := (reachable_consistent (reachable_step h hact)).parent.at_accept hmain rfl
    exact ⟨_, .single hact, hmain, hlisten, hoff, rfl, hfds, rfl⟩

/-- As long as the parent has not exited, it comes back to `accept` and takes another
client, with no other process moving: neither its handler nor its children keep it. -/
theorem accepts_again {listen : ℤ} {s : Host} (h : (serverSystem registerZombieKiller spared listen).Reachable s)
    (hmain : s.main.isSome) : ∃ s', Relation.ReflTransGen (HostStep registerZombieKiller spared) s s' ∧ s'.main.isSome ∧
      ∃ p, s'.processes = s.processes.map Process.waited ++ [p] ∧ p.phase.isAlive = true := by
  obtain ⟨m, hm⟩ := Option.isSome_iff_exists.mp hmain
  obtain ⟨t, hrun⟩ := signalRun_exists h hmain s.work le_rfl
  obtain ⟨ht, hkept, hwork⟩ := signalRun_spec h hrun
  obtain ⟨hnone, -, hoff⟩ := work_eq_zero_iff.mp (show t.work = 0 by omega)
  obtain ⟨u, hsteps, hmain', hlisten, hoff', hdone, hfds, hprocesses⟩ := at_accept ht (hkept.main.trans hm) hoff
  obtain ⟨pid, hpos, hpid⟩ := exists_pid u.processes
  obtain ⟨s', m', p, hstep, hm', -, -, -, hp, hphase⟩ :=
    hostStep_accepts registerZombieKiller spared hmain' hlisten hoff' hdone hfds hpos hpid
  refine ⟨s', ((hrun.steps fun _ _ => .signal).trans hsteps).tail hstep, by rw [hm']; rfl, p, ?_, by rw [hphase]; rfl⟩
  rw [hp, hprocesses, hkept.all_waited hnone]

/-- With its first child killed, the server takes a second one. -/
theorem accepts_again_first : ∃ (s s' : Host) (p : Process), s.work = 4 ∧
    Relation.ReflTransGen (HostStep registerZombieKiller false) s s' ∧ s'.main.isSome ∧
      s'.processes = s.processes.map Process.waited ++ [p] ∧ p.phase.isAlive = true := by
  obtain ⟨s, -, -, h, hmain, hwork, -⟩ := firstReaped false
  obtain ⟨s', hsteps, hmain', p, hp, halive⟩ := accepts_again h hmain
  exact ⟨s, s', p, hwork, hsteps, hmain', hp, halive⟩

end CeeServe.Server
