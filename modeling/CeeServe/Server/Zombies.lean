import CeeServe.Lib.Transition
import Mathlib.Data.Finset.Basic

/-! # The zombie killer

A child that exits stays a zombie until the parent waits for it, and makes SIGCHLD
pending. Signals coalesce: the pending signal is one flag, whatever the number of
exits, and it is blocked while its handler runs. `sigchld_handler` calls `waitpid`
until it gets no child, so a zombie left behind was made after the last call, and then
the signal is pending again.
-/
namespace CeeServe.Server
open Transition

/-- `sigchld_handler` is not running, is about to call `waitpid`, or has left its loop. -/
inductive Handler where
  | off
  | calling
  | returning
deriving DecidableEq, Repr

structure Parent where
  children : Finset ℤ
  zombies : Finset ℤ
  pending : Bool
  handler : Handler

/-- `waitpid(-1, NULL, WNOHANG)`, with the value it returns. -/
inductive Waitpid : Parent → ℤ → Parent → Prop
  | reaped {s : Parent} {pid : ℤ} (h : pid ∈ s.zombies) :
      Waitpid s pid { s with zombies := s.zombies.erase pid }
  | allRunning {s : Parent} (hz : s.zombies = ∅) (hc : s.children ≠ ∅) : Waitpid s 0 s
  | noChild {s : Parent} (hz : s.zombies = ∅) (hc : s.children = ∅) : Waitpid s (-1) s

/-- `while(waitpid(-1, NULL, WNOHANG) > 0);` -/
def sigchldHandler (ret : ℤ) : Handler := if ret > 0 then .calling else .returning

/-- Children fork and exit at any time; the handler starts when the signal is pending
and the handler is not running. -/
inductive ParentStep : Parent → Parent → Prop
  | fork {s : Parent} {cpid : ℤ} (hpos : 0 < cpid) (hnew : cpid ∉ s.children ∪ s.zombies) :
      ParentStep s { s with children := insert cpid s.children }
  | exit {s : Parent} {pid : ℤ} (h : pid ∈ s.children) :
      ParentStep s
        { s with children := s.children.erase pid, zombies := insert pid s.zombies, pending := true }
  | deliver {s : Parent} (hp : s.pending = true) (hh : s.handler = .off) :
      ParentStep s { s with pending := false, handler := .calling }
  | call {s s' : Parent} {ret : ℤ} (hh : s.handler = .calling) (hw : Waitpid s ret s') :
      ParentStep s { s' with handler := sigchldHandler ret }
  | finish {s : Parent} (hh : s.handler = .returning) : ParentStep s { s with handler := .off }

def registered : Parent := ⟨∅, ∅, false, .off⟩

def parentSystem : System Parent := ⟨fun s => s = registered, ParentStep⟩

/-- While there is a zombie, the signal is pending or the handler will call `waitpid`. -/
structure Watched (s : Parent) : Prop where
  children_pos : ∀ pid ∈ s.children, 0 < pid
  zombies_pos : ∀ pid ∈ s.zombies, 0 < pid
  seen : s.zombies ≠ ∅ → s.pending = true ∨ s.handler = .calling

theorem watched_registered : Watched registered := ⟨by simp [registered], by simp [registered], fun h => absurd rfl h⟩

theorem waitpid_watched {s s' : Parent} {ret : ℤ} (hs : Watched s) (hw : Waitpid s ret s') :
    Watched { s' with handler := sigchldHandler ret } := by
  cases hw with
  | reaped h =>
    have hpos := hs.zombies_pos ret h
    refine ⟨hs.children_pos, fun p hp => hs.zombies_pos p (Finset.mem_of_mem_erase hp), fun _ => Or.inr ?_⟩
    exact if_pos hpos
  | allRunning hz hc => exact ⟨hs.children_pos, hs.zombies_pos, fun h => absurd hz h⟩
  | noChild hz hc => exact ⟨hs.children_pos, hs.zombies_pos, fun h => absurd hz h⟩

theorem step_watched {s s' : Parent} (hs : Watched s) (hstep : ParentStep s s') : Watched s' := by
  cases hstep with
  | @fork cpid hpos hnew =>
    refine ⟨fun pid hpid => ?_, hs.zombies_pos, hs.seen⟩
    rcases Finset.mem_insert.mp hpid with rfl | hpid
    · exact hpos
    · exact hs.children_pos pid hpid
  | @exit pid h =>
    refine ⟨fun p hp => hs.children_pos p (Finset.mem_of_mem_erase hp), fun p hp => ?_, fun _ => Or.inl rfl⟩
    rcases Finset.mem_insert.mp hp with rfl | hp
    · exact hs.children_pos p h
    · exact hs.zombies_pos p hp
  | deliver hp hh => exact ⟨hs.children_pos, hs.zombies_pos, fun _ => Or.inr rfl⟩
  | call hh hw => exact waitpid_watched hs hw
  | finish hh =>
    refine ⟨hs.children_pos, hs.zombies_pos, fun hz => ?_⟩
    rcases hs.seen hz with hp | hcalling
    · exact Or.inl hp
    · rw [hh] at hcalling
      cases hcalling

theorem reachable_watched {s : Parent} (h : parentSystem.Reachable s) : Watched s :=
  reachable_invariant (fun _ h => h ▸ watched_registered) (fun _ _ => step_watched) h

theorem Watched.zombies_eq {s : Parent} (h : Watched s) (hpending : s.pending = false) (hoff : s.handler = .off) :
    s.zombies = ∅ := by
  by_contra hz
  rcases h.seen hz with hp | hcalling
  · rw [hpending] at hp
    cases hp
  · rw [hoff] at hcalling
    cases hcalling

/-- In every reachable state without a pending signal and without a running handler
there is no zombie. -/
theorem no_zombie {s : Parent} (h : parentSystem.Reachable s) (hpending : s.pending = false)
    (hoff : s.handler = .off) : s.zombies = ∅ := (reachable_watched h).zombies_eq hpending hoff

theorem no_zombie_three : (⟨{5}, ∅, false, .off⟩ : Parent).zombies = ∅ := by
  have h₀ := reachable_init (S := parentSystem) (s := registered) rfl
  have hpos : (0 : ℤ) < 3 ∧ (0 : ℤ) < 4 ∧ (0 : ℤ) < 5 := by decide
  have h₁ := reachable_step h₀ (.fork hpos.1 (by decide))
  have h₂ := reachable_step h₁ (.fork hpos.2.1 (by decide))
  have h₃ := reachable_step h₂ (.fork hpos.2.2 (by decide))
  have h₄ := reachable_step h₃ (.exit (show (3 : ℤ) ∈ _ by decide))
  have h₅ := reachable_step h₄ (.deliver rfl rfl)
  have h₆ := reachable_step h₅ (.exit (show (4 : ℤ) ∈ _ by decide))
  have h₇ := reachable_step h₆ (.call rfl (.reaped (show (3 : ℤ) ∈ _ by decide)))
  have h₈ := reachable_step h₇ (.call rfl (.reaped (show (4 : ℤ) ∈ _ by decide)))
  have h₉ := reachable_step h₈ (.call rfl (.allRunning (by decide) (by decide)))
  have h₁₀ := reachable_step h₉ (.finish rfl)
  have h₁₁ := reachable_step h₁₀ (.deliver rfl rfl)
  have h₁₂ := reachable_step h₁₁ (.call rfl (.allRunning (by decide) (by decide)))
  have h₁₃ := reachable_step h₁₂ (.finish rfl)
  exact no_zombie h₁₃ rfl rfl

end CeeServe.Server
