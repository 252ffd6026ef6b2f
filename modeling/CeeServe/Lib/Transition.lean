import Mathlib.Data.Nat.Notation
import Mathlib.Logic.Relation

/-! # Transition systems

A system is given by its initial states and its steps; a state is reachable when a
finite number of steps leads to it from an initial one.
-/
namespace CeeServe.Transition
variable {σ : Type*}

structure System (σ : Type*) where
  Init : σ → Prop
  Step : σ → σ → Prop

def System.Reachable (S : System σ) (s : σ) : Prop := ∃ s₀, S.Init s₀ ∧ Relation.ReflTransGen S.Step s₀ s

variable {S : System σ}

theorem reachable_init {s : σ} (h : S.Init s) : S.Reachable s := ⟨s, h, .refl⟩

theorem reachable_step {s s' : σ} (h : S.Reachable s) (hstep : S.Step s s') : S.Reachable s' := by
  obtain ⟨s₀, hinit, hsteps⟩ := h
  exact ⟨s₀, hinit, hsteps.tail hstep⟩

/-- What holds initially and is kept by every step holds of every reachable state. -/
theorem reachable_invariant {I : σ → Prop} (hinit : ∀ s, S.Init s → I s)
    (hstep : ∀ s s', I s → S.Step s s' → I s') {s : σ} (h : S.Reachable s) : I s := by
  obtain ⟨s₀, hs₀, hsteps⟩ := h
  induction hsteps with
  | refl => exact hinit s₀ hs₀
  | tail _ hlast ih => exact hstep _ _ ih hlast

/-- A system refines another one along an abstraction of its states when each of its steps
is a step of the other one or changes nothing there. -/
theorem reachable_simulation {α : Type*} {A : System α} (abs : σ → α) (hinit : ∀ s, S.Init s → A.Init (abs s))
    (hstep : ∀ s s', S.Reachable s → S.Step s s' → abs s' = abs s ∨ A.Step (abs s) (abs s')) {s : σ}
    (h : S.Reachable s) : A.Reachable (abs s) := by
  obtain ⟨s₀, hs₀, hsteps⟩ := h
  induction hsteps with
  | refl => exact reachable_init (hinit s₀ hs₀)
  | tail hsteps hlast ih =>
    rcases hstep _ _ ⟨s₀, hs₀, hsteps⟩ hlast with heq | hstep
    · rw [heq]
      exact ih
    · exact reachable_step ih hstep

/-- Runs of a number of steps. -/
inductive Runs (r : σ → σ → Prop) (s : σ) : σ → ℕ → Prop
  | refl : Runs r s s 0
  | tail {t u : σ} {n : ℕ} (h : Runs r s t n) (hstep : r t u) : Runs r s u (n + 1)

theorem Runs.steps {r q : σ → σ → Prop} {s t : σ} {n : ℕ} (h : Runs r s t n) (hr : ∀ s t, r s t → q s t) :
    Relation.ReflTransGen q s t := by
  induction h with
  | refl => exact .refl
  | tail _ hlast ih => exact ih.tail (hr _ _ hlast)

/-- Where every step keeps the invariant and does one unit of the work that is left, the
length of a run is the work it has done. -/
theorem Runs.work {r : σ → σ → Prop} {I : σ → Prop} {work : σ → ℕ} {s t : σ} {n : ℕ} (h : Runs r s t n) (hs : I s)
    (hstep : ∀ s t, I s → r s t → I t ∧ work s = work t + 1) : I t ∧ work s = work t + n := by
  induction h with
  | refl => exact ⟨hs, rfl⟩
  | tail _ hlast ih =>
    obtain ⟨hkept, hwork⟩ := hstep _ _ ih.1 hlast
    exact ⟨hkept, by rw [ih.2, hwork, Nat.add_right_comm, Nat.add_assoc]⟩

end CeeServe.Transition
