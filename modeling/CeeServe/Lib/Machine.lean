import Mathlib.Data.List.Forall2

/-! # Machines that read inputs and emit events

A step answers an input with the events it emits and the next state, or with no
state when the machine stops there. A run collects the events of all its steps.
-/
namespace CeeServe.Machine
variable {σ ι τ ε : Type*} {step : σ → ι → List ε × Option σ}

def run (step : σ → ι → List ε × Option σ) : σ → List ι → List ε × Option σ
  | s, [] => ([], some s)
  | s, i :: is =>
    match step s i with
    | (es, none) => (es, none)
    | (es, some s') => (es ++ (run step s' is).1, (run step s' is).2)

/-- Sequencing inside a step: what follows is not reached when the machine stops. -/
def andThen (r : List ε × Option σ) (k : σ → List ε × Option τ) : List ε × Option τ :=
  match r with
  | (es, none) => (es, none)
  | (es, some s) => (es ++ (k s).1, (k s).2)

@[simp] theorem andThen_stop (es : List ε) (k : σ → List ε × Option τ) : andThen (es, none) k = (es, none) := rfl

@[simp] theorem andThen_next (es : List ε) (s : σ) (k : σ → List ε × Option τ) :
    andThen (es, some s) k = (es ++ (k s).1, (k s).2) := rfl

@[simp] theorem run_nil (s : σ) : run step s [] = ([], some s) := rfl

theorem run_cons_stop {s : σ} {i : ι} {es : List ε} (h : step s i = (es, none)) (is : List ι) :
    run step s (i :: is) = (es, none) := by
  simp only [run, h]

theorem run_cons_next {s s' : σ} {i : ι} {es : List ε} (h : step s i = (es, some s')) (is : List ι) :
    run step s (i :: is) = (es ++ (run step s' is).1, (run step s' is).2) := by
  simp only [run, h]

theorem run_singleton (s : σ) (i : ι) : run step s [i] = step s i := by
  rcases h : step s i with ⟨es, _ | s'⟩
  · exact run_cons_stop h []
  · rw [run_cons_next h, run_nil, List.append_nil]

theorem run_append {s s' : σ} {is : List ι} {es : List ε} (h : run step s is = (es, some s')) (js : List ι) :
    run step s (is ++ js) = (es ++ (run step s' js).1, (run step s' js).2) := by
  induction is generalizing s es with
  | nil =>
    obtain ⟨rfl, hs⟩ := Prod.mk.inj h
    obtain rfl := Option.some.inj hs
    rfl
  | cons i is ih =>
    rcases hstep : step s i with ⟨es₁, _ | s₁⟩
    · rw [run_cons_stop hstep] at h
      cases (Prod.mk.inj h).2
    · rw [run_cons_next hstep] at h
      obtain ⟨rfl, hs⟩ := Prod.mk.inj h
      have hs₁ : run step s₁ is = ((run step s₁ is).1, some s') := Prod.ext rfl hs
      have hrest := ih hs₁
      rw [List.cons_append, run_cons_next hstep, hrest, List.append_assoc]

theorem run_concat_state {s s' : σ} {is : List ι} (h : (run step s is).2 = some s') (i : ι) :
    (run step s (is ++ [i])).2 = (step s' i).2 := by
  have hrun : run step s is = ((run step s is).1, some s') := Prod.ext rfl h
  rw [run_append hrun, run_singleton]

/-- A property of the trace from a state on holds of all runs when it holds of the
empty trace and every step adds its events to it. -/
theorem run_trace {T : σ → List ε → Prop} (hnil : ∀ s, T s [])
    (hstop : ∀ s i es, step s i = (es, none) → T s es)
    (hnext : ∀ s i es s' tr, step s i = (es, some s') → T s' tr → T s (es ++ tr))
    (s : σ) (is : List ι) : T s (run step s is).1 := by
  induction is generalizing s with
  | nil => exact hnil s
  | cons i is ih =>
    rcases h : step s i with ⟨es, _ | s'⟩
    · rw [run_cons_stop h]
      exact hstop s i es h
    · rw [run_cons_next h]
      exact hnext s i es s' _ h (ih s')

/-- An invariant of the steps holds of the state a run ends in. -/
theorem run_invariant {I : σ → Prop} (hstep : ∀ s i s', I s → (step s i).2 = some s' → I s')
    {is : List ι} {s s' : σ} (hs : I s) (hrun : (run step s is).2 = some s') : I s' := by
  induction is generalizing s with
  | nil => exact Option.some.inj hrun ▸ hs
  | cons i is ih =>
    rcases h : step s i with ⟨es, _ | s₁⟩
    · rw [run_cons_stop h] at hrun
      cases hrun
    · rw [run_cons_next h] at hrun
      exact ih (hstep s i s₁ hs (by rw [h])) hrun

theorem run_goes_on {is : List ι} {s s' : σ} (hrun : (run step s is).2 = some s') :
    ∀ i ∈ is, ∃ t t', (step t i).2 = some t' := by
  induction is generalizing s with
  | nil => simp
  | cons i is ih =>
    rcases h : step s i with ⟨es, _ | s₁⟩
    · rw [run_cons_stop h] at hrun
      cases hrun
    · rw [run_cons_next h] at hrun
      exact List.forall_mem_cons.mpr ⟨⟨s, s₁, by rw [h]⟩, ih hrun⟩

/-- What the steps account for, the run accounts for: a relation between the state
before, the events and the state after. -/
theorem run_accounts {A : σ → List ε → σ → Prop} (hnil : ∀ s, A s [] s) {is : List ι}
    (hstep : ∀ i ∈ is, ∀ s es s₁, step s i = (es, some s₁) → ∀ tr s', A s₁ tr s' → A s (es ++ tr) s')
    {s s' : σ} (hrun : (run step s is).2 = some s') : A s (run step s is).1 s' := by
  induction is generalizing s with
  | nil => exact Option.some.inj hrun ▸ hnil s
  | cons i is ih =>
    rcases h : step s i with ⟨es, _ | s₁⟩
    · rw [run_cons_stop h] at hrun
      cases hrun
    · rw [run_cons_next h] at hrun ⊢
      have hrest := ih (fun j hj => hstep j (List.mem_cons_of_mem i hj)) hrun
      exact hstep i List.mem_cons_self s es s₁ h _ s' hrest

/-- No step but the last one stops the machine: it gets to read all the inputs. -/
inductive RunsAll (step : σ → ι → List ε × Option σ) : σ → List ι → Prop
  | done (s : σ) : RunsAll step s []
  | stop {s : σ} {i : ι} {es : List ε} (h : step s i = (es, none)) : RunsAll step s [i]
  | next {s s' : σ} {i : ι} {is : List ι} {es : List ε} (h : step s i = (es, some s'))
      (rest : RunsAll step s' is) : RunsAll step s (i :: is)

theorem runsAll_singleton (s : σ) (i : ι) : RunsAll step s [i] := by
  rcases h : step s i with ⟨es, _ | s'⟩
  · exact .stop h
  · exact .next h (.done s')

/-- A machine that goes on after every step gets to read all inputs. -/
theorem runsAll_of_continues {I : σ → Prop} {R : ι → τ → Prop}
    (hstep : ∀ s i t, I s → R i t → ∃ es s', step s i = (es, some s') ∧ I s')
    {is : List ι} {ts : List τ} (hin : List.Forall₂ R is ts) {s : σ} (hs : I s) : RunsAll step s is := by
  induction hin generalizing s with
  | nil => exact .done s
  | @cons i t is ts hR _ ih =>
    obtain ⟨es, s₁, h, hs₁⟩ := hstep s i t hs hR
    exact .next h (ih hs₁)

/-- A run over inputs that are all read is one block of events for each of them. -/
theorem run_blocks {I : σ → Prop} {R : ι → τ → Prop} {P : τ → List ε → Prop}
    (hstep : ∀ s i t, I s → R i t → P t (step s i).1 ∧ ∀ s', (step s i).2 = some s' → I s')
    {is : List ι} {ts : List τ} (hin : List.Forall₂ R is ts) {s : σ} (hs : I s)
    (hall : RunsAll step s is) :
    ∃ ess : List (List ε), (run step s is).1 = ess.flatten ∧ List.Forall₂ P ts ess := by
  induction hall generalizing ts with
  | done s =>
    cases hin
    exact ⟨[], rfl, .nil⟩
  | @stop s i es h =>
    rcases hin with _ | ⟨hR, hnil⟩
    cases hnil
    have hP := (hstep s i _ hs hR).1
    rw [h] at hP
    rw [run_cons_stop h]
    exact ⟨[es], by simp, .cons hP .nil⟩
  | @next s s' i is es h _ ih =>
    rcases hin with _ | ⟨hR, hin⟩
    obtain ⟨hP, hnext⟩ := hstep s i _ hs hR
    rw [h] at hP hnext
    obtain ⟨ess, hess, hblocks⟩ := ih hin (hnext s' rfl)
    rw [run_cons_next h]
    exact ⟨es :: ess, by rw [List.flatten_cons, ← hess], .cons hP hblocks⟩

/-- What a function of a state and an input answers to inputs in a row. -/
def answers {α β τ : Type*} (answer : α → τ → β × α) : α → List τ → List β
  | _, [] => []
  | a, t :: ts => (answer a t).1 :: answers answer (answer a t).2 ts

/-- A machine each of whose steps does for its input what an abstract one answers: the
run does this for all inputs, in order, and gets through. -/
theorem run_simulates {α β τ : Type*} {answer : α → τ → β × α} {I : σ → α → Prop} {R : ι → τ → Prop}
    {P : β → List ε → Prop}
    (hstep : ∀ s a i t, I s a → R i t → ∃ es s', step s i = (es, some s') ∧ P (answer a t).1 es ∧ I s' (answer a t).2)
    {is : List ι} {ts : List τ} (hin : List.Forall₂ R is ts) {s : σ} {a : α} (hs : I s a) :
    ∃ ess s', run step s is = (ess.flatten, some s') ∧ List.Forall₂ P (answers answer a ts) ess := by
  induction hin generalizing s a with
  | nil => exact ⟨[], s, rfl, .nil⟩
  | @cons i t is ts hR _ ih =>
    obtain ⟨es, s₁, hfirst, hP, hs₁⟩ := hstep s a i t hs hR
    obtain ⟨ess, s', hrun, hblocks⟩ := ih hs₁
    exact ⟨es :: ess, s', by rw [run_cons_next hfirst, hrun, List.flatten_cons], .cons hP hblocks⟩

/-- Every step that a run takes meets a condition on the state before it and its input. -/
def Along (step : σ → ι → List ε × Option σ) (C : σ → ι → Prop) : σ → List ι → Prop
  | _, [] => True
  | s, i :: is => C s i ∧ ∀ s', (step s i).2 = some s' → Along step C s' is

/-- The trace of a run has a property exactly when its steps meet a condition, if this is
so of one step from every state that can occur, whatever the run goes on with. -/
theorem run_iff_along {I : σ → Prop} {P : List ε → Prop} {C : σ → ι → Prop} (hnil : P [])
    (hstop : ∀ s i es, I s → step s i = (es, none) → (P es ↔ C s i))
    (hnext : ∀ s i es s', I s → step s i = (es, some s') →
      I s' ∧ ∀ is, P (es ++ (run step s' is).1) ↔ C s i ∧ P (run step s' is).1)
    {s : σ} (hs : I s) (is : List ι) : P (run step s is).1 ↔ Along step C s is := by
  induction is generalizing s with
  | nil => exact iff_of_true hnil trivial
  | cons i is ih =>
    rcases h : step s i with ⟨es, _ | s₁⟩
    · rw [run_cons_stop h, hstop s i es hs h, Along, h]
      simp
    · obtain ⟨hs₁, htrace⟩ := hnext s i es s₁ hs h
      rw [run_cons_next h, htrace is, ih hs₁, Along, h]
      simp

theorem along_mono {C D : σ → ι → Prop} (h : ∀ s i, C s i → D s i) {s : σ} {is : List ι} (hC : Along step C s is) :
    Along step D s is := by
  induction is generalizing s with
  | nil => trivial
  | cons i is ih => exact ⟨h s i hC.1, fun s' hs' => ih (hC.2 s' hs')⟩

/-- Two conditions that agree on every state that can occur agree along every run. -/
theorem along_congr {I : σ → Prop} {C D : σ → ι → Prop} (hstep : ∀ s i s', I s → (step s i).2 = some s' → I s')
    (h : ∀ s i, I s → (C s i ↔ D s i)) {s : σ} (hs : I s) (is : List ι) : Along step C s is ↔ Along step D s is := by
  induction is generalizing s with
  | nil => exact Iff.rfl
  | cons i is ih =>
    rw [Along, Along]
    refine and_congr (h s i hs) (forall₂_congr fun s' hs' => ih (hstep s i s' hs hs'))

/-- The machine that gets no further than a step whose events are not all right. -/
def stopUnless (ok : List ε → Prop) [DecidablePred ok] (step : σ → ι → List ε × Option σ) (s : σ) (i : ι) :
    List ε × Option σ :=
  if ok (step s i).1 then step s i else ((step s i).1, none)

section
variable {ok : List ε → Prop} [DecidablePred ok]

theorem stopUnless_of_not {s : σ} {i : ι} (h : ¬ ok (step s i).1) : stopUnless ok step s i = ((step s i).1, none) :=
  if_neg h

theorem stopUnless_of_stop {s : σ} {i : ι} (h : (step s i).2 = none) : stopUnless ok step s i = step s i := by
  unfold stopUnless
  split
  · rfl
  · rw [← h]

@[simp] theorem stopUnless_events (s : σ) (i : ι) : (stopUnless ok step s i).1 = (step s i).1 := by
  unfold stopUnless
  split <;> rfl

theorem stopUnless_next {s s' : σ} {i : ι} {es : List ε} (h : stopUnless ok step s i = (es, some s')) :
    step s i = (es, some s') := by
  by_cases hok : ok (step s i).1
  · rwa [stopUnless, if_pos hok] at h
  · rw [stopUnless_of_not hok] at h
    cases (Prod.mk.inj h).2

theorem run_stopUnless_stops {s : σ} {i : ι} (h : stopUnless ok step s i = ((step s i).1, none)) (is : List ι) :
    (run (stopUnless ok step) s (i :: is)).1 = (step s i).1 := by
  rw [run_cons_stop h]

theorem run_stopUnless_state {s s' : σ} {is : List ι} (h : (run (stopUnless ok step) s is).2 = some s') :
    run (stopUnless ok step) s is = run step s is := by
  induction is generalizing s with
  | nil => rfl
  | cons i is ih =>
    rcases hstep : stopUnless ok step s i with ⟨es, _ | s₁⟩
    · rw [run_cons_stop hstep] at h
      cases h
    · rw [run_cons_next hstep] at h ⊢
      rw [run_cons_next (stopUnless_next hstep), ih h]

/-- Where being all right is a matter of each single event, the run of the machine goes
on to a state exactly when the whole run is all right. -/
theorem run_stopUnless_iff (hnil : ok []) (happend : ∀ a b, ok (a ++ b) ↔ ok a ∧ ok b) {s s' : σ} {is : List ι}
    (h : (run step s is).2 = some s') : (run (stopUnless ok step) s is).2 = some s' ↔ ok (run step s is).1 := by
  induction is generalizing s with
  | nil => exact iff_of_true h hnil
  | cons i is ih =>
    rcases hstep : step s i with ⟨es, _ | s₁⟩
    · rw [run_cons_stop hstep] at h
      cases h
    · rw [run_cons_next hstep] at h ⊢
      by_cases hes : ok es
      · have hgoes : stopUnless ok step s i = (es, some s₁) := by rw [stopUnless, hstep, if_pos hes]
        rw [run_cons_next hgoes, happend, ih h, and_iff_right hes]
      · have hstops : stopUnless ok step s i = (es, none) := by rw [stopUnless, hstep, if_neg hes]
        rw [run_cons_stop hstops, happend]
        exact iff_of_false (by simp) fun hall => hes hall.1

end

end CeeServe.Machine
