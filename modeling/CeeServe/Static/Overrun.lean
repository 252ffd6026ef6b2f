import CeeServe.Static.Frame

/-! # What the reset clears besides

The `memset` calls on `req` and `resp` go on behind these objects, over what lies there
in the frames of `handle_conn` and its callers. What that is depends on the build. Where
the loop can do without all of it, `handleConn` is the whole story; as the program is
built it cannot, and nothing more is answered.
-/
namespace CeeServe.Static
open Machine

instance : DecidablePred Inside := fun tr =>
  decidable_of_iff (∀ w ∈ wrotes tr, w.2 ≤ w.1.size)
    ⟨fun h object extent hmem => h (object, extent) (mem_wrotes.mpr hmem), fun h w hw => h w.1 w.2 (mem_wrotes.mp hw)⟩

/-- The loop can go on behind these events: they write nothing outside the objects they
name, or what lies there is spared. -/
def Survives (spared : Bool) (es : List Event) : Prop := spared = true ∨ Inside es

instance (spared : Bool) : DecidablePred (Survives spared) := fun _ => inferInstanceAs (Decidable (_ ∨ _))

/-- The body of the `while` loop, with what the overrun makes of it: `spared` says that
the loop needs nothing of what is cleared behind `req` and `resp`. -/
def overrunStep (spared : Bool) (client : List UInt8) : Conn → Input → List Event × Option Conn :=
  stopUnless (Survives spared) (handleConnStep client)

abbrev overrunConn (spared : Bool) (client : List UInt8) : Conn → List Input → List Event × Option Conn :=
  run (overrunStep spared client)

theorem survives_nil (spared : Bool) : Survives spared [] := Or.inr inside_nil

theorem survives_append (spared : Bool) (a b : List Event) :
    Survives spared (a ++ b) ↔ Survives spared a ∧ Survives spared b := by
  simp only [Survives, inside_append]
  exact or_and_left

theorem overrunStep_spared (client : List UInt8) : overrunStep true client = handleConnStep client := by
  funext s inp
  have hspared : Survives true (handleConnStep client s inp).1 := Or.inl rfl
  rw [overrunStep, stopUnless, if_pos hspared]

@[simp] theorem overrunStep_events (spared : Bool) (client : List UInt8) (s : Conn) (inp : Input) :
    (overrunStep spared client s inp).1 = (handleConnStep client s inp).1 := stopUnless_events s inp

theorem overrunConn_state {spared : Bool} {client : List UInt8} {s s' : Conn} {inputs : List Input}
    (h : (overrunConn spared client s inputs).2 = some s') :
    overrunConn spared client s inputs = handleConn client s inputs := run_stopUnless_state h

theorem overrunConn_survives {spared : Bool} {client : List UInt8} {s s' : Conn} {inputs : List Input}
    (h : (overrunConn spared client s inputs).2 = some s') : Survives spared (overrunConn spared client s inputs).1 := by
  have hsame := overrunConn_state h
  have hrun : (handleConn client s inputs).2 = some s' := by rw [← hsame, h]
  rw [hsame]
  exact (run_stopUnless_iff (survives_nil spared) (survives_append spared) hrun).mp h

/-- A run has the same events with the overrun as without, up to the read behind the loop
head it got to. -/
theorem overrunConn_concat {spared : Bool} {client : List UInt8} {s s' : Conn} {inputs : List Input}
    (h : (overrunConn spared client s inputs).2 = some s') (inp : Input) :
    (overrunConn spared client s (inputs ++ [inp])).1 = (handleConn client s (inputs ++ [inp])).1 := by
  have hsame := overrunConn_state h
  have hrun : overrunConn spared client s inputs = ((handleConn client s inputs).1, some s') :=
    Prod.ext (by rw [hsame]) h
  rw [overrunConn, run_append hrun, handleConn, run_append (hsame ▸ hrun), run_singleton, run_singleton,
    overrunStep_events]

/-- An iteration behind which the loop would go on has written inside its objects exactly
when it served nothing. -/
theorem step_inside_iff (client : List UInt8) {s s' : Conn} {inp : Input} (hs : Budget s)
    (hnext : (handleConnStep client s inp).2 = some s') :
    Inside (handleConnStep client s inp).1 ↔ serves (handleConnStep client s inp).1 = [] := by
  have hinside : Inside (handleConnStep client s inp).1 ↔ NoReset s inp := step_inside client hs (Prod.mk.eta).symm
  rw [hinside, step_unserved_iff client hs.pending]
  constructor
  · intro hno req h
    rcases step_serving client h with ⟨hret, -⟩ | ⟨-, heq⟩
    · rw [hno req h] at hret
      cases hret
    · rw [heq] at hnext
      cases hnext
  · exact fun hnot req h => absurd h (hnot req)

theorem run_inside_iff_unserved (client : List UInt8) {s s' : Conn} {inputs : List Input} (hs : Budget s)
    (hrun : (handleConn client s inputs).2 = some s') :
    Inside (handleConn client s inputs).1 ↔ serves (handleConn client s inputs).1 = [] := by
  refine run_accounts (A := fun (s : Conn) tr _ => Budget s → (Inside tr ↔ serves tr = []))
    (fun _ _ => iff_of_true inside_nil rfl) (fun inp _ s es s₁ hstep tr s' htr hs => ?_) hrun hs
  have hnext : (handleConnStep client s inp).2 = some s₁ := congrArg Prod.snd hstep
  have hfirst := step_inside_iff client hs hnext
  rw [hstep] at hfirst
  rw [inside_append, serves_append, List.append_eq_nil_iff, hfirst, htr (step_budget client inp hs hnext).1]

/-- The loop is still there behind these reads exactly when what it clears is spared or
it has served nothing. -/
theorem overrunConn_goes_on_iff (spared : Bool) (client : List UInt8) {s s' : Conn} {inputs : List Input}
    (hs : Budget s) (hrun : (handleConn client s inputs).2 = some s') :
    (overrunConn spared client s inputs).2 = some s' ↔ spared = true ∨ serves (handleConn client s inputs).1 = [] := by
  rw [overrunConn, overrunStep, run_stopUnless_iff (survives_nil spared) (survives_append spared) hrun, Survives,
    run_inside_iff_unserved client hs hrun]

theorem overrunStep_served (client : List UInt8) {s : Conn} {inp : Input} (hs : Budget s)
    (hserves : serves (handleConnStep client s inp).1 ≠ []) :
    overrunStep false client s inp = ((handleConnStep client s inp).1, none) := by
  rcases hstep : handleConnStep client s inp with ⟨es, _ | s'⟩
  · rw [overrunStep, stopUnless_of_stop (by rw [hstep]), hstep]
  · have hinside := step_inside_iff client hs (congrArg Prod.snd hstep)
    have hnot : ¬ Survives false (handleConnStep client s inp).1 := by simp [Survives, hinside, hserves]
    rw [overrunStep, stopUnless_of_not hnot, hstep]

theorem overrunConn_served (client : List UInt8) {s : Conn} {inp : Input} (hs : Budget s)
    (hserves : serves (handleConnStep client s inp).1 ≠ []) (inputs : List Input) :
    (overrunConn false client s (inp :: inputs)).1 = (handleConnStep client s inp).1 :=
  run_stopUnless_stops (overrunStep_served client hs hserves) inputs

/-- An iteration that neither exits nor is overrun, and does not come back to the loop
head, is in the copy loop of `serve_file`. -/
theorem overrunStep_copying {spared : Bool} {client : List UInt8} {s : Conn} {inp : Input} (hs : Budget s)
    (hstop : (overrunStep spared client s inp).2 = none) (hexit : ∀ code, .exited code ∉ (handleConnStep client s inp).1)
    (hsurvives : Survives spared (handleConnStep client s inp).1) :
    ∃ req, Serving s inp req ∧ (serveFile inp.fopen s.openFiles req).returns = false := by
  rw [overrunStep, stopUnless, if_pos hsurvives] at hstop
  rcases step_stops client inp hstop with ⟨req, -, hserved⟩ | ⟨code, hcode⟩
  · have hserves : ¬ NotServing s inp := by
      rw [← step_unserved_iff client hs.pending]
      exact List.ne_nil_of_mem (List.mem_filterMap.mpr ⟨_, hserved, rfl⟩)
    obtain ⟨req', hserving⟩ := not_forall_not.mp hserves
    rcases step_serving client hserving with ⟨-, heq⟩ | ⟨hret, -⟩
    · rw [heq] at hstop
      cases hstop
    · exact ⟨req', hserving, hret⟩
  · exact absurd hcode (hexit code)

end CeeServe.Static
