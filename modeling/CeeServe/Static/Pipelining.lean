import CeeServe.Lib.Framing
import CeeServe.Static.Overrun
import Mathlib.Data.List.Forall2

/-! # Several heads in one read

A read may bring more than one head. The iteration that follows parses the first one,
and the reset after it clears the buffer with all the others.
-/
namespace CeeServe.Static
open CString Parse

structure Delivers (inp : Input) (heads : List GetHead) : Prop where
  read_eq : inp.read = some (heads.flatMap GetHead.bytes)
  ne_nil : heads ≠ []
  length_le : (heads.flatMap GetHead.bytes).length ≤ 4095

/-- One read of heads, one request served: the first. -/
theorem step_delivers (client : List UInt8) {s : Conn} {inp : Input} {h : GetHead} {heads : List GetHead}
    (hs : Fresh s) (hin : Delivers inp (h :: heads)) :
    (serves (handleConnStep client s inp).1).map view = [h.view] ∧
      ∀ s', (handleConnStep client s inp).2 = some s' → Fresh s' := by
  have hread : inp.read = some (h.bytes ++ heads.flatMap GetHead.bytes) := by
    rw [hin.read_eq, List.flatMap_cons]
  have hfit : (h.bytes ++ heads.flatMap GetHead.bytes).length ≤ bsize := by
    have hle := hin.length_le
    rw [List.flatMap_cons] at hle
    exact Nat.le_succ_of_le hle
  obtain ⟨-, hserves, hnext⟩ := h.step_trace client _ hs hread hfit
  refine ⟨?_, hnext⟩
  rw [hserves, List.map_singleton, h.view_request]

theorem serves_run {client : List UInt8} {s : Conn} {inputs : List Input} {groups : List (List GetHead)}
    (hs : Fresh s) (hin : List.Forall₂ Delivers inputs groups)
    (hall : Machine.RunsAll (handleConnStep client) s inputs) :
    List.Forall₂ (fun heads v => heads.head?.map GetHead.view = some v) groups
      ((serves (handleConn client s inputs).1).map view) := by
  obtain ⟨ess, hess, hblocks⟩ := Machine.run_blocks (I := Fresh)
    (P := fun heads es => ∃ h ∈ heads.head?, (serves es).map view = [h.view])
    (fun s inp heads hs hd => by
      obtain ⟨h, heads, rfl⟩ := List.exists_cons_of_ne_nil hd.ne_nil
      obtain ⟨hes, hnext⟩ := step_delivers client hs hd
      exact ⟨⟨h, rfl, hes⟩, hnext⟩)
    hin hs hall
  rw [hess]
  clear hin hall hess
  induction hblocks with
  | nil => exact .nil
  | @cons heads es groups ess hes _ ih =>
    obtain ⟨h, hh, hes⟩ := hes
    rw [List.flatten_cons, serves_append, List.map_append, hes]
    exact .cons (congrArg (Option.map GetHead.view) hh) ih

theorem forall_ne_nil {inputs : List Input} {groups : List (List GetHead)} (hin : List.Forall₂ Delivers inputs groups) :
    ∀ heads ∈ groups, heads ≠ [] := by
  induction hin with
  | nil => simp
  | cons hd _ ih => exact List.forall_mem_cons.mpr ⟨hd.ne_nil, ih⟩

theorem singletons_of_length {α : Type*} {gs : List (List α)} (hne : ∀ g ∈ gs, g ≠ [])
    (h : gs.flatten.length = gs.length) : ∀ g ∈ gs, g.length = 1 := by
  induction gs with
  | nil => simp
  | cons g gs ih =>
    have hg := List.length_pos_iff.mpr (hne g List.mem_cons_self)
    have hgs := Framing.length_le_flatten (fun g' hg' => hne g' (List.mem_cons_of_mem g hg'))
    rw [List.length_cons, List.flatten_cons, List.length_append] at h
    intro g' hg'
    rcases List.mem_cons.mp hg' with rfl | hg'
    · omega
    · exact ih (fun g' hg' => hne g' (List.mem_cons_of_mem g hg')) (by omega) g' hg'

theorem singletons_of_le_one {α : Type*} {gs : List (List α)} (hne : ∀ g ∈ gs, g ≠ []) (h : gs.flatten.length ≤ 1) :
    ∀ g ∈ gs, g.length = 1 := by
  cases gs with
  | nil => simp
  | cons g gs =>
    have hle := Framing.length_le_flatten hne
    exact singletons_of_length hne (by rw [List.length_cons] at hle ⊢; omega)

/-- With nothing overrun every head is served exactly when every read brings one. -/
theorem all_read_served_iff {client : List UInt8} {s : Conn} {inputs : List Input} {groups : List (List GetHead)}
    (hs : Fresh s) (hin : List.Forall₂ Delivers inputs groups)
    (hall : Machine.RunsAll (handleConnStep client) s inputs) :
    (serves (handleConn client s inputs).1).map view = groups.flatten.map GetHead.view ↔
      ∀ heads ∈ groups, heads.length = 1 := by
  have hserves := serves_run hs hin hall
  constructor
  · intro h
    apply singletons_of_length (forall_ne_nil hin)
    have hlen := hserves.length_eq
    rw [h, List.length_map] at hlen
    exact hlen.symm
  · intro hone
    clear hall hin
    generalize (serves (handleConn client s inputs).1).map view = vs at hserves ⊢
    induction hserves with
    | nil => rfl
    | @cons heads v groups vs hv _ ih =>
      obtain ⟨hhead, hgroups⟩ := List.forall_mem_cons.mp hone
      obtain ⟨h, rfl⟩ := List.length_eq_one_iff.mp hhead
      have hvh : h.view = v := Option.some.inj hv
      rw [List.flatten_cons, List.map_append, ← ih hgroups, ← hvh]
      rfl

/-- In a run whose reads bring complete heads, every head is served exactly when there is
one in all, or the loop survives its resets and every read brings one. -/
theorem all_served_iff {client : List UInt8} {s : Conn} {inputs : List Input} {groups : List (List GetHead)}
    (hs : Fresh s) (hin : List.Forall₂ Delivers inputs groups) (spared : Bool)
    (hall : spared = true → Machine.RunsAll (handleConnStep client) s inputs) :
    (serves (overrunConn spared client s inputs).1).map view = groups.flatten.map GetHead.view ↔
      groups.flatten.length ≤ 1 ∨ spared = true ∧ ∀ heads ∈ groups, heads.length = 1 := by
  cases spared with
  | true =>
    rw [overrunConn, overrunStep_spared, all_read_served_iff hs hin (hall rfl)]
    constructor
    · exact fun hone => Or.inr ⟨rfl, hone⟩
    · rintro (hle | ⟨-, hone⟩)
      · exact singletons_of_le_one (forall_ne_nil hin) hle
      · exact hone
  | false =>
    rcases hin with _ | @⟨inp, heads, inputs, groups, hd, -⟩
    · simp
    -- one iteration serves the first head, and there is no other one
    obtain ⟨h, heads, rfl⟩ := List.exists_cons_of_ne_nil hd.ne_nil
    obtain ⟨hview, -⟩ := step_delivers client hs hd
    have hserves : serves (handleConnStep client s inp).1 ≠ [] := by
      intro hnone
      simp [hnone] at hview
    rw [overrunConn_served client (budget_fresh hs) hserves, hview, List.flatten_cons, List.cons_append]
    cases heads ++ groups.flatten <;> simp

def headsInput (heads : List GetHead) : Input := Input.bare (heads.flatMap GetHead.bytes)

theorem delivers_plain : Delivers (headsInput [plainHead]) [plainHead] := ⟨rfl, by simp, by decide +kernel⟩

theorem runsAll_two (client : List UInt8) {s : Conn} (hs : Fresh s) (inp : Input) :
    Machine.RunsAll (handleConnStep client) s [headsInput [plainHead], inp] := by
  have hread : (headsInput [plainHead]).read = some (plainHead.bytes ++ []) := rfl
  have hret : (serveFile (headsInput [plainHead]).fopen s.openFiles (plainHead.request s.req)).returns = true := by
    rw [serveFile_none (by rfl)]
  exact .next (plainHead.step_served client [] hs hread plainHead.fits_alone hret) (Machine.runsAll_singleton _ inp)

/-- Two reads of one head each: both are served where the resets spare the loop, and the
first one only as the program is built. -/
theorem all_served_two :
    (serves (overrunConn true [] (Conn.reset 0) [headsInput [plainHead], headsInput [plainHead]]).1).map view =
        [[plainHead], [plainHead]].flatten.map GetHead.view ∧
      (serves (overrunConn false [] (Conn.reset 0) [headsInput [plainHead], headsInput [plainHead]]).1).map view ≠
        [[plainHead], [plainHead]].flatten.map GetHead.view := by
  have hin := List.Forall₂.cons delivers_plain (.cons delivers_plain .nil)
  constructor
  · refine (all_served_iff (fresh_reset 0) hin true fun _ => runsAll_two [] (fresh_reset 0) _).mpr (Or.inr ⟨rfl, ?_⟩)
    simp
  · intro h
    have hcond := (all_served_iff (fresh_reset 0) hin false (by simp)).mp h
    simp at hcond

/-- Of two heads in one read the second is never served, whatever the resets spare. -/
theorem second_head_lost :
    Delivers (headsInput [plainHead, plainHead]) [plainHead, plainHead] ∧
      ∀ spared, (serves (overrunConn spared [] (Conn.reset 0) [headsInput [plainHead, plainHead]]).1).map view ≠
        [plainHead, plainHead].map GetHead.view := by
  have hle : ([plainHead, plainHead].flatMap GetHead.bytes).length ≤ 4095 := by decide +kernel
  have hin : Delivers (headsInput [plainHead, plainHead]) [plainHead, plainHead] := ⟨rfl, by simp, hle⟩
  refine ⟨hin, fun spared h => ?_⟩
  rw [overrunConn, Machine.run_singleton, overrunStep_events, (step_delivers [] (fresh_reset 0) hin).1] at h
  simp at h

end CeeServe.Static
