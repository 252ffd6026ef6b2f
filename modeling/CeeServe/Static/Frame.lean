import CeeServe.Lib.Memory
import CeeServe.Static.Serving

/-! # What the loop writes to

`read` and `memset` write to `data`, `req` and `resp`, each write from the first byte of
its object on. A read stays within `data`. The three `memset` calls of the reset all
have the length of `data`, which is more than `req` and `resp` have.
-/
namespace CeeServe.Static
open CString Parse Response Memory

/-- The types of the members in http.h, with their sizes on a 64-bit target. -/
inductive MemberType where
  | pointer
  | long
  | int

def MemberType.size : MemberType → ℕ
  | .pointer => 8
  | .long => 8
  | .int => 4

/-- `method`, `path`, `version`, `headers`, `header_count`, `body`. -/
def httpRequestMembers : List MemberType := [.pointer, .pointer, .pointer, .pointer, .int, .pointer]

/-- `version`, `status_desc`, `body`, `body_length`, `status_code`, `headers`, `header_count`. -/
def httpResponseMembers : List MemberType := [.pointer, .pointer, .pointer, .long, .int, .pointer, .int]

def Object.size : Object → ℕ
  | .data => bsize
  | .req => structSize (httpRequestMembers.map MemberType.size)
  | .resp => structSize (httpResponseMembers.map MemberType.size)

@[simp] theorem Object.size_data : Object.size .data = bsize := rfl

example : Object.size .req = 48 ∧ Object.size .resp = 56 := by decide

instance : Fintype Object where
  elems := {.data, .req, .resp}
  complete object := by cases object <;> decide

/-- Every write lies inside the object it names. -/
def Inside (tr : List Event) : Prop := ∀ object extent, .wrote object extent ∈ tr → extent ≤ object.size

def wrotes (tr : List Event) : List (Object × ℕ) :=
  tr.filterMap fun
    | .wrote object extent => some (object, extent)
    | _ => none

/-- The writes of the trace, whatever bytes they store. -/
def Stores (tr : List Event) (ws : List (Write Object UInt8)) : Prop :=
  ws.map (fun w => (w.object, w.values.length)) = wrotes tr

/-- The iteration does not get to its reset: it serves no request, or `serve_file` does
not return. -/
def NoReset (s : Conn) (inp : Input) : Prop :=
  ∀ req, Serving s inp req → (serveFile inp.fopen s.openFiles req).returns = false

theorem inside_nil : Inside [] := by simp [Inside]

theorem inside_append (a b : List Event) : Inside (a ++ b) ↔ Inside a ∧ Inside b := by
  constructor
  · exact fun h => ⟨fun o n hmem => h o n (List.mem_append_left b hmem), fun o n hmem => h o n (List.mem_append_right a hmem)⟩
  · rintro ⟨ha, hb⟩ o n hmem
    rcases List.mem_append.mp hmem with hmem | hmem
    · exact ha o n hmem
    · exact hb o n hmem

theorem mem_wrotes {tr : List Event} {object : Object} {extent : ℕ} :
    (object, extent) ∈ wrotes tr ↔ .wrote object extent ∈ tr := by
  unfold wrotes
  rw [List.mem_filterMap]
  constructor
  · rintro ⟨e, he, heq⟩
    cases e <;> simp at heq
    obtain ⟨rfl, rfl⟩ := heq
    exact he
  · exact fun h => ⟨_, h, rfl⟩

theorem Stores.inside_iff {tr : List Event} {ws : List (Write Object UInt8)} (h : Stores tr ws) :
    Inside tr ↔ ∀ w ∈ ws, w.values.length ≤ w.object.size := by
  constructor
  · intro hin w hw
    refine hin w.object w.values.length (mem_wrotes.mp ?_)
    rw [← h]
    exact List.mem_map_of_mem hw
  · intro hws object extent hmem
    rw [← mem_wrotes, ← h] at hmem
    obtain ⟨w, hw, heq⟩ := List.mem_map.mp hmem
    obtain ⟨rfl, rfl⟩ := Prod.mk.inj heq
    exact hws w hw

/-- The count passed to `read` is what is left of `data`. -/
theorem Budget.incoming_le {s : Conn} (hs : Budget s) (inp : Input) : (incoming s inp).length ≤ Object.size .data := by
  rw [Object.size_data]
  have hcount := hs.count.2
  have hnonneg := hs.nonneg
  have htake : (incoming s inp).length ≤ toSizeT (bytesToRead s.bytesRead) := List.length_take_le _ _
  omega

theorem inside_serving (client : List UInt8) {s : Conn} (hs : Budget s) (inp : Input) (req : HttpRequest) :
    Inside (servingEvents client s inp req) := by
  intro object extent hmem
  simp only [servingEvents, List.mem_cons, reduceCtorEq, false_or, Event.wrote.injEq] at hmem
  rcases hmem with ⟨rfl, hextent⟩ | hmem
  · rw [hextent]
    exact hs.incoming_le inp
  · rcases mem_serveFile hmem with ⟨_, h⟩ | ⟨_, h⟩ | ⟨_, h⟩ <;> cases h

theorem not_inside_reset : ¬ Inside resetEvents := by
  intro h
  have hreq : bsize ≤ Object.size .req := h .req bsize (by simp [resetEvents])
  exact absurd hreq (by decide)

theorem inside_idle {s : Conn} (hs : Budget s) {inp : Input} {es : List Event}
    (hes : ∀ e ∈ es, Idle (incoming s inp) e) : Inside es := by
  intro object extent hmem
  obtain ⟨rfl, hextent⟩ := hes _ hmem
  rw [hextent]
  exact hs.incoming_le inp

/-- An iteration writes outside an object exactly when it gets to the reset. -/
theorem step_inside (client : List UInt8) {s : Conn} {inp : Input} (hs : Budget s) {es : List Event} {o : Option Conn}
    (hstep : handleConnStep client s inp = (es, o)) : Inside es ↔ NoReset s inp := by
  by_cases hserving : ∃ req, Serving s inp req
  · obtain ⟨req, h⟩ := hserving
    have hinside := inside_serving client hs inp req
    rcases step_serving client h with ⟨hret, heq⟩ | ⟨hret, heq⟩
    · obtain rfl := (Prod.mk.inj (hstep.symm.trans heq)).1
      refine iff_of_false (fun hin => not_inside_reset ((inside_append _ _).mp hin).2) fun hno => ?_
      rw [hno req h] at hret
      cases hret
    · obtain rfl := (Prod.mk.inj (hstep.symm.trans heq)).1
      refine iff_of_true hinside fun req' h' => ?_
      rw [h'.unique h]
      exact hret
  · have hnot : NotServing s inp := fun req h => hserving ⟨req, h⟩
    have hidle := idle_events client hs.pending hnot hstep
    exact iff_of_true (inside_idle hs hidle) fun req h => absurd h (hnot req)

theorem run_inside_iff (client : List UInt8) {s : Conn} (hs : Budget s) (inputs : List Input) :
    Inside (handleConn client s inputs).1 ↔ Machine.Along (handleConnStep client) NoReset s inputs := by
  apply Machine.run_iff_along (I := Budget) inside_nil _ _ hs
  · intro s inp es hs hstep
    exact step_inside client hs hstep
  · intro s inp es s' hs hstep
    refine ⟨(step_budget client inp hs (congrArg Prod.snd hstep)).1, fun is => ?_⟩
    rw [inside_append, step_inside client hs hstep]

/-- In every run from the start of a connection: the writes lie inside the objects they
name exactly when no iteration gets to the reset, and this is so exactly when, whatever
bytes are written and wherever the objects lie, no other memory changes. -/
theorem writes_inside_iff (client : List UInt8) {s : Conn} (hs : Fresh s) (inputs : List Input) :
    (Inside (handleConn client s inputs).1 ↔ Machine.Along (handleConnStep client) NoReset s inputs) ∧
      ∀ ws, Stores (handleConn client s inputs).1 ws →
        ((∀ (p : Placement Object.size) (mem : ℕ → UInt8) (a : ℕ), ¬ p.Holds a → p.replay mem ws a = mem a) ↔
          Machine.Along (handleConnStep client) NoReset s inputs) := by
  have hrun := run_inside_iff client (budget_fresh hs) inputs
  refine ⟨hrun, fun ws hws => ?_⟩
  have : Nontrivial UInt8 := ⟨0, 1, by decide⟩
  rw [← hrun, hws.inside_iff]
  exact inside_iff_unchanged.symm

theorem writes_inside_missing :
    (Inside (handleConn [] (Conn.reset 0) missingInputs).1 ↔
        Machine.Along (handleConnStep []) NoReset (Conn.reset 0) missingInputs) ∧
      ∀ ws, Stores (handleConn [] (Conn.reset 0) missingInputs).1 ws →
        ((∀ (p : Placement Object.size) (mem : ℕ → UInt8) (a : ℕ), ¬ p.Holds a → p.replay mem ws a = mem a) ↔
          Machine.Along (handleConnStep []) NoReset (Conn.reset 0) missingInputs) :=
  writes_inside_iff [] (fresh_reset 0) missingInputs

/-- The reset behind the request clears 4096 bytes from the first byte of `req` on. -/
theorem missing_clears_outside : ¬ Inside (handleConn [] (Conn.reset 0) missingInputs).1 := by
  intro h
  have hwrotes : wrotes (handleConn [] (Conn.reset 0) missingInputs).1 =
      [(.data, 12), (.data, bsize), (.req, bsize), (.resp, bsize)] := by decide +kernel
  have hmem : (Object.req, bsize) ∈ wrotes (handleConn [] (Conn.reset 0) missingInputs).1 := by
    rw [hwrotes]
    simp
  have hreq := h .req bsize (mem_wrotes.mp hmem)
  exact absurd hreq (by decide)

end CeeServe.Static
