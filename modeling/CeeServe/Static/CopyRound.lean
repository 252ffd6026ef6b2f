import CeeServe.Static.Overrun

/-! # One more round of the copy loop

As long as `serve_file` has not come to the end of the file, the iteration that called it
goes on with another `fread` and another `send`. It is then the same iteration on an
input with one result of `fread` more.
-/
namespace CeeServe.Static
open Machine

/-- The input with one more result of `fread` on the file that it opens. -/
def Input.more (inp : Input) (r : FreadResult) : Input :=
  { inp with
    fopen := fun openFiles name =>
      (inp.fopen openFiles name).map fun file => { file with freads := file.freads ++ [r] } }

/-- What the round does, and the reset behind the last one. -/
def copyRound (spared : Bool) (openFiles : ℕ) (r : FreadResult) : List Event × Option Conn :=
  if r.eof then (.sentBody r.bytes :: resetEvents, if spared then some (Conn.reset (openFiles + 1)) else none)
  else ([.sentBody r.bytes], none)

theorem bodyLoop_more {eof : Bool} {freads : List FreadResult} (h : (bodyLoop eof freads).2 = false)
    (r : FreadResult) :
    bodyLoop eof (freads ++ [r]) = ((bodyLoop eof freads).1 ++ [r.bytes], r.eof) := by
  induction freads generalizing eof with
  | nil =>
    cases eof with
    | true => cases h
    | false => cases hr : r.eof <;> simp [bodyLoop, hr]
  | cons r' freads ih =>
    cases eof with
    | true => cases h
    | false =>
      have hrest := @ih r'.eof h
      simp [bodyLoop, hrest]

theorem serveFile_more {inp : Input} {n : ℕ} {req : HttpRequest} (h : (serveFile inp.fopen n req).returns = false)
    (r : FreadResult) :
    serveFile (inp.more r).fopen n req = ⟨(serveFile inp.fopen n req).events ++ [.sentBody r.bytes], n + 1, r.eof⟩ := by
  cases hopen : inp.fopen n (fname (req.path.getD [])) with
  | none =>
    rw [serveFile_none hopen] at h
    cases h
  | some file =>
    have hmore : (inp.more r).fopen n (fname (req.path.getD [])) = some { file with freads := file.freads ++ [r] } := by
      simp only [Input.more, hopen, Option.map_some]
    rw [serveFile_some hopen] at h
    rw [serveFile_some hopen, serveFile_some hmore, bodyLoop_more h]
    simp

theorem Serving.more {s : Conn} {inp : Input} {req : HttpRequest} (h : Serving s inp req) (r : FreadResult) :
    Serving s (inp.more r) req := ⟨h.reads, h.reading, h.ends, h.parses, h.get⟩

theorem copying_inside (client : List UInt8) {s : Conn} {inp : Input} {req : HttpRequest} (hs : Budget s)
    (h : Serving s inp req) (hcopying : (serveFile inp.fopen s.openFiles req).returns = false) :
    Inside (handleConnStep client s inp).1 := by
  rcases hstep : handleConnStep client s inp with ⟨es, o⟩
  refine (step_inside client hs hstep).mpr fun req' h' => ?_
  rw [h'.unique h]
  exact hcopying

theorem handleConnStep_more (client : List UInt8) {s : Conn} {inp : Input} {req : HttpRequest} (h : Serving s inp req)
    (hcopying : (serveFile inp.fopen s.openFiles req).returns = false) (r : FreadResult) :
    ∃ es, handleConnStep client s inp = (es, none) ∧
      handleConnStep client s (inp.more r) =
        (es ++ (copyRound true s.openFiles r).1, (copyRound true s.openFiles r).2) := by
  have hfile := serveFile_more hcopying r
  have hevents : servingEvents client s (inp.more r) req = servingEvents client s inp req ++ [.sentBody r.bytes] := by
    rw [servingEvents, hfile]
    rfl
  refine ⟨servingEvents client s inp req, ?_, ?_⟩
  · rcases step_serving client h with ⟨hret, -⟩ | ⟨-, heq⟩
    · rw [hcopying] at hret
      cases hret
    · exact heq
  · rcases step_serving client (h.more r) with ⟨hret, heq⟩ | ⟨hret, heq⟩
    · rw [hfile] at hret heq
      rw [heq, hevents, copyRound, if_pos hret, List.append_assoc]
      rfl
    · rw [hfile] at hret
      have heof : ¬ r.eof = true := by simp [show r.eof = false from hret]
      rw [heq, hevents, copyRound, if_neg heof]

/-- The round comes behind what the iteration has done before. -/
theorem overrunStep_more (spared : Bool) (client : List UInt8) {s : Conn} {inp : Input} {req : HttpRequest}
    (h : Serving s inp req) (hcopying : (serveFile inp.fopen s.openFiles req).returns = false) (r : FreadResult) :
    ∃ es, overrunStep spared client s inp = (es, none) ∧
      overrunStep spared client s (inp.more r) =
        (es ++ (copyRound spared s.openFiles r).1, (copyRound spared s.openFiles r).2) := by
  obtain ⟨es, hstep, hmore⟩ := handleConnStep_more client h hcopying r
  refine ⟨es, ?_, ?_⟩
  · rw [overrunStep, stopUnless_of_stop (by rw [hstep]), hstep]
  · rw [overrunStep, stopUnless, hmore]
    cases heof : r.eof with
    | false =>
      simp only [copyRound, heof, Bool.false_eq_true, if_false]
      split <;> rfl
    | true =>
      have hreset : ¬ Inside (es ++ .sentBody r.bytes :: resetEvents) := by
        intro hin
        exact not_inside_reset ((inside_append [.sentBody r.bytes] _).mp ((inside_append _ _).mp hin).2).2
      cases spared <;> simp [copyRound, heof, Survives, hreset]

end CeeServe.Static
