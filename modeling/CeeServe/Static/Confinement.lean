import CeeServe.Lib.LexicalPath
import CeeServe.Static.ServeFile

/-! # Which files a request can open

`main` makes the web root its working directory, so a name that `serve_file` opens
is looked up from there. The name is confined when it is relative and its
components, read left to right, never climb above the directory they start in.
-/
namespace CeeServe.Static
open CString Parse RequestLine LexicalPath

/-- What a component of a path does: an empty one and `.` stay, `..` goes up. -/
def move (component : List UInt8) : Move (List UInt8) :=
  if component = [] ∨ component = [dot] then .stay
  else if component = [dot, dot] then .up
  else .enter component

def moves (name : List UInt8) : List (Move (List UInt8)) := (name.splitOn slash).map move

/-- A relative name that stays below the directory it is opened in. -/
def Confined (name : List UInt8) : Prop := name.head? ≠ some slash ∧ (walk [] (moves name)).isSome

theorem confined_iff (name : List UInt8) :
    Confined name ↔ name.head? ≠ some slash ∧ Balanced 0 (moves name) := by
  unfold Confined
  rw [walk_isSome_iff]
  rfl

theorem index_balanced : Balanced 0 (moves (ascii "index.html")) :=
  (walk_isSome_iff [] _).mp (by decide +kernel)

theorem confined_fname_iff (path : List UInt8) :
    Confined (fname path) ↔ (path.drop 1).head? ≠ some slash ∧ Balanced 0 (moves (path.drop 1)) := by
  unfold fname
  dsimp only
  split
  · rename_i hlen
    have hnil : path.drop 1 = [] := List.length_eq_zero_iff.mp hlen
    have hempty : Balanced 0 (moves []) := (walk_isSome_iff [] _).mp (by decide +kernel)
    rw [hnil, confined_iff]
    exact iff_of_true ⟨by decide +kernel, index_balanced⟩ ⟨by simp, hempty⟩
  · exact confined_iff _

/-- What `serve_file` opens for an accepted request is confined exactly when the path
token has no slash as its second byte and no prefix of the components behind its
first byte has more `..` than proper names. -/
theorem served_names_confined_iff (request : List UInt8) (req : HttpRequest)
    (hacc : (parseHeaders request req).1 = 0) (fopen : Fopen) (openFiles : ℕ) :
    (∀ name ok, Event.fopened name ok ∈ (serveFile fopen openFiles (parseHeaders request req).2).events →
        Confined name) ↔
      ∃ m p v, tokens request = [m, p, v] ∧ (p.drop 1).head? ≠ some slash ∧
        Balanced 0 (moves (p.drop 1)) := by
  rcases parseHeaders_cases request req with ⟨m, p, v, ht, -, hparse⟩ | ⟨hfail, -⟩
  · have hpath : (parseHeaders request req).2.path = some p := by rw [hparse]; rfl
    have hname : fname ((parseHeaders request req).2.path.getD []) = fname p := by rw [hpath]; rfl
    constructor
    · intro h
      obtain ⟨ok, head, bodies, hshape⟩ := serveFile_shape fopen openFiles (parseHeaders request req).2
      have hmem := h _ ok (by rw [hshape]; exact List.mem_cons_self)
      rw [hname, confined_fname_iff] at hmem
      exact ⟨m, p, v, ht, hmem⟩
    · rintro ⟨m', p', v', ht', hslash, hbal⟩ name ok hmem
      obtain ⟨rfl, rfl, rfl⟩ : m = m' ∧ p = p' ∧ v = v' := by simpa [ht] using ht'
      rcases mem_serveFile hmem with ⟨ok', he⟩ | ⟨data, he⟩ | ⟨data, he⟩
      · cases he
        rw [hname, confined_fname_iff]
        exact ⟨hslash, hbal⟩
      · cases he
      · cases he
  · rw [hfail] at hacc
    cases hacc

/-- A path that goes down and up again. -/
theorem served_names_confined_up :
    (∀ name ok, Event.fopened name ok ∈
        (serveFile (fun _ _ => none) 0 (parseHeaders (ascii "GET /a/b/../../c H\r\n\r\n") HttpRequest.zero).2).events →
        Confined name) ↔
      ∃ m p v, tokens (ascii "GET /a/b/../../c H\r\n\r\n") = [m, p, v] ∧ (p.drop 1).head? ≠ some slash ∧
        Balanced 0 (moves (p.drop 1)) :=
  served_names_confined_iff _ _ (by decide +kernel) _ 0

def parentRequest : List UInt8 := ascii "GET /../x H\r\n\r\n"

theorem parentRequest_escapes :
    (parseHeaders parentRequest HttpRequest.zero).1 = 0 ∧
      (parseHeaders parentRequest HttpRequest.zero).2.method = some (ascii "GET") ∧
      Event.fopened (ascii "../x") false ∈
        (serveFile (fun _ _ => none) 0 (parseHeaders parentRequest HttpRequest.zero).2).events ∧
      ¬ Confined (ascii "../x") := by
  have hpath : (parseHeaders parentRequest HttpRequest.zero).2.path = some (ascii "/../x") := by
    decide +kernel
  refine ⟨by decide +kernel, by decide +kernel, ?_, ?_⟩
  · have hname : fname (ascii "/../x") = ascii "../x" := by decide +kernel
    rw [serveFile_none rfl, hpath]
    simp [hname]
  · rintro ⟨-, h⟩
    have hclimbs : (walk [] (moves (ascii "../x"))).isSome = false := by decide +kernel
    rw [hclimbs] at h
    cases h

end CeeServe.Static
