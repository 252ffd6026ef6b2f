import CeeServe.Static.OpenFiles

/-! # What a server of files is for

Seen by a client, a connection is a set of files and a number of descriptors: a name is
answered with the content of its file as long as a descriptor is left, and otherwise as
if there were no such file. `handle_conn` does nothing else for a client that waits for
each reply before it asks again.
-/
namespace CeeServe.Static
open CString Parse Framing

structure Session where
  files : FileSystem
  free : ℕ

def Session.answer (s : Session) (name : List UInt8) : Reply × Session :=
  match s.files name with
  | some content => if 0 < s.free then (⟨200, content⟩, { s with free := s.free - 1 }) else (⟨404, []⟩, s)
  | none => (⟨404, []⟩, s)

def Session.replies : Session → List (List UInt8) → List Reply := Machine.answers Session.answer

example : (⟨indexOnly, 1⟩ : Session).replies [ascii "index.html", ascii "x", ascii "index.html"] =
    [⟨200, ascii "a\r\n\r\nb"⟩, ⟨404, []⟩, ⟨404, []⟩] := by decide +kernel

/-- The read brings the head, and more that the buffer has room for. -/
structure AsksFor (fs : FileSystem) (limit : ℕ) (inp : Input) (h : GetHead) : Prop where
  read_eq : ∃ rest, inp.read = some (h.bytes ++ rest) ∧ (h.bytes ++ rest).length ≤ bsize
  fopen_eq : inp.fopen = fs.fopenLimited limit

/-- The loop head stands for the session with the descriptors that are left. -/
structure InSession (fs : FileSystem) (limit : ℕ) (s : Conn) (a : Session) : Prop where
  fresh : Fresh s
  files : a.files = fs
  free : s.openFiles + a.free = limit

theorem serveFile_session {fs : FileSystem} {limit n : ℕ} {a : Session} (hfiles : a.files = fs)
    (hfree : n + a.free = limit) (req : HttpRequest) :
    (serveFile (fs.fopenLimited limit) n req).returns = true ∧
      (a.answer (fname (req.path.getD []))).2.files = fs ∧
      (serveFile (fs.fopenLimited limit) n req).openFiles + (a.answer (fname (req.path.getD []))).2.free = limit ∧
      Encodes nextReply (output (serveFile (fs.fopenLimited limit) n req).events)
        (a.answer (fname (req.path.getD []))).1 := by
  subst hfiles
  cases hfs : a.files (fname (req.path.getD [])) with
  | none =>
    obtain ⟨hret, hopen, henc⟩ := serveFile_refused (a.files.fopenLimited limit) n req
      (by simp [FileSystem.fopenLimited, FileSystem.fopen, hfs])
    simp only [Session.answer, hfs]
    exact ⟨hret, trivial, by omega, henc⟩
  | some content =>
    by_cases hpos : 0 < a.free
    · obtain ⟨hret, hopen, henc⟩ := serveFile_found (a.files.fopenLimited limit) n req
        (show _ = some (openFile content) by simp [FileSystem.fopenLimited, FileSystem.fopen, hfs, show n < limit by omega])
      simp only [Session.answer, hfs, if_pos hpos]
      exact ⟨hret, trivial, by omega, henc⟩
    · obtain ⟨hret, hopen, henc⟩ := serveFile_refused (a.files.fopenLimited limit) n req
        (by simp [FileSystem.fopenLimited, show ¬ n < limit by omega])
      simp only [Session.answer, hfs, if_neg hpos]
      exact ⟨hret, trivial, by omega, henc⟩

theorem step_session (client : List UInt8) {fs : FileSystem} {limit : ℕ} {s : Conn} {a : Session} {inp : Input}
    {h : GetHead} (hs : InSession fs limit s a) (hin : AsksFor fs limit inp h) :
    ∃ es s', handleConnStep client s inp = (es, some s') ∧
      Encodes nextReply (output es) (a.answer (fname h.path)).1 ∧
      InSession fs limit s' (a.answer (fname h.path)).2 := by
  obtain ⟨⟨rest, hread, hfit⟩, hfopen⟩ := hin
  have hpath : fname ((h.request s.req).path.getD []) = fname h.path := rfl
  obtain ⟨hret, hfiles, hfree, henc⟩ := serveFile_session hs.files hs.free (h.request s.req)
  rw [hpath] at hfiles hfree henc
  rw [← hfopen] at hret hfree henc
  refine ⟨_, _, h.step_served client rest hs.fresh hread hfit hret, ?_, fresh_reset _, hfiles, hfree⟩
  simpa using henc

/-- A run of whole heads sends the replies of the session, one for each read: what else
the read has brought gets none. -/
theorem run_session (client : List UInt8) {fs : FileSystem} {limit : ℕ} {s : Conn} {a : Session}
    (hs : InSession fs limit s a) {inputs : List Input} {heads : List GetHead}
    (hin : List.Forall₂ (AsksFor fs limit) inputs heads) :
    (handleConn client s inputs).2.isSome ∧
      decode nextReply (output (handleConn client s inputs).1) = some (a.replies (heads.map fun h => fname h.path)) := by
  have hnames : List.Forall₂ (fun inp name => ∃ h, AsksFor fs limit inp h ∧ name = fname h.path) inputs
      (heads.map fun h => fname h.path) := by
    rw [List.forall₂_map_right_iff]
    exact hin.imp fun inp h hask => ⟨h, hask, rfl⟩
  have hstep : ∀ s a inp name, InSession fs limit s a → (∃ h, AsksFor fs limit inp h ∧ name = fname h.path) →
      ∃ es s', handleConnStep client s inp = (es, some s') ∧ Encodes nextReply (output es) (a.answer name).1 ∧
        InSession fs limit s' (a.answer name).2 := by
    rintro s a inp name hs ⟨h, hask, rfl⟩
    exact step_session client hs hask
  obtain ⟨ess, s', hrun, hblocks⟩ := Machine.run_simulates (P := fun reply es => Encodes nextReply (output es) reply)
    hstep hnames hs
  have hpieces : List.Forall₂ (Encodes nextReply) (ess.map output) (a.replies (heads.map fun h => fname h.path)) := by
    rw [List.forall₂_map_left_iff]
    exact hblocks.flip
  rw [handleConn, hrun, output_flatten]
  exact ⟨rfl, decode_encoded hpieces⟩

end CeeServe.Static
