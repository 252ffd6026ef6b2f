import CeeServe.Static.Stream

/-! # The files a connection holds open

`serve_file` never closes what it opens. The process has a limit of descriptors, and
after as many requests for existing files on one connection every name is answered as
if it did not exist.
-/
namespace CeeServe.Static
open CString Framing

/-- The answers of a file system to a process with `limit` descriptors for files. -/
def FileSystem.fopenLimited (fs : FileSystem) (limit : ℕ) : Fopen := fun openFiles name =>
  if openFiles < limit then fs.fopen openFiles name else none

def FileSystem.Has (fs : FileSystem) (req : HttpRequest) : Prop := fs (fname (req.path.getD [])) ≠ none

instance (fs : FileSystem) (req : HttpRequest) : Decidable (fs.Has req) := inferInstanceAs (Decidable (_ ≠ _))

/-- The files opened, in order. -/
def opened (tr : List Event) : List (List UInt8) :=
  tr.filterMap fun
    | .fopened name true => some name
    | _ => none

@[simp] theorem opened_append (a b : List Event) : opened (a ++ b) = opened a ++ opened b := List.filterMap_append

@[simp] theorem opened_bodies (bodies : List (List UInt8)) : opened (bodies.map .sentBody) = [] := by
  apply List.filterMap_eq_nil_iff.mpr
  intro e he
  obtain ⟨b, -, rfl⟩ := List.mem_map.mp he
  rfl

theorem serveFile_congr {fopen fopen' : Fopen} {n n' : ℕ} {req req' : HttpRequest}
    (hname : fname (req.path.getD []) = fname (req'.path.getD []))
    (hfopen : fopen n (fname (req'.path.getD [])) = fopen' n' (fname (req'.path.getD []))) :
    (serveFile fopen n req).events = (serveFile fopen' n' req').events := by
  cases h : fopen' n' (fname (req'.path.getD [])) with
  | none => rw [serveFile_none h, serveFile_none (by rw [hname, hfopen, h]), hname]
  | some file => rw [serveFile_some h, serveFile_some (by rw [hname, hfopen, h]), hname]

theorem openFiles_serveFile (fs : FileSystem) {limit n : ℕ} (hn : n ≤ limit) (req : HttpRequest) :
    (serveFile (fs.fopenLimited limit) n req).openFiles = min limit (n + if fs.Has req then 1 else 0) := by
  cases h : fs (fname (req.path.getD [])) with
  | none =>
    have hfopen : fs.fopenLimited limit n (fname (req.path.getD [])) = none := by
      simp [FileSystem.fopenLimited, FileSystem.fopen, h]
    rw [serveFile_none hfopen, if_neg (by simp [FileSystem.Has, h])]
    dsimp only
    omega
  | some content =>
    rw [if_pos (by simp [FileSystem.Has, h])]
    by_cases hlimit : n < limit
    · have hfopen : fs.fopenLimited limit n (fname (req.path.getD [])) = some (openFile content) := by
        simp [FileSystem.fopenLimited, FileSystem.fopen, h, hlimit]
      rw [serveFile_some hfopen]
      dsimp only
      omega
    · have hfopen : fs.fopenLimited limit n (fname (req.path.getD [])) = none := by
        simp [FileSystem.fopenLimited, hlimit]
      rw [serveFile_none hfopen]
      dsimp only
      omega

theorem run_openFiles {client : List UInt8} {fs : FileSystem} {limit : ℕ} {inputs : List Input}
    (hin : ∀ inp ∈ inputs, inp.fopen = fs.fopenLimited limit) {s s' : Conn} (hs : s.openFiles ≤ limit)
    (hrun : (handleConn client s inputs).2 = some s') :
    s'.openFiles = min limit (s.openFiles + (serves (handleConn client s inputs).1).countP fun r => fs.Has r) := by
  have haccounts := Machine.run_accounts
    (A := fun (s : Conn) tr s' => s.openFiles ≤ limit →
      s'.openFiles = min limit (s.openFiles + (serves tr).countP fun r => fs.Has r))
    (fun s hs => (Nat.min_eq_right hs).symm) (fun inp hinp s es s₁ hstep tr s' htr hs => ?_) hrun
  · exact haccounts hs
  rcases step_serves client s inp with ⟨hserves, -, hnext⟩ | ⟨req, hserves, -, hnext⟩
  · rw [hstep] at hserves hnext
    have hs₁ := hnext s₁ rfl
    rw [htr (by omega), hs₁, serves_append, hserves, List.nil_append]
  · rw [hstep] at hserves hnext
    have hs₁ : s₁.openFiles = min limit (s.openFiles + if fs.Has req then 1 else 0) := by
      rw [hnext s₁ rfl, hin inp hinp]
      exact openFiles_serveFile fs hs req
    rw [htr (by omega), hs₁, serves_append, hserves, List.countP_append, List.countP_singleton]
    simp only [decide_eq_true_eq]
    omega

theorem encodes_functional {α β : Type*} {next : List α → Option (β × List α)} {s : List α} {b b' : β}
    (h : Encodes next s b) (h' : Encodes next s b') : b = b' := by
  have hnext := (h.next_eq []).symm.trans (h'.next_eq [])
  simpa using hnext

/-- An existing file gets the same answer with `n` files open as with none, unless the
limit is reached in between. -/
theorem answer_eq_iff {fs : FileSystem} (limit n : ℕ) {req req' : HttpRequest} (hhas : fs.Has req')
    (hname : fname (req.path.getD []) = fname (req'.path.getD [])) :
    output (serveFile (fs.fopenLimited limit) n req).events =
        output (serveFile (fs.fopenLimited limit) 0 req').events ↔ limit = 0 ∨ n < limit := by
  have hopen : ∀ {m : ℕ}, m < limit → fs.fopenLimited limit m (fname (req'.path.getD [])) =
      fs.fopen m (fname (req'.path.getD [])) := fun hm => if_pos hm
  have hshut : ∀ {m : ℕ}, ¬ m < limit → fs.fopenLimited limit m (fname (req'.path.getD [])) = none :=
    fun hm => if_neg hm
  constructor
  · intro heq
    by_contra hlimit
    obtain ⟨hpos, hn⟩ := not_or.mp hlimit
    -- the first answer is the file, the later one says that there is none
    have hfirst : Encodes nextReply (output (serveFile (fs.fopenLimited limit) 0 req').events)
        (expectedReply fs (fname (req'.path.getD []))) := by
      rw [serveFile_congr rfl (hopen (Nat.pos_of_ne_zero hpos))]
      exact (serveFile_encodes fs 0 req').2
    have hlater : Encodes nextReply (output (serveFile (fs.fopenLimited limit) n req).events) ⟨404, []⟩ :=
      (serveFile_refused _ n req (by rw [hname]; exact hshut hn)).2.2
    have hreply := encodes_functional hlater (heq ▸ hfirst)
    obtain ⟨content, hcontent⟩ := Option.ne_none_iff_exists'.mp hhas
    simp [expectedReply, hcontent] at hreply
  · intro hlimit
    apply congrArg output
    apply serveFile_congr hname
    rcases hlimit with rfl | hn
    · rw [hshut (Nat.not_lt_zero n), hshut (Nat.not_lt_zero 0)]
    · rw [hopen hn, hopen (Nat.zero_lt_of_lt hn)]
      rfl

theorem output_serveFile_ne_nil (fs : FileSystem) (limit n : ℕ) (req : HttpRequest) :
    output (serveFile (fs.fopenLimited limit) n req).events ≠ [] := by
  by_cases hn : n < limit
  · have hopen : fs.fopenLimited limit n (fname (req.path.getD [])) = fs.fopen n (fname (req.path.getD [])) := if_pos hn
    rw [serveFile_congr rfl hopen]
    exact (serveFile_encodes fs n req).2.ne_nil
  · exact (serveFile_refused _ n req (if_neg hn)).2.2.ne_nil

theorem step_output {client : List UInt8} {s : Conn} {inp : Input} {req : HttpRequest}
    (h : serves (handleConnStep client s inp).1 = [req]) :
    output (handleConnStep client s inp).1 = output (serveFile inp.fopen s.openFiles req).events := by
  rcases step_serves client s inp with ⟨hnone, -⟩ | ⟨req', hserves, hout, -⟩
  · rw [h] at hnone
    cases hnone
  · rw [h] at hserves
    obtain rfl := (List.cons.inj hserves).1
    exact hout

/-- What is sent for one more read: nothing where the loop is not there any more. -/
def laterOutput (spared : Bool) (client : List UInt8) (s₀ : Conn) (inputs : List Input) (inp : Input) : List UInt8 :=
  match (overrunConn spared client s₀ inputs).2 with
  | none => []
  | some s => output (overrunStep spared client s inp).1

theorem laterOutput_eq {spared : Bool} {client : List UInt8} {s₀ s : Conn} (hs₀ : Fresh s₀) {inputs : List Input}
    (hrun : (handleConn client s₀ inputs).2 = some s) (inp : Input) :
    laterOutput spared client s₀ inputs inp =
      if spared = true ∨ serves (handleConn client s₀ inputs).1 = [] then output (handleConnStep client s inp).1
      else [] := by
  have hgoes := overrunConn_goes_on_iff spared client (budget_fresh hs₀) hrun
  unfold laterOutput
  split
  · next hnone =>
    rw [hnone] at hgoes
    rw [if_neg fun h => by cases hgoes.mpr h]
  · next t ht =>
    have hsame := overrunConn_state ht
    rw [hsame, hrun] at ht
    obtain rfl := Option.some.inj ht
    rw [if_pos (hgoes.mp (hsame ▸ hrun)), overrunStep_events]

/-- After a history of requests on one connection, the answer to a request for an
existing file is the one it would get as the first request exactly when nothing was
served before, or the loop survives its resets and the files the history found are fewer
than the limit; and no file is left open at the loop head exactly when it found none.
Without any descriptor every answer is the same. -/
theorem history_independent_iff {client : List UInt8} {fs : FileSystem} {limit : ℕ} {s₀ s : Conn} (hs₀ : Fresh s₀)
    (hfiles : s₀.openFiles = 0) {inputs : List Input} (hin : ∀ inp ∈ inputs, inp.fopen = fs.fopenLimited limit)
    (hrun : (handleConn client s₀ inputs).2 = some s) {history : List HttpRequest}
    (hhistory : serves (handleConn client s₀ inputs).1 = history) (spared : Bool) :
    (∀ inp inp₀ : Input, inp.fopen = fs.fopenLimited limit → inp₀.fopen = fs.fopenLimited limit →
      ∀ req req₀ : HttpRequest, serves (handleConnStep client s inp).1 = [req] →
        serves (handleConnStep client s₀ inp₀).1 = [req₀] →
        fname (req.path.getD []) = fname (req₀.path.getD []) → fs.Has req₀ →
        (laterOutput spared client s₀ inputs inp = output (handleConnStep client s₀ inp₀).1 ↔
          history = [] ∨ spared = true ∧ (limit = 0 ∨ (history.countP fun r => fs.Has r) < limit))) ∧
      ∀ s', (overrunConn spared client s₀ inputs).2 = some s' →
        (s'.openFiles = 0 ↔ limit = 0 ∨ (history.countP fun r => fs.Has r) = 0) := by
  have hopen := run_openFiles hin (by omega) hrun
  rw [hhistory, hfiles, Nat.zero_add] at hopen
  constructor
  · intro inp inp₀ hinp hinp₀ req req₀ hreq hreq₀ hname hhas
    have hanswer := answer_eq_iff limit s.openFiles hhas hname
    rw [laterOutput_eq hs₀ hrun, hhistory, step_output hreq, step_output hreq₀, hinp, hinp₀, hfiles]
    split
    case isTrue hthere =>
      rw [hanswer, hopen]
      rcases hthere with hspared | rfl
      · by_cases hnil : history = []
        · subst hnil
          simp
          omega
        · simp only [hnil, false_or, hspared, true_and]
          omega
      · simp
        omega
    case isFalse hgone =>
      obtain ⟨hspared, hserved⟩ := not_or.mp hgone
      refine iff_of_false (fun heq => output_serveFile_ne_nil fs limit 0 req₀ heq.symm) ?_
      simp [hspared, hserved]
  · intro s' hs'
    have hsame := overrunConn_state hs'
    rw [hsame, hrun] at hs'
    obtain rfl := Option.some.inj hs'
    omega

def askIndex (limit : ℕ) : Input := ⟨some plainHead.bytes, indexOnly.fopenLimited limit, []⟩

theorem serveFile_askIndex : (serveFile (askIndex 2).fopen 0 (plainHead.request HttpRequest.zero)).returns = true ∧
    (serveFile (askIndex 2).fopen 0 (plainHead.request HttpRequest.zero)).openFiles = 1 := by
  decide +kernel

/-- With two descriptors the second request gets the answer of the first one where the
resets spare the loop, and none as the program is built. -/
theorem history_independent_index :
    laterOutput true [] (Conn.reset 0) [askIndex 2] (askIndex 2) =
        output (handleConnStep [] (Conn.reset 0) (askIndex 2)).1 ∧
      laterOutput false [] (Conn.reset 0) [askIndex 2] (askIndex 2) ≠
        output (handleConnStep [] (Conn.reset 0) (askIndex 2)).1 := by
  have hread := plainHead.read_alone (show (askIndex 2).read = some plainHead.bytes from rfl)
  have hstep := plainHead.step_served [] [] (fresh_reset 0) hread plainHead.fits_alone serveFile_askIndex.1
  have hserves : ∀ n, serves (handleConnStep [] (Conn.reset n) (askIndex 2)).1 = [plainHead.request HttpRequest.zero] :=
    fun n => (plainHead.step_trace [] [] (fresh_reset n) hread plainHead.fits_alone).2.1
  have hrun : (handleConn [] (Conn.reset 0) [askIndex 2]).2 = some (Conn.reset 1) := by
    rw [handleConn, Machine.run_singleton, hstep]
    exact congrArg (fun n => some (Conn.reset n)) serveFile_askIndex.2
  have hhistory : serves (handleConn [] (Conn.reset 0) [askIndex 2]).1 = [plainHead.request HttpRequest.zero] := by
    rw [handleConn, Machine.run_singleton, hserves 0]
  have hhas : indexOnly.Has (plainHead.request HttpRequest.zero) := by decide +kernel
  have hin : ∀ inp ∈ [askIndex 2], inp.fopen = indexOnly.fopenLimited 2 := by simp [askIndex]
  have hanswer := fun spared => (history_independent_iff (fresh_reset 0) rfl hin hrun hhistory spared).1
    (askIndex 2) (askIndex 2) rfl rfl _ _ (hserves 1) (hserves 0) rfl hhas
  exact ⟨(hanswer true).mpr (Or.inr ⟨rfl, by simp [hhas]⟩), fun h => absurd ((hanswer false).mp h) (by simp)⟩

/-- The file that the first request has opened stays open. With one descriptor it is the
last one: the second request for it is answered with 404, or not at all. -/
theorem secondRequest_notFound :
    decode nextReply (output (handleConnStep [] (Conn.reset 0) (askIndex 1)).1) = some [⟨200, ascii "a\r\n\r\nb"⟩] ∧
      (∀ spared, opened (overrunConn spared [] (Conn.reset 0) [askIndex 1]).1 = [ascii "index.html"]) ∧
      (overrunConn true [] (Conn.reset 0) [askIndex 1]).2.map Conn.openFiles = some 1 ∧
      decode nextReply (laterOutput true [] (Conn.reset 0) [askIndex 1] (askIndex 1)) = some [⟨404, []⟩] ∧
      laterOutput false [] (Conn.reset 0) [askIndex 1] (askIndex 1) = [] := by
  decide +kernel

end CeeServe.Static
