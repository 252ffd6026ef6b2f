import CeeServe.Static.Stream

/-! # The copy loop of serve_file on any results of fread

The loop tests the end-of-file indicator and nothing else: it goes on after a read
error, and it counts no bytes, while the length it announced was taken before.
-/
namespace CeeServe.Static
open CString Decimal Parse HeaderScan Response

/-- The calls of `fread` the loop makes: none after the first that leaves the
end-of-file indicator set. -/
def readsMade : List FreadResult → List FreadResult
  | [] => []
  | r :: freads => if r.eof then [r] else r :: readsMade freads

/-- Every call is followed by a `send`; the loop is left if one of them met the end of
the file. -/
theorem bodyLoop_eq (freads : List FreadResult) :
    bodyLoop false freads = ((readsMade freads).map FreadResult.bytes, freads.any FreadResult.eof) := by
  induction freads with
  | nil => rfl
  | cons r freads ih =>
    cases heof : r.eof with
    | true => simp [bodyLoop, readsMade, heof]
    | false => simp [bodyLoop, readsMade, heof, ih]

def totalRead (freads : List FreadResult) : ℕ := ((readsMade freads).map FreadResult.bytes).flatten.length

def CopyEnds (openFiles : ℕ) (req : HttpRequest) (size : ℤ) (fread : ℕ → FreadResult) : Prop :=
  ∃ n, (serveFile (fun _ _ => some ⟨size, (List.range n).map fread⟩) openFiles req).returns = true

/-- The loop ends exactly when one of the calls leaves the end-of-file indicator set. -/
theorem copyEnds_iff (openFiles : ℕ) (req : HttpRequest) (size : ℤ) (fread : ℕ → FreadResult) :
    CopyEnds openFiles req size fread ↔ ∃ k, (fread k).eof = true := by
  have hreturns : ∀ n, (serveFile (fun _ _ => some ⟨size, (List.range n).map fread⟩) openFiles req).returns = true ↔
      ∃ k < n, (fread k).eof = true := by
    intro n
    rw [serveFile_some rfl]
    dsimp only
    rw [bodyLoop_eq, List.any_map, List.any_eq_true]
    simp
  constructor
  · rintro ⟨n, hn⟩
    obtain ⟨k, -, hk⟩ := (hreturns n).mp hn
    exact ⟨k, hk⟩
  · rintro ⟨k, hk⟩
    exact ⟨k + 1, (hreturns (k + 1)).mpr ⟨k, Nat.lt_succ_self k, hk⟩⟩

/-- A directory: it can be opened, and every read fails without reaching an end. -/
def directoryRead (_ : ℕ) : FreadResult := ⟨[], false, Nat.zero_le _⟩

theorem directory_never_ends :
    (∀ k, (directoryRead k).bytes.length < bsize) ∧ ¬ CopyEnds 0 (plainHead.request HttpRequest.zero) 4096 directoryRead := by
  refine ⟨fun _ => Nat.succ_pos _, ?_⟩
  rintro ⟨n, hn⟩
  rw [serveFile_some rfl] at hn
  dsimp only at hn
  rw [bodyLoop_eq, List.any_map, List.any_eq_true] at hn
  obtain ⟨k, -, hk⟩ := hn
  cases hk

/-- The number a client reads in the Content-Length line of the response head. -/
def announcedLength (tr : List Event) : Option ℤ :=
  tr.findSome? fun
    | .sentResponse head => (fieldValue (ascii "Content-Length") (headLines head).tail).map ofDecimalInt
    | _ => none

def bodySent (tr : List Event) : List UInt8 :=
  tr.flatMap fun
    | .sentBody data => data
    | _ => []

def WithinLength (tr : List Event) : Prop :=
  ∃ n, announcedLength tr = some n ∧ (bodySent tr).length ≤ n

theorem fieldValue_head {line value : List UInt8} {more : List (List UInt8)} (hline : ∀ c ∈ line, Plain c)
    (hvalue : ∀ c ∈ value, Plain c)
    (hls : ∀ l ∈ headerLine ⟨ascii "Content-Length", value⟩ :: more, l ≠ [] ∧ ∀ c ∈ l, Plain c) :
    fieldValue (ascii "Content-Length")
      (headLines (headBytes line (headerLine ⟨ascii "Content-Length", value⟩ :: more))).tail = some value := by
  have hwrites := writes_contentLength hvalue
  rw [headLines_headBytes hline hls]
  simp [fieldValue, hwrites.name, hwrites.value]

@[simp] theorem bodySent_cons (e : Event) (tr : List Event) :
    bodySent (e :: tr) = (match e with | .sentBody data => data | _ => []) ++ bodySent tr := by
  cases e <;> rfl

theorem bodySent_bodies (bodies : List (List UInt8)) : bodySent (bodies.map .sentBody) = bodies.flatten := by
  induction bodies with
  | nil => rfl
  | cons b bodies ih => simp [ih]

/-- The body stays within the announced length exactly when what `fread` returns up to
the end of the file is no more than the size taken before. -/
theorem withinLength_iff (fopen : Fopen) (openFiles : ℕ) (req : HttpRequest) :
    WithinLength (serveFile fopen openFiles req).events ↔
      ∀ file, fopen openFiles (fname (req.path.getD [])) = some file →
        totalRead file.freads ≤ file.size := by
  cases h : fopen openFiles (fname (req.path.getD [])) with
  | none =>
    rw [serveFile_none h]
    have hzero : (fieldValue (ascii "Content-Length") (headLines (resptostr notFoundResponse)).tail).map ofDecimalInt =
        some 0 := by decide +kernel
    constructor
    · intro _ file hfile
      cases hfile
    · intro _
      exact ⟨0, by simp [announcedLength, hzero], Int.le_refl 0⟩
  | some file =>
    obtain ⟨more, hls, hhead⟩ := fileResponse_head (fname (req.path.getD [])) file.size
    have hline : ∀ c ∈ ascii "HTTP/1.1 200 OK", Plain c := by decide +kernel
    have hfield := fieldValue_head hline (fun _ => decimalInt_plain) hls
    rw [← hhead] at hfield
    have hbody : (bodySent ((bodyLoop false file.freads).1.map .sentBody)).length = totalRead file.freads := by
      rw [bodySent_bodies, bodyLoop_eq, totalRead]
    rw [serveFile_some h]
    simp [WithinLength, announcedLength, hfield, ofDecimalInt_decimalInt, hbody]

def readTwo : FreadResult := ⟨ascii "ab", true, by decide +kernel⟩

/-- One byte was there when the size was taken, and two when the file was read. -/
def grownFile : Opened := ⟨1, [readTwo]⟩

theorem grownFile_outruns :
    ¬ WithinLength (serveFile (fun _ _ => some grownFile) 0 (plainHead.request HttpRequest.zero)).events := by
  rintro ⟨n, hn, hle⟩
  have hannounced : announcedLength (serveFile (fun _ _ => some grownFile) 0 (plainHead.request HttpRequest.zero)).events =
      some 1 := by decide +kernel
  have hsent : (bodySent (serveFile (fun _ _ => some grownFile) 0 (plainHead.request HttpRequest.zero)).events).length = 2 := by
    decide +kernel
  rw [hannounced] at hn
  rw [hsent] at hle
  obtain rfl := Option.some.inj hn
  exact absurd hle (by decide)

end CeeServe.Static
