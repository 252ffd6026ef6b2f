import CeeServe.Lib.PartialWrites
import CeeServe.Static.BodyLoop

/-! # What the socket accepts of a response

`send` may accept less than it is given, and nothing looks at what it returned: the
next buffer is sent as if all of the last one had gone out.
-/
namespace CeeServe.Static
open CString Response PartialWrites

def Opened.content (file : Opened) : List UInt8 := (file.freads.map FreadResult.bytes).flatten

/-- The response head followed by the content of the file. -/
def responseBytes (name : List UInt8) : Option Opened → List UInt8
  | none => resptostr notFoundResponse
  | some file => resptostr (fileResponse name file.size) ++ file.content

/-- Two results of `fread` that differ in the bytes only. -/
def FreadResult.SameShape (r r' : FreadResult) : Prop := r.bytes.length = r'.bytes.length ∧ r.eof = r'.eof

/-- Two answers of `fopen` that differ in the bytes of the file only. -/
def SameShape : Option Opened → Option Opened → Prop
  | none, none => True
  | some file, some file' =>
    file.size = file'.size ∧ List.Forall₂ FreadResult.SameShape file.freads file'.freads
  | _, _ => False

/-- The buffers `serve_file` passes to `send` when `fopen` answers so. -/
def sendsFor (openFiles : ℕ) (req : HttpRequest) (answer : Option Opened) : List (List UInt8) :=
  sends (serveFile (fun _ _ => answer) openFiles req).events

theorem sends_bodies (bodies : List (List UInt8)) : sends (bodies.map .sentBody) = bodies := by
  induction bodies with
  | nil => rfl
  | cons b bodies ih => simp [ih]

theorem sendsFor_none (openFiles : ℕ) (req : HttpRequest) :
    sendsFor openFiles req none = [resptostr notFoundResponse] := by
  rw [sendsFor, serveFile_none rfl]
  rfl

theorem sendsFor_some (openFiles : ℕ) (req : HttpRequest) (file : Opened) :
    sendsFor openFiles req (some file) = resptostr (fileResponse (fname (req.path.getD [])) file.size) ::
      (readsMade file.freads).map FreadResult.bytes := by
  rw [sendsFor, serveFile_some rfl, bodyLoop_eq]
  exact congrArg (List.cons _) (sends_bodies _)

theorem readsMade_front (freads : List FreadResult) : readsMade freads <+: freads := by
  induction freads with
  | nil => exact List.prefix_refl _
  | cons r freads ih =>
    unfold readsMade
    split
    · exact ⟨freads, rfl⟩
    · exact (List.prefix_cons_inj r).mpr ih

/-- Sent whole, the buffers are the response as far as the file was read. -/
theorem sendsFor_whole (openFiles : ℕ) (req : HttpRequest) (answer : Option Opened) :
    (sendsFor openFiles req answer).flatten <+: responseBytes (fname (req.path.getD [])) answer := by
  cases answer with
  | none => rw [sendsFor_none, List.flatten_singleton, responseBytes]
  | some file =>
    obtain ⟨unread, hunread⟩ := (readsMade_front file.freads).map FreadResult.bytes
    rw [sendsFor_some, List.flatten_cons, responseBytes, Opened.content]
    apply (List.prefix_append_right_inj _).mpr
    rw [← hunread, List.flatten_append]
    exact List.prefix_append _ _

def FreadResult.fill (y : UInt8) (r : FreadResult) : FreadResult :=
  ⟨PartialWrites.fill y r.bytes, r.eof, by rw [PartialWrites.fill, List.length_replicate]; exact r.length_le⟩

/-- The file with `y` in all places behind the first `i` reads. -/
def Opened.fillFrom (i : ℕ) (y : UInt8) (file : Opened) : Opened :=
  ⟨file.size, file.freads.take i ++ (file.freads.map (FreadResult.fill y)).drop i⟩

theorem readsMade_map_fill (y : UInt8) (freads : List FreadResult) :
    readsMade (freads.map (FreadResult.fill y)) = (readsMade freads).map (FreadResult.fill y) := by
  induction freads with
  | nil => rfl
  | cons r freads ih =>
    have heof : (r.fill y).eof = r.eof := rfl
    cases h : r.eof with
    | true => simp [readsMade, heof, h]
    | false => simp [readsMade, heof, h, ih]

theorem readsMade_fillFrom (y : UInt8) (i : ℕ) (freads : List FreadResult) :
    readsMade (freads.take i ++ (freads.map (FreadResult.fill y)).drop i) =
      (readsMade freads).take i ++ ((readsMade freads).map (FreadResult.fill y)).drop i := by
  induction freads generalizing i with
  | nil => simp [readsMade]
  | cons r freads ih =>
    cases i with
    | zero => simpa using readsMade_map_fill y (r :: freads)
    | succ i =>
      cases h : r.eof with
      | true => simp [readsMade, h]
      | false => simp [readsMade, h, ih i]

theorem sendsFor_fillFrom (openFiles : ℕ) (req : HttpRequest) (answer : Option Opened) (i : ℕ) (y : UInt8) :
    sendsFor openFiles req (answer.map (Opened.fillFrom i y)) =
      (sendsFor openFiles req answer).take (i + 1) ++
        ((sendsFor openFiles req answer).map (fill y)).drop (i + 1) := by
  cases answer with
  | none => simp [sendsFor_none]
  | some file =>
    rw [Option.map_some, sendsFor_some, sendsFor_some]
    simp only [Opened.fillFrom, readsMade_fillFrom, List.map_append, List.map_take, List.map_drop, List.map_map,
      List.map_cons, List.take_succ_cons, List.drop_succ_cons, List.cons_append]
    rfl

theorem sameShape_fillFrom (i : ℕ) (y : UInt8) (answer : Option Opened) :
    SameShape answer (answer.map (Opened.fillFrom i y)) := by
  cases answer with
  | none => trivial
  | some file =>
    have hsame : List.Forall₂ FreadResult.SameShape (file.freads.take i) (file.freads.take i) :=
      List.forall₂_same.mpr fun _ _ => ⟨rfl, rfl⟩
    have hfill : List.Forall₂ FreadResult.SameShape (file.freads.drop i)
        ((file.freads.map (FreadResult.fill y)).drop i) := by
      rw [← List.map_drop]
      exact List.forall₂_map_right_iff.mpr (List.forall₂_same.mpr fun _ _ => ⟨List.length_replicate.symm, rfl⟩)
    have hboth : List.Forall₂ FreadResult.SameShape (file.freads.take i ++ file.freads.drop i)
        (file.freads.take i ++ (file.freads.map (FreadResult.fill y)).drop i) := List.rel_append hsame hfill
    rw [List.take_append_drop] at hboth
    exact ⟨rfl, hboth⟩

theorem readsMade_lengths {freads freads' : List FreadResult} (h : List.Forall₂ FreadResult.SameShape freads freads') :
    ((readsMade freads).map FreadResult.bytes).map List.length =
      ((readsMade freads').map FreadResult.bytes).map List.length := by
  induction h with
  | nil => rfl
  | @cons r r' freads freads' hr _ ih =>
    obtain ⟨hlen, heof⟩ := hr
    cases h : r.eof with
    | true => simp [readsMade, h, heof ▸ h, hlen]
    | false =>
      simp only [readsMade, h, heof ▸ h, Bool.false_eq_true, if_false, List.map_cons, hlen, ih]

/-- The lengths passed to `send` do not depend on the bytes of the file. -/
theorem sendsFor_lengths (openFiles : ℕ) (req : HttpRequest) {answer answer' : Option Opened}
    (h : SameShape answer answer') :
    (sendsFor openFiles req answer).map List.length = (sendsFor openFiles req answer').map List.length := by
  match answer, answer', h with
  | none, none, _ => rfl
  | some file, some file', ⟨hsize, hfreads⟩ =>
    rw [sendsFor_some, sendsFor_some, hsize, List.map_cons, List.map_cons, readsMade_lengths hfreads]

/-- After any number of calls of `send`, what the socket has accepted is a prefix of the
response, whatever the bytes of the file, exactly when nothing is accepted behind a
call that accepted less than it was given. -/
theorem nothing_skipped_iff (openFiles : ℕ) (req : HttpRequest) (answer : Option Opened) {accepted : List ℕ}
    (hle : ∀ p ∈ (sendsFor openFiles req answer).zip accepted, p.2 ≤ p.1.length) :
    (∀ answer', SameShape answer answer' → ∀ k, written ((sendsFor openFiles req answer').take k) accepted <+:
        responseBytes (fname (req.path.getD [])) answer') ↔
      NoneAfterShort (sendsFor openFiles req answer) accepted := by
  constructor
  · intro hskip
    by_contra hgap
    have : Nontrivial UInt8 := ⟨0, 1, by decide⟩
    obtain ⟨i, y, hgap⟩ := exists_gap hle hgap
    have hprefix := hskip _ (sameShape_fillFrom i y answer)
      (sendsFor openFiles req (answer.map (Opened.fillFrom i y))).length
    obtain ⟨unread, hunread⟩ := sendsFor_whole openFiles req (answer.map (Opened.fillFrom i y))
    rw [List.take_length, ← hunread, sendsFor_fillFrom, List.flatten_append, List.append_assoc] at hprefix
    exact hgap _ hprefix
  · intro hnone answer' hshape k
    have hnone' := (noneAfterShort_congr (sendsFor_lengths openFiles req hshape)).mp hnone
    exact (written_take _ _ k).trans ((written_noneAfterShort hnone').trans (sendsFor_whole openFiles req answer'))

def twoBytes : Opened := ⟨2, [readTwo]⟩

theorem nothing_skipped_short :
    (∀ answer', SameShape (some twoBytes) answer' → ∀ k,
        written ((sendsFor 0 (plainHead.request HttpRequest.zero) answer').take k) [5, 0] <+:
          responseBytes (fname ((plainHead.request HttpRequest.zero).path.getD [])) answer') ↔
      NoneAfterShort (sendsFor 0 (plainHead.request HttpRequest.zero) (some twoBytes)) [5, 0] := by
  have hle : ∀ p ∈ (sendsFor 0 (plainHead.request HttpRequest.zero) (some twoBytes)).zip [5, 0],
      p.2 ≤ p.1.length := by decide +kernel
  exact nothing_skipped_iff 0 (plainHead.request HttpRequest.zero) (some twoBytes) hle

/-- Five bytes of the head go out, and then the body. -/
theorem shortHead_gap :
    ¬ ∀ k, written ((sendsFor 0 (plainHead.request HttpRequest.zero) (some twoBytes)).take k) [5, 2] <+:
      responseBytes (fname ((plainHead.request HttpRequest.zero).path.getD [])) (some twoBytes) := by
  intro h
  have hgap : ¬ written ((sendsFor 0 (plainHead.request HttpRequest.zero) (some twoBytes)).take 2) [5, 2] <+:
      responseBytes (fname ((plainHead.request HttpRequest.zero).path.getD [])) (some twoBytes) := by
    decide +kernel
  exact hgap (h 2)

end CeeServe.Static
