import CeeServe.Static.Confinement
import CeeServe.Static.Stream

/-! # The file a name stands for, and the headers chosen for it

`serve_file` chooses two headers of a 200 response by comparing the name it was given.
The same file has many names: empty components, `.` and `..` do not change where a name
leads. The choice is right for the file exactly for some of its names.
-/
namespace CeeServe.Static
open CString Decimal Parse HeaderScan RequestLine Response LexicalPath

def imageFile : List UInt8 := ascii "image.png"

/-- The file in the web root a name leads to, its outermost directory first. -/
def resolve (name : List UInt8) : Option (List (List UInt8)) :=
  if name.head? = some slash then none else (walk [] (moves name)).map List.reverse

/-- The file lies in the folder `files`. -/
def InFolder (file : List (List UInt8)) : Prop := ∃ below, below ≠ [] ∧ file = filesFolder :: below

/-- The head has the two headers exactly when the file asks for them. -/
structure FollowsFile (head : List UInt8) (file : List (List UInt8)) : Prop where
  disposition : headerLine contentDisposition ∈ headLines head ↔ InFolder file
  type : headerLine contentType ∈ headLines head ↔ file = [imageFile]

/-- One component of the name is `d`, those before it lead back to the root, and those
behind it never leave `d` and lead to `below`, innermost first. -/
def Enters (name d : List UInt8) (below : List (List UInt8)) : Prop :=
  ∃ pre post, moves name = pre ++ .enter d :: post ∧ walk [] pre = some [] ∧ walk [] post = some below

/-- The name begins with the bytes `files` exactly when it enters this folder for good and
ends below it, and is `image.png` exactly when it enters this file for good. -/
structure PlainlySpelled (name : List UInt8) : Prop where
  folder : filesFolder <+: name ↔ ∃ below, below ≠ [] ∧ Enters name filesFolder below
  image : name = imageFile ↔ Enters name imageFile []

theorem resolve_isSome_iff (name : List UInt8) : (resolve name).isSome ↔ Confined name := by
  unfold resolve Confined
  split
  · rename_i h
    simp [h]
  · rename_i h
    simp [h]

theorem walk_of_resolve {name : List UInt8} {file : List (List UInt8)} (h : resolve name = some file) :
    walk [] (moves name) = some file.reverse := by
  unfold resolve at h
  split at h
  · cases h
  · obtain ⟨stack, hwalk, rfl⟩ := Option.map_eq_some_iff.mp h
    rw [hwalk, List.reverse_reverse]

theorem inFolder_iff {name : List UInt8} {file : List (List UInt8)} (h : resolve name = some file) :
    InFolder file ↔ ∃ below, below ≠ [] ∧ Enters name filesFolder below := by
  have hwalk := walk_of_resolve h
  constructor
  · rintro ⟨below, hne, rfl⟩
    rw [List.reverse_cons] at hwalk
    exact ⟨below.reverse, by simpa using hne, walk_eq_concat_iff.mp hwalk⟩
  · rintro ⟨below, hne, henters⟩
    have hrev := Option.some.inj (hwalk.symm.trans (walk_eq_concat_iff.mpr henters))
    refine ⟨below.reverse, by simpa using hne, ?_⟩
    rw [← List.reverse_reverse file, hrev, List.reverse_append]
    rfl

theorem image_iff {name : List UInt8} {file : List (List UInt8)} (h : resolve name = some file) :
    file = [imageFile] ↔ Enters name imageFile [] := by
  have hwalk := walk_of_resolve h
  constructor
  · rintro rfl
    exact walk_eq_concat_iff.mp hwalk
  · intro henters
    have hrev := Option.some.inj (hwalk.symm.trans (walk_eq_concat_iff.mpr henters))
    rw [← List.reverse_reverse file, hrev]
    rfl

theorem headLines_file (name : List UInt8) (fileSize : ℤ) :
    headLines (resptostr (fileResponse name fileSize)) = ascii "HTTP/1.1 200 OK" ::
      headerLine ⟨ascii "Content-Length", decimalInt fileSize⟩ ::
        ((if name = imageFile then [headerLine contentType] else []) ++
          (if filesFolder <+: name then [headerLine contentDisposition] else []) ++ [[], []]) := by
  have hline : ∀ c ∈ ascii "HTTP/1.1 200 OK", Plain c := by decide +kernel
  rw [resptostr_eq_headBytes (full_fileResponse name fileSize), statusLine_fileResponse,
    headLines_headBytes hline (fileResponse_lines_ok name fileSize), headers_fileResponse]
  unfold imageFile
  split <;> split <;> rfl

theorem headerLine_ne {h h' : HttpHeader (List UInt8)} (hk : colon ∉ h.key) (hk' : colon ∉ h'.key)
    (hne : h.key ≠ h'.key) : headerLine h ≠ headerLine h' := by
  intro heq
  have hname := congrArg nameBytes heq
  rw [headerLine, headerLine, nameBytes_append hk, nameBytes_append hk'] at hname
  exact hne hname

/-- A line that no other part of the head of a file response equals. -/
structure OwnLine (l : List UInt8) : Prop where
  status : l ≠ ascii "HTTP/1.1 200 OK"
  length : ∀ fileSize, l ≠ headerLine ⟨ascii "Content-Length", decimalInt fileSize⟩
  empty : l ≠ []

theorem ownLine_headerLine {h : HttpHeader (List UInt8)} (hkey : colon ∉ h.key) (hne : h.key ≠ ascii "Content-Length")
    (hstatus : headerLine h ≠ ascii "HTTP/1.1 200 OK") : OwnLine (headerLine h) := by
  have hcolon : colon ∉ ascii "Content-Length" := by decide +kernel
  exact ⟨hstatus, fun fileSize => headerLine_ne hkey hcolon hne, by simp [headerLine]⟩

theorem type_mem_iff (name : List UInt8) (fileSize : ℤ) :
    headerLine contentType ∈ headLines (resptostr (fileResponse name fileSize)) ↔ name = imageFile := by
  have hown : OwnLine (headerLine contentType) :=
    ownLine_headerLine (by decide +kernel) (by decide +kernel) (by decide +kernel)
  have hother : headerLine contentType ≠ headerLine contentDisposition := by decide +kernel
  rw [headLines_file]
  split <;> split <;> simp_all [hown.status, hown.length, hown.empty]

theorem disposition_mem_iff (name : List UInt8) (fileSize : ℤ) :
    headerLine contentDisposition ∈ headLines (resptostr (fileResponse name fileSize)) ↔ filesFolder <+: name := by
  have hown : OwnLine (headerLine contentDisposition) :=
    ownLine_headerLine (by decide +kernel) (by decide +kernel) (by decide +kernel)
  have hother : headerLine contentDisposition ≠ headerLine contentType := by decide +kernel
  rw [headLines_file]
  split <;> split <;> simp_all [hown.status, hown.length, hown.empty]

/-- Two names get the same head for files of one size exactly when both tests agree on them. -/
theorem fileResponse_eq_iff (name name' : List UInt8) (fileSize : ℤ) :
    resptostr (fileResponse name fileSize) = resptostr (fileResponse name' fileSize) ↔
      (filesFolder <+: name ↔ filesFolder <+: name') ∧ (name = imageFile ↔ name' = imageFile) := by
  constructor
  · intro h
    rw [← disposition_mem_iff name fileSize, ← type_mem_iff name fileSize, h, disposition_mem_iff, type_mem_iff]
    exact ⟨Iff.rfl, Iff.rfl⟩
  · rintro ⟨hfolder, himage⟩
    unfold imageFile at himage
    rw [resptostr_eq_headBytes (full_fileResponse _ _), resptostr_eq_headBytes (full_fileResponse _ _),
      statusLine_fileResponse, statusLine_fileResponse, headers_fileResponse, headers_fileResponse]
    simp only [hfolder, himage]

theorem sentResponse_mem_iff {fopen : Fopen} {openFiles : ℕ} {req : HttpRequest} {path : List UInt8} {opened : Opened}
    (hpath : req.path = some path) (hopen : fopen openFiles (fname path) = some opened) (head : List UInt8) :
    Event.sentResponse head ∈ (serveFile fopen openFiles req).events ↔
      head = resptostr (fileResponse (fname path) opened.size) := by
  have hname : fname (req.path.getD []) = fname path := by rw [hpath, Option.getD_some]
  rw [serveFile_some (by rw [hname]; exact hopen), hname]
  simp

/-- For every request whose name leads to a file that is opened: the two headers follow the
file exactly when the name is plainly spelled. Two such requests for one file get the same
head exactly when the two comparisons of their names come out the same. -/
theorem header_choice_iff {fopen : Fopen} {openFiles : ℕ} {req : HttpRequest} {path : List UInt8}
    {file : List (List UInt8)} {opened : Opened} (hpath : req.path = some path)
    (hfile : resolve (fname path) = some file) (hopen : fopen openFiles (fname path) = some opened) :
    ((∀ head, Event.sentResponse head ∈ (serveFile fopen openFiles req).events → FollowsFile head file) ↔
        PlainlySpelled (fname path)) ∧
      ∀ (fopen' : Fopen) (openFiles' : ℕ) (req' : HttpRequest) (path' : List UInt8) (opened' : Opened),
        req'.path = some path' → resolve (fname path') = some file →
        fopen' openFiles' (fname path') = some opened' → opened'.size = opened.size →
        ((∀ head, Event.sentResponse head ∈ (serveFile fopen openFiles req).events ↔
            Event.sentResponse head ∈ (serveFile fopen' openFiles' req').events) ↔
          (filesFolder <+: fname path ↔ filesFolder <+: fname path') ∧
            (fname path = imageFile ↔ fname path' = imageFile)) := by
  have hhead := sentResponse_mem_iff hpath hopen
  constructor
  · simp only [hhead, forall_eq]
    constructor
    · rintro ⟨hdisposition, htype⟩
      rw [disposition_mem_iff, inFolder_iff hfile] at hdisposition
      rw [type_mem_iff, image_iff hfile] at htype
      exact ⟨hdisposition, htype⟩
    · rintro ⟨hfolder, himage⟩
      constructor
      · rw [disposition_mem_iff, inFolder_iff hfile]
        exact hfolder
      · rw [type_mem_iff, image_iff hfile]
        exact himage
  · intro fopen' openFiles' req' path' opened' hpath' _ hopen' hsize
    have hhead' := sentResponse_mem_iff hpath' hopen'
    rw [hsize] at hhead'
    simp only [hhead, hhead', ← fileResponse_eq_iff (fname path) (fname path') opened.size]
    constructor
    · exact fun h => (h _).mp rfl
    · intro h head
      rw [h]

/-- A file system on which every name is an empty file. -/
def emptyFiles : Fopen := fun _ _ => some ⟨0, [⟨[], true, Nat.zero_le _⟩]⟩

def getRequest (path : List UInt8) : HttpRequest :=
  { HttpRequest.zero with method := some (ascii "GET"), path := some path, version := some (ascii "HTTP/1.1") }

@[simp] theorem getRequest_path (path : List UInt8) : (getRequest path).path = some path := rfl

theorem header_choice_image :
    (∀ head, Event.sentResponse head ∈ (serveFile emptyFiles 0 (getRequest (ascii "/image.png"))).events →
        FollowsFile head [imageFile]) ↔ PlainlySpelled (fname (ascii "/image.png")) :=
  (header_choice_iff (getRequest_path (ascii "/image.png")) (by decide +kernel) rfl).1

/-- A file beside the folder is sent as an attachment, and one inside it is not. -/
theorem header_choice_wrong :
    (resolve (fname (ascii "/files.txt")) = some [ascii "files.txt"] ∧
        ¬ ∀ head, Event.sentResponse head ∈ (serveFile emptyFiles 0 (getRequest (ascii "/files.txt"))).events →
          FollowsFile head [ascii "files.txt"]) ∧
      resolve (fname (ascii "/./files/a")) = some [filesFolder, ascii "a"] ∧
        ¬ ∀ head, Event.sentResponse head ∈ (serveFile emptyFiles 0 (getRequest (ascii "/./files/a"))).events →
          FollowsFile head [filesFolder, ascii "a"] := by
  have hbeside : filesFolder <+: fname (ascii "/files.txt") := by decide +kernel
  have hinside : ¬ filesFolder <+: fname (ascii "/./files/a") := by decide +kernel
  have hname : filesFolder ≠ ascii "files.txt" := by decide +kernel
  refine ⟨⟨by decide +kernel, fun h => ?_⟩, by decide +kernel, fun h => ?_⟩
  · have hfollows := h _ ((sentResponse_mem_iff (getRequest_path (ascii "/files.txt")) rfl _).mpr rfl)
    obtain ⟨below, -, heq⟩ := hfollows.disposition.mp ((disposition_mem_iff _ _).mpr hbeside)
    exact hname (List.cons.inj heq).1.symm
  · have hfollows := h _ ((sentResponse_mem_iff (getRequest_path (ascii "/./files/a")) rfl _).mpr rfl)
    exact hinside ((disposition_mem_iff _ _).mp (hfollows.disposition.mpr ⟨[ascii "a"], by simp, rfl⟩))

end CeeServe.Static
