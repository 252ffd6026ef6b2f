import CeeServe.Http.Lookup

/-! # Header lines in zeroed buffers

In a buffer that was zero before, every cell the parser passed over is a terminator,
so each key and value has a C string. It is the part of the line it was taken from
unless that part holds a CR, where the string ends, or fills its buffer.
-/
namespace CeeServe.LineSplit
open CString Store HeaderScan RequestLine Parse Lookup

/-- The string in one of the buffers of an entry, all other cells being zero. -/
def readField (h : RawHeader) (field : Field) : Option (List UInt8) :=
  cstr? (contents bufferSize (fieldOf h field) (fun _ => nul))

def readEntry (h : RawHeader) : Option (HttpHeader (List UInt8)) := do
  let key ← readField h .key
  let value ← readField h .value
  return ⟨key, value⟩

/-- A line up to its end, cut at its first colon; one space behind it is dropped. -/
def splitLine (l : List UInt8) : HttpHeader (List UInt8) :=
  ⟨nameBytes (stripCR l), valueBytes (stripCR l)⟩

/-- There is one entry for each line, and it reads as the split of this line. -/
structure LinesKept (request : List UInt8) (req : HttpRequest) : Prop where
  count : (parseHeadersOnly request req).2.headerCount = (headerLines request).length
  entries : (parseHeadersOnly request req).2.headers.map readEntry =
    (headerLines request).map (fun l => some (splitLine l))

/-- A line whose parts are stored without a gap and leave room for a terminator. -/
structure Unbroken (l : List UInt8) : Prop where
  no_cr : cr ∉ stripCR l
  name_ne : (nameBytes (stripCR l)).length ≠ bufferSize
  value_ne : (valueBytes (stripCR l)).length ≠ bufferSize

theorem cstr?_zeroed_iff {v : List UInt8} (hn : nul ∉ v) :
    cstr? (contents bufferSize (ofCells (v.map cell)) (fun _ => nul)) = some v ↔ cr ∉ v ∧ v.length < bufferSize := by
  constructor
  · intro h
    have hcomplete := (completes_iff v).mpr (cstr?_eq_some h).2
    refine ⟨fun hcr => ?_, hcomplete.fits⟩
    obtain ⟨k, hk⟩ := List.mem_iff_getElem?.mp hcr
    exact absurd (hcomplete.gaps k hk) (by decide)
  · rintro ⟨hcr, hlt⟩
    obtain ⟨r, hr⟩ := (completes_iff v).mp (completes_zeros hcr hlt)
    rw [hr, cstr?_append_nul hn]

theorem length_le_of_drop {v : List UInt8} {n : ℕ} (h : ∀ c ∈ v.drop n, c = cr) (hcr : cr ∉ v) : v.length ≤ n := by
  by_contra hlt
  have hmem := List.getElem_mem (l := v.drop n) (n := 0) (by rw [List.length_drop]; omega)
  exact hcr (h _ hmem ▸ List.mem_of_mem_drop hmem)

theorem mem_drop_append {v w : List UInt8} {n : ℕ} {c : UInt8} (h : c ∈ v.drop n) : c ∈ (v ++ w).drop n := by
  rw [List.drop_append]
  exact List.mem_append_left _ h

theorem cr_mem_iff (l : List UInt8) : cr ∈ l ↔ cr ∈ nameBytes l ∨ cr ∈ valueBytes l := by
  constructor
  · intro h
    rcases name_split l with ⟨hn, -, -⟩ | ⟨r, hlr, hv⟩
    · exact Or.inl (hn.symm ▸ h)
    · rw [hlr] at h
      rcases List.mem_append.mp h with h | h
      · exact Or.inl h
      · right
        have hr : cr ∈ r := (List.mem_cons.mp h).resolve_left (by decide)
        rw [hv]
        cases r with
        | nil => cases hr
        | cons c r =>
          by_cases hc : c = sp
          · subst hc
            simpa [dropSpace, show cr ≠ sp by decide] using hr
          · simpa [dropSpace, hc] using hr
  · rintro (h | h)
    · exact (List.takeWhile_sublist _).subset h
    · exact (valueBytes_sublist l).subset h

theorem readEntry_eq_some_iff (h : RawHeader) (n v : List UInt8) :
    readEntry h = some ⟨n, v⟩ ↔ readField h .key = some n ∧ readField h .value = some v := by
  unfold readEntry
  cases readField h .key <;> cases readField h .value <;> simp

theorem readEntry_iff {l : List UInt8} (hn : nul ∉ l) :
    readEntry (lineHeader l) = some (splitLine l) ↔
      cr ∉ stripCR l ∧ (nameBytes (stripCR l)).length < bufferSize ∧ (valueBytes (stripCR l)).length < bufferSize := by
  have hkey : readField (lineHeader (stripCR l)) .key = some (nameBytes (stripCR l)) ↔ _ :=
    cstr?_zeroed_iff (fun h => hn (mem_stripCR ((List.takeWhile_sublist _).subset h)))
  have hvalue : readField (lineHeader (stripCR l)) .value = some (valueBytes (stripCR l)) ↔ _ :=
    cstr?_zeroed_iff (fun h => hn (mem_stripCR ((valueBytes_sublist _).subset h)))
  rw [splitLine, readEntry_eq_some_iff, ← lineHeader_stripCR, hkey, hvalue, and_and_and_comm, ← not_or, ← cr_mem_iff]

/-- In a line that fits its buffers, a part without CR is no longer than its buffer. -/
theorem length_le_of_fits {l : List UInt8} (h : LineFits l) (hcr : cr ∉ stripCR l) :
    (nameBytes (stripCR l)).length ≤ bufferSize ∧ (valueBytes (stripCR l)).length ≤ bufferSize := by
  have hparts := not_or.mp (mt (cr_mem_iff (stripCR l)).mpr hcr)
  suffices hdrop : (∀ c ∈ (nameBytes (stripCR l)).drop bufferSize, c = cr) ∧
      ∀ c ∈ (valueBytes (stripCR l)).drop bufferSize, c = cr from
    ⟨length_le_of_drop hdrop.1 hparts.1, length_le_of_drop hdrop.2 hparts.2⟩
  unfold stripCR
  split
  · rename_i hlast
    have hl := List.dropLast_append_getLast? cr hlast
    generalize l.dropLast = m at hl ⊢
    subst hl
    obtain ⟨hname, hvalue⟩ := h
    rcases split_append_cr m with ⟨-, hn, hv, hn', -⟩ | ⟨-, hn', hv'⟩
    · rw [hn'] at hname
      rw [hn, hv]
      exact ⟨fun c hc => hname c (mem_drop_append hc), by simp⟩
    · rw [hn'] at hname
      rw [hv'] at hvalue
      exact ⟨hname, fun c hc => hvalue c (mem_drop_append hc)⟩
  · exact ⟨h.name, h.value⟩

theorem parseHeadersOnly_zero {request : List UInt8} {req : HttpRequest} (hok : (parseHeadersOnly request req).1 = 0) :
    (parseHeadersOnly request req).2.headerCount = (headerLines request).length ∧
      (parseHeadersOnly request req).2.headers = (headerLines request).map lineHeader := by
  rw [parseHeadersOnly_eq] at hok ⊢
  split at hok
  · rename_i hb
    rw [if_pos hb]
    exact ⟨rfl, rfl⟩
  · cases hok

theorem linesKept_iff_entries {request : List UInt8} {req : HttpRequest} (hok : (parseHeadersOnly request req).1 = 0) :
    LinesKept request req ↔ ∀ l ∈ headerLines request, readEntry (lineHeader l) = some (splitLine l) := by
  obtain ⟨hcount, hheaders⟩ := parseHeadersOnly_zero hok
  constructor
  · rintro ⟨-, hentries⟩
    rw [hheaders, List.map_map] at hentries
    exact List.map_inj_left.mp hentries
  · intro h
    refine ⟨hcount, ?_⟩
    rw [hheaders, List.map_map]
    exact List.map_congr_left h

/-- No byte of a header line is lost exactly when no CR stands inside a line and no name
or value fills its buffer. -/
theorem lines_kept_iff {request : List UInt8} {req : HttpRequest} (hok : (parseHeadersOnly request req).1 = 0)
    (hstores : StoresDefined none (scan request).2) :
    LinesKept request req ↔ ∀ l ∈ headerLines request, Unbroken l := by
  rw [linesKept_iff_entries hok]
  refine forall₂_congr fun l hl => ?_
  rw [readEntry_iff (headerLines_clean hl).1]
  constructor
  · rintro ⟨hcr, hname, hvalue⟩
    exact ⟨hcr, hname.ne, hvalue.ne⟩
  · rintro ⟨hcr, hname, hvalue⟩
    obtain ⟨hname', hvalue'⟩ := length_le_of_fits (((storesDefined_scan_iff request).mp hstores).lines l hl) hcr
    exact ⟨hcr, lt_of_le_of_ne hname' hname, lt_of_le_of_ne hvalue' hvalue⟩

theorem lines_kept_host :
    LinesKept hostRequest HttpRequest.zero ↔ ∀ l ∈ headerLines hostRequest, Unbroken l := by
  have hret : (parseHeadersOnly hostRequest HttpRequest.zero).1 = 0 := by decide +kernel
  have hfits : Fits hostRequest := by decide +kernel
  generalize hostRequest = request at *
  exact lines_kept_iff hret ((storesDefined_scan_iff request).mpr hfits)

/-- A CR inside a value. -/
def gapRequest : List UInt8 := ascii "GET / H\r\nk: a\rb\r\n\r\n"

/-- The value of `gapRequest` reads as `a`. -/
theorem gapRequest_cut :
    (parseHeadersOnly gapRequest HttpRequest.zero).1 = 0 ∧ StoresDefined none (scan gapRequest).2 ∧
      ¬ LinesKept gapRequest HttpRequest.zero := by
  have hret : (parseHeadersOnly gapRequest HttpRequest.zero).1 = 0 := by decide +kernel
  have hlines : headerLines gapRequest = [ascii "k: a\rb\r"] := by decide +kernel
  have hfits : Fits gapRequest := by decide +kernel
  have hwrong : ¬ readField (lineHeader (ascii "k: a\rb\r")) .value = some (splitLine (ascii "k: a\rb\r")).value := by
    decide +kernel
  rw [storesDefined_scan_iff, linesKept_iff_entries hret, hlines, List.forall_mem_singleton]
  refine ⟨hret, hfits, fun hentry => ?_⟩
  exact hwrong ((readEntry_eq_some_iff _ _ _).mp hentry).2

end CeeServe.LineSplit
