import CeeServe.Http.Encode

/-! # get_header on parsed requests

The parser stores no terminator behind a key or a value, so what `strcmp` sees in a
buffer depends on what the allocator left there. `Heap` is that content. A lookup
is right when it finds the first line that carries the name and the value of that
line; which heaps make all lookups right is determined line by line.
-/
namespace CeeServe.Lookup
open CString Store HeaderScan RequestLine Parse

/-- What the memory of the key and value buffer of each entry held before. -/
abbrev Heap := ℕ → Field → ℕ → UInt8

def bufferBytes (heap : Heap) (i : ℕ) (field : Field) (h : RawHeader) : List UInt8 :=
  contents bufferSize (fieldOf h field) (heap i field)

def getHeaderLoop (heap : Heap) (key : List UInt8) : List RawHeader → ℕ → Option (Option ℕ)
  | [], _ => some none
  | h :: hs, i =>
    match strcmpEq (bufferBytes heap i .key h) key with
    | none => none
    | some true => some (some i)
    | some false => getHeaderLoop heap key hs (i + 1)

/-- `get_header`: the index of the header returned, or NULL; undefined when a
comparison leaves its buffer. -/
def getHeader (heap : Heap) (request : HttpRequest) (key : List UInt8) : Option (Option ℕ) :=
  getHeaderLoop heap key (request.headers.take request.headerCount.toNat) 0

/-- The line has a colon, and the name stands before the first one. -/
def Carries (name l : List UInt8) : Prop := colon ∈ stripCR l ∧ nameBytes (stripCR l) = name

instance (name l : List UInt8) : Decidable (Carries name l) :=
  inferInstanceAs (Decidable (_ ∧ _))

def firstCarrier (ls : List (List UInt8)) (name : List UInt8) : Option ℕ :=
  ls.findIdx? (fun l => decide (Carries name l))

/-- The lookup of a name in the parsed request returns the first header whose line
carries it, with the value of that line as its C string, and NULL when there is none. -/
structure LookupRight (heap : Heap) (request : List UInt8) (req : HttpRequest) (name : List UInt8) : Prop where
  found : getHeader heap (parseHeaders request req).2 name = some (firstCarrier (headerLines request) name)
  value : ∀ j l h, firstCarrier (headerLines request) name = some j → (headerLines request)[j]? = some l →
    (parseHeaders request req).2.headers[j]? = some h →
    cstr? (bufferBytes heap j .value h) = some (valueBytes (stripCR l))

theorem mem_stripCR {l : List UInt8} {c : UInt8} (h : c ∈ stripCR l) : c ∈ l := by
  unfold stripCR at h
  split at h
  · exact List.dropLast_subset l h
  · exact h

theorem getHeader_parsed {request : List UInt8} {req : HttpRequest} (h : (parseHeaders request req).1 = 0)
    (heap : Heap) (name : List UInt8) :
    (parseHeaders request req).2.headers = (headerLines request).map lineHeader ∧
      getHeader heap (parseHeaders request req).2 name =
        getHeaderLoop heap name ((headerLines request).map lineHeader) 0 := by
  rcases parseHeaders_cases request req with ⟨m, p, v, -, -, heq⟩ | ⟨hret, -⟩
  · rw [heq]
    refine ⟨rfl, ?_⟩
    simp only [getHeader, parsedRequest, Int.toNat_natCast]
    rw [List.take_of_length_le (by simp)]
  · rw [hret] at h
    exact absurd h (by decide)

/-- Memory that completes the bytes the parser stores for `v` to the C string `v`: a
CR in `v` stood there before, and so did the terminator behind it. -/
structure Completes (init : ℕ → UInt8) (v : List UInt8) : Prop where
  fits : v.length < bufferSize
  gaps : ∀ k, v[k]? = some cr → init k = cr
  behind : init v.length = nul

/-- The line has a colon and a name that no earlier line carries. -/
def Introduces (earlier : List (List UInt8)) (l : List UInt8) : Prop :=
  colon ∈ stripCR l ∧ ∀ m ∈ earlier, ¬ Carries (nameBytes (stripCR l)) m

/-- What memory has to hold for one line: it completes a name introduced there and its
value, and lets any other line read as a name introduced before. -/
structure LineRight (heap : Heap) (earlier : List (List UInt8)) (j : ℕ) (l : List UInt8) : Prop where
  introduced : Introduces earlier l →
    Completes (heap j .key) (nameBytes (stripCR l)) ∧ Completes (heap j .value) (valueBytes (stripCR l))
  hidden : ¬ Introduces earlier l → ∃ name, cstr? (bufferBytes heap j .key (lineHeader l)) = some name ∧
    ∃ m ∈ earlier, Carries name m

def MemoryRight (heap : Heap) (ls : List (List UInt8)) : Prop :=
  ∀ j l, ls[j]? = some l → LineRight heap (ls.take j) j l

theorem completes_iff {init : ℕ → UInt8} (v : List UInt8) :
    Completes init v ↔ ∃ r, contents bufferSize (ofCells (v.map cell)) init = v ++ nul :: r := by
  have hcell : ∀ k < bufferSize, (contents bufferSize (ofCells (v.map cell)) init)[k]? =
      some ((v[k]?.bind cell).getD (init k)) := by
    intro k hk
    rw [getElem?_contents hk, ofCells, List.getElem?_map]
    cases v[k]? <;> rfl
  constructor
  · intro h
    refine ⟨(contents bufferSize (ofCells (v.map cell)) init).drop (v.length + 1), ?_⟩
    apply List.ext_getElem?
    intro k
    rcases Nat.lt_trichotomy k v.length with hk | rfl | hk
    · rw [List.getElem?_append_left hk, hcell k (hk.trans h.fits), List.getElem?_eq_getElem hk]
      by_cases hcr : v[k] = cr
      · have hgap := h.gaps k (by rw [List.getElem?_eq_getElem hk, hcr])
        simp [cell, hcr, hgap]
      · simp [cell, hcr]
    · rw [hcell _ h.fits]
      simp [h.behind]
    · obtain ⟨d, rfl⟩ : ∃ d, k = v.length + 1 + d := ⟨k - v.length - 1, by omega⟩
      rw [List.getElem?_append_right (by omega), show v.length + 1 + d - v.length = d + 1 by omega,
        List.getElem?_cons_succ, List.getElem?_drop]
  · rintro ⟨r, hr⟩
    have hlen := congrArg List.length hr
    rw [length_contents, List.length_append, List.length_cons] at hlen
    have hfits : v.length < bufferSize := by omega
    refine ⟨hfits, fun k hk => ?_, ?_⟩
    · have hlt : k < v.length := (List.getElem?_eq_some_iff.mp hk).1
      have hc := hcell k (hlt.trans hfits)
      rw [hr, List.getElem?_append_left hlt, hk] at hc
      simpa [cell] using hc.symm
    · have hc := hcell v.length hfits
      rw [hr] at hc
      simpa using hc.symm

theorem lineHeader_stripCR (l : List UInt8) : lineHeader (stripCR l) = lineHeader l := by
  unfold stripCR
  split
  · rename_i h
    have hl := List.dropLast_append_getLast? cr h
    conv_rhs => rw [← hl]
    exact (lineHeader_append_cr _).symm
  · rfl

theorem key_completes_iff {heap : Heap} {j : ℕ} {l : List UInt8} :
    Completes (heap j .key) (nameBytes (stripCR l)) ↔
      ∃ r, bufferBytes heap j .key (lineHeader l) = nameBytes (stripCR l) ++ nul :: r := by
  rw [completes_iff, ← lineHeader_stripCR]
  rfl

theorem value_completes_iff {heap : Heap} {j : ℕ} {l : List UInt8} :
    Completes (heap j .value) (valueBytes (stripCR l)) ↔
      ∃ r, bufferBytes heap j .value (lineHeader l) = valueBytes (stripCR l) ++ nul :: r := by
  rw [completes_iff, ← lineHeader_stripCR]
  rfl

theorem getHeaderLoop_found {heap : Heap} {key : List UInt8} {hs : List RawHeader} {i k : ℕ}
    (h : getHeaderLoop heap key hs i = some (some k)) :
    ∃ j e, k = i + j ∧ hs[j]? = some e ∧ strcmpEq (bufferBytes heap k .key e) key = some true := by
  induction hs generalizing i with
  | nil => cases h
  | cons e hs ih =>
    rw [getHeaderLoop] at h
    cases hcmp : strcmpEq (bufferBytes heap i .key e) key with
    | none => simp [hcmp] at h
    | some b =>
      cases b with
      | true =>
        obtain rfl : i = k := by simpa [hcmp] using h
        exact ⟨0, e, rfl, rfl, hcmp⟩
      | false =>
        obtain ⟨j, e', hk, he', hcmp'⟩ := ih (i := i + 1) (by simpa [hcmp] using h)
        exact ⟨j + 1, e', by omega, he', hcmp'⟩

theorem getHeaderLoop_passed {heap : Heap} {key : List UInt8} {hs : List RawHeader} {i : ℕ} {r : Option ℕ}
    (h : getHeaderLoop heap key hs i = some r) {j : ℕ} {e : RawHeader} (he : hs[j]? = some e)
    (hr : ∀ k, r = some k → i + j < k) : strcmpEq (bufferBytes heap (i + j) .key e) key = some false := by
  induction hs generalizing i j with
  | nil => simp at he
  | cons e' hs ih =>
    rw [getHeaderLoop] at h
    cases hcmp : strcmpEq (bufferBytes heap i .key e') key with
    | none => simp [hcmp] at h
    | some b =>
      cases b with
      | true =>
        have hri : some i = r := by simpa [hcmp] using h
        have := hr i hri.symm
        omega
      | false =>
        cases j with
        | zero =>
          obtain rfl := Option.some.inj he
          exact hcmp
        | succ j =>
          have hnext := ih (i := i + 1) (by simpa [hcmp] using h) he (fun k hk => by have := hr k hk; omega)
          rwa [show i + 1 + j = i + (j + 1) by omega] at hnext

theorem firstCarrier_some {ls : List (List UInt8)} {name : List UInt8} {j : ℕ}
    (h : firstCarrier ls name = some j) :
    ∃ l, ls[j]? = some l ∧ Carries name l ∧ ∀ m ∈ ls.take j, ¬ Carries name m := by
  obtain ⟨hj, hcarry, hleast⟩ := List.findIdx?_eq_some_iff_getElem.mp h
  refine ⟨ls[j], List.getElem?_eq_getElem hj, by simpa using hcarry, fun m hm => ?_⟩
  obtain ⟨k, hk, rfl⟩ := List.mem_take_iff_getElem.mp hm
  have hlt : k < j := by omega
  simpa using hleast k hlt

theorem firstCarrier_of_introduces {ls : List (List UInt8)} {l : List UInt8} {j : ℕ} (hl : ls[j]? = some l)
    (h : Introduces (ls.take j) l) : firstCarrier ls (nameBytes (stripCR l)) = some j := by
  obtain ⟨hj, hlj⟩ := List.getElem?_eq_some_iff.mp hl
  refine List.findIdx?_eq_some_iff_getElem.mpr ⟨hj, ?_, fun k hk => ?_⟩
  · rw [hlj]
    simpa [Carries] using h.1
  · have hm : ls[k] ∈ ls.take j := List.mem_take_iff_getElem.mpr ⟨k, by omega, rfl⟩
    simpa using h.2 _ hm

theorem Carries.introduces {earlier : List (List UInt8)} {name l : List UInt8} (h : Carries name l)
    (hnew : ∀ m ∈ earlier, ¬ Carries name m) : Introduces earlier l :=
  ⟨h.1, fun m hm => h.2 ▸ hnew m hm⟩

/-- The induction is on the lines still to come; none before them carries the name. -/
theorem getHeaderLoop_right {heap : Heap} {name : List UInt8} (hname : nul ∉ name)
    (ls earlier : List (List UInt8)) (hls : ∀ l ∈ ls, nul ∉ l)
    (hright : ∀ j l, ls[j]? = some l → LineRight heap (earlier ++ ls.take j) (earlier.length + j) l)
    (hnew : ∀ m ∈ earlier, ¬ Carries name m) :
    getHeaderLoop heap name (ls.map lineHeader) earlier.length =
      some ((firstCarrier ls name).map (· + earlier.length)) := by
  induction ls generalizing earlier with
  | nil => rfl
  | cons l ls ih =>
    obtain ⟨hnul, hclean⟩ := List.forall_mem_cons.mp hls
    have hl : LineRight heap earlier earlier.length l := by simpa using hright 0 l rfl
    have hnext : ¬ Carries name l → getHeaderLoop heap name (ls.map lineHeader) (earlier.length + 1) =
        some (((firstCarrier ls name).map (· + 1)).map (· + earlier.length)) := by
      intro hno
      have hmem : ∀ m ∈ earlier ++ [l], ¬ Carries name m := by
        intro m hm
        rcases List.mem_append.mp hm with hm | hm
        · exact hnew m hm
        · exact List.mem_singleton.mp hm ▸ hno
      have hrest := ih (earlier ++ [l]) hclean (fun j m hm => by
        have := hright (j + 1) m hm
        simpa [Nat.add_comm, Nat.add_left_comm] using this) hmem
      rw [List.length_append, List.length_singleton] at hrest
      rw [hrest, Option.map_map]
      congr 2
      funext k
      simp only [Function.comp_apply]
      omega
    rw [List.map_cons, getHeaderLoop, firstCarrier, List.findIdx?_cons]
    by_cases hint : Introduces earlier l
    · obtain ⟨r, hr⟩ := key_completes_iff.mp (hl.introduced hint).1
      have hnk : nul ∉ nameBytes (stripCR l) := fun h => hnul (mem_stripCR ((List.takeWhile_sublist _).subset h))
      rw [hr, strcmpEq_terminated hnk hname]
      by_cases heq : nameBytes (stripCR l) = name
      · simp [heq, Carries, hint.1]
      · have hno : ¬ Carries name l := fun h => heq h.2
        simp only [heq, decide_false, hnext hno, hno, Bool.false_eq_true, if_false, firstCarrier]
    · obtain ⟨w, hw, m, hm, hcarry⟩ := hl.hidden hint
      obtain ⟨hwnul, r, hr⟩ := cstr?_eq_some hw
      have hne : w ≠ name := fun h => hnew m hm (h ▸ hcarry)
      have hno : ¬ Carries name l := fun h => hint (h.introduces hnew)
      rw [hr, strcmpEq_terminated hwnul hname]
      simp only [hne, decide_false, hnext hno, hno, Bool.false_eq_true, if_false, firstCarrier]

theorem lookup_right {heap : Heap} {request : List UInt8} {req : HttpRequest}
    (hok : (parseHeaders request req).1 = 0) (hmem : MemoryRight heap (headerLines request))
    {name : List UInt8} (hname : nul ∉ name) : LookupRight heap request req name := by
  obtain ⟨hheaders, hget⟩ := getHeader_parsed hok heap name
  constructor
  · have hloop := getHeaderLoop_right hname (headerLines request) [] (fun l hl => (headerLines_clean hl).1)
      (fun j l hl => by simpa using hmem j l hl) (by simp)
    rw [hget]
    simpa using hloop
  · intro j l h hfirst hl hh
    obtain ⟨l', hl', hcarry, hnew⟩ := firstCarrier_some hfirst
    obtain rfl : l = l' := Option.some.inj (hl.symm.trans hl')
    rw [hheaders, List.getElem?_map, hl] at hh
    obtain rfl := Option.some.inj hh
    obtain ⟨r, hr⟩ := value_completes_iff.mp ((hmem j l hl).introduced (hcarry.introduces hnew)).2
    have hnv : nul ∉ valueBytes (stripCR l) := fun hn =>
      (headerLines_clean (List.mem_of_getElem? hl)).1 (mem_stripCR ((valueBytes_sublist _).subset hn))
    rw [hr, cstr?_append_nul hnv]

section
variable {heap : Heap} {request : List UInt8} {req : HttpRequest} (hok : (parseHeaders request req).1 = 0)
  (hright : ∀ name, nul ∉ name → LookupRight heap request req name) {j : ℕ} {l : List UInt8}
  (hl : (headerLines request)[j]? = some l)
include hok hright hl

theorem completes_of_lookups (hint : Introduces ((headerLines request).take j) l) :
    Completes (heap j .key) (nameBytes (stripCR l)) ∧ Completes (heap j .value) (valueBytes (stripCR l)) := by
  obtain ⟨hheaders, hget⟩ := getHeader_parsed hok heap (nameBytes (stripCR l))
  have hname : nul ∉ nameBytes (stripCR l) := fun h =>
    (headerLines_clean (List.mem_of_getElem? hl)).1 (mem_stripCR ((List.takeWhile_sublist _).subset h))
  have hfirst := firstCarrier_of_introduces hl hint
  have hlookup := hright _ hname
  have hloop := hlookup.found
  rw [hget, hfirst] at hloop
  obtain ⟨j', e, hj, he, hcmp⟩ := getHeaderLoop_found hloop
  obtain rfl : j = j' := by omega
  rw [List.getElem?_map, hl] at he
  obtain rfl := Option.some.inj he
  have hheader : (parseHeaders request req).2.headers[j]? = some (lineHeader l) := by
    rw [hheaders, List.getElem?_map, hl]
    rfl
  exact ⟨key_completes_iff.mpr (strcmpEq_true hcmp),
    value_completes_iff.mpr (cstr?_eq_some (hlookup.value j l _ hfirst hl hheader)).2⟩

/-- The string an entry starts with is looked up: it can only be found before. -/
theorem hidden_of_lookups (hint : ¬ Introduces ((headerLines request).take j) l) :
    ∃ name, cstr? (bufferBytes heap j .key (lineHeader l)) = some name ∧
      ∃ m ∈ (headerLines request).take j, Carries name m := by
  generalize hbytes : bufferBytes heap j .key (lineHeader l) = bytes
  have hloop := (hright _ (nul_not_mem_cstr bytes)).found
  rw [(getHeader_parsed hok heap _).2] at hloop
  have hentry : ((headerLines request).map lineHeader)[j]? = some (lineHeader l) := by
    rw [List.getElem?_map, hl]
    rfl
  have hbefore : ∃ k < j, firstCarrier (headerLines request) (cstr bytes) = some k := by
    by_contra hno
    have hcmp := getHeaderLoop_passed hloop hentry fun k hk => by
      obtain ⟨m, hm, hcarry, hnew⟩ := firstCarrier_some hk
      rcases Nat.lt_trichotomy k j with h | rfl | h
      · exact absurd ⟨k, h, hk⟩ hno
      · obtain rfl : l = m := Option.some.inj (hl.symm.trans hm)
        exact absurd (hcarry.introduces hnew) hint
      · omega
    rw [Nat.zero_add, hbytes] at hcmp
    exact strcmpEq_self bytes hcmp
  obtain ⟨k, hkj, hk⟩ := hbefore
  obtain ⟨m, hm, hcarry, hnew⟩ := firstCarrier_some hk
  have hshort := (completes_of_lookups hok hright hm (hcarry.introduces hnew)).1.fits
  rw [hcarry.2] at hshort
  have hterm : nul ∈ bytes := by
    by_contra hno
    rw [cstr_of_not_mem hno, ← hbytes, bufferBytes, length_contents] at hshort
    exact lt_irrefl _ hshort
  refine ⟨cstr bytes, by rw [cstr?, if_pos hterm], m, ?_, hcarry⟩
  obtain ⟨hlt, rfl⟩ := List.getElem?_eq_some_iff.mp hm
  exact List.mem_take_iff_getElem.mpr ⟨k, by omega, rfl⟩

end

/-- For one content of fresh memory: lookups are right for every name exactly when this
memory happens to complete the lines. -/
theorem lookups_right_iff {request : List UInt8} {req : HttpRequest} (hok : (parseHeaders request req).1 = 0)
    (heap : Heap) :
    (∀ name, nul ∉ name → LookupRight heap request req name) ↔ MemoryRight heap (headerLines request) := by
  constructor
  · exact fun hright j l hl => ⟨completes_of_lookups hok hright hl, hidden_of_lookups hok hright hl⟩
  · exact fun hmem name hname => lookup_right hok hmem hname

/-- Memory without a NUL completes nothing. -/
theorem memoryRight_ones_iff (ls : List (List UInt8)) : MemoryRight (fun _ _ _ => 1) ls ↔ ls = [] := by
  constructor
  · intro h
    cases ls with
    | nil => rfl
    | cons l ls =>
      obtain ⟨hintroduced, hhidden⟩ := h 0 l rfl
      by_cases hint : Introduces ((l :: ls).take 0) l
      · exact absurd (hintroduced hint).1.behind (by decide)
      · obtain ⟨name, -, m, hm, -⟩ := hhidden hint
        simp at hm
  · rintro rfl j l hl
    simp at hl

/-- Lookups in a parsed request are right for every name exactly in memory that
completes its lines, and right whatever memory held only when there is no line. -/
theorem getHeader_right_iff (request : List UInt8) (req : HttpRequest)
    (hok : (parseHeaders request req).1 = 0) :
    (∀ heap : Heap, (∀ name, nul ∉ name → LookupRight heap request req name) ↔
        MemoryRight heap (headerLines request)) ∧
      ((∀ (heap : Heap) (name : List UInt8), nul ∉ name → LookupRight heap request req name) ↔
        headerLines request = []) := by
  refine ⟨lookups_right_iff hok, fun h => ?_, fun hlines heap name hname => ?_⟩
  · exact (memoryRight_ones_iff _).mp ((lookups_right_iff hok _).mp (h _))
  · refine lookup_right hok ?_ hname
    rw [hlines]
    intro j l hl
    simp at hl

def hostRequest : List UInt8 := ascii "GET / H\r\nHost: a\r\n\r\n"

theorem getHeader_right_host :
    (∀ heap : Heap, (∀ name, nul ∉ name → LookupRight heap hostRequest HttpRequest.zero name) ↔
        MemoryRight heap (headerLines hostRequest)) ∧
      ((∀ (heap : Heap) (name : List UInt8), nul ∉ name → LookupRight heap hostRequest HttpRequest.zero name) ↔
        headerLines hostRequest = []) :=
  getHeader_right_iff hostRequest HttpRequest.zero (by decide +kernel)

/-- In memory that is 1 everywhere, `Host` is not found in `hostRequest`. -/
theorem hostRequest_lookup_wrong :
    (parseHeaders hostRequest HttpRequest.zero).1 = 0 ∧ StoresDefined none (scan hostRequest).2 ∧
      ¬ ∀ (heap : Heap) (name : List UInt8), nul ∉ name → LookupRight heap hostRequest HttpRequest.zero name := by
  have hfits : Fits hostRequest := by decide +kernel
  rw [storesDefined_scan_iff]
  refine ⟨by decide +kernel, hfits, fun h => ?_⟩
  have hfound := (h (fun _ _ _ => 1) (ascii "Host") (by decide +kernel)).found
  have hmiss : getHeader (fun _ _ _ => 1) (parseHeaders hostRequest HttpRequest.zero).2 (ascii "Host") =
      some none := by decide +kernel
  have hcarrier : firstCarrier (headerLines hostRequest) (ascii "Host") = some 0 := by decide +kernel
  rw [hmiss, hcarrier] at hfound
  cases hfound

/-- A line whose entry has no gap and leaves room for a terminator. -/
structure CleanLine (l : List UInt8) : Prop where
  colon_mem : colon ∈ stripCR l
  no_cr : cr ∉ stripCR l
  no_nul : nul ∉ stripCR l
  name_lt : (nameBytes (stripCR l)).length < bufferSize
  value_lt : (valueBytes (stripCR l)).length < bufferSize

theorem completes_zeros {v : List UInt8} (hcr : cr ∉ v) (hlt : v.length < bufferSize) :
    Completes (fun _ => nul) v :=
  ⟨hlt, fun _ hk => absurd (List.mem_of_getElem? hk) hcr, rfl⟩

/-- Buffers from `calloc` would make every lookup right. -/
theorem memoryRight_zeros {ls : List (List UInt8)} (hls : ∀ l ∈ ls, CleanLine l) :
    MemoryRight (fun _ _ _ => nul) ls := by
  intro j l hl
  have hclean := hls l (List.mem_of_getElem? hl)
  have hkey : Completes (fun _ => nul) (nameBytes (stripCR l)) :=
    completes_zeros (fun h => hclean.no_cr ((List.takeWhile_sublist _).subset h)) hclean.name_lt
  have hvalue : Completes (fun _ => nul) (valueBytes (stripCR l)) :=
    completes_zeros (fun h => hclean.no_cr ((valueBytes_sublist _).subset h)) hclean.value_lt
  refine ⟨fun _ => ⟨hkey, hvalue⟩, fun hint => ?_⟩
  obtain ⟨r, hr⟩ : ∃ r, bufferBytes (fun _ _ _ => nul) j .key (lineHeader l) = nameBytes (stripCR l) ++ nul :: r :=
    key_completes_iff.mp hkey
  have hnul : nul ∉ nameBytes (stripCR l) := fun h => hclean.no_nul ((List.takeWhile_sublist _).subset h)
  refine ⟨nameBytes (stripCR l), by rw [hr, cstr?_append_nul hnul], ?_⟩
  by_contra hno
  exact hint ⟨hclean.colon_mem, fun m hm hcarry => hno ⟨m, hm, hcarry⟩⟩

end CeeServe.Lookup
