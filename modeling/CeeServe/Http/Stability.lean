import CeeServe.Http.Response

/-! # Parsing again what was parsed

Whatever string the parser accepts, what it stores can be written as a well-formed head:
the tokens are words, a key holds no colon, and neither key nor value holds a line end.
Written so and parsed again it comes back.
-/
namespace CeeServe.Response
open CString Store HeaderScan RequestLine Parse

/-- A request as a head, its keys and values being the bytes the parser wrote. -/
def encodeRequest (req : HttpRequest) : List UInt8 :=
  headBytes (cArg req.method ++ sp :: cArg req.path ++ sp :: cArg req.version)
    ((req.headers.map RawHeader.stored).map headerLine)

theorem cell_eq_some {d c : UInt8} (h : cell d = some c) : d = c ∧ c ≠ cr := by
  unfold cell at h
  split at h
  · cases h
  · rename_i hne
    obtain rfl := Option.some.inj h
    exact ⟨rfl, hne⟩

theorem mem_written_cells {n : ℕ} {v : List UInt8} {c : UInt8} (h : c ∈ written n (ofCells (v.map cell))) :
    c ∈ v ∧ c ≠ cr := by
  obtain ⟨d, hd, hcell⟩ := List.mem_map.mp (mem_written_ofCells h)
  obtain ⟨rfl, hne⟩ := cell_eq_some hcell
  exact ⟨hd, hne⟩

theorem headerClean_stored {l : List UInt8} (hl : nul ∉ l ∧ lf ∉ l) : HeaderClean (lineHeader l).stored := by
  have hplain : ∀ c ∈ l, c ≠ cr → Plain c := fun c hc hne =>
    ⟨hne, fun h => hl.2 (h ▸ hc), fun h => hl.1 (h ▸ hc)⟩
  constructor
  · intro c hc
    obtain ⟨hname, hne⟩ := mem_written_cells hc
    exact ⟨fun h => colon_not_mem_nameBytes l (h ▸ hname), hplain c ((List.takeWhile_sublist _).subset hname) hne⟩
  · intro c hc
    obtain ⟨hvalue, hne⟩ := mem_written_cells hc
    exact hplain c ((valueBytes_sublist l).subset hvalue) hne
  · exact length_written_le _ _
  · exact length_written_le _ _

/-- Tokens of a request are words that the format reads whole. -/
theorem tokens_whole {request m p v : List UInt8} (h : tokens request = [m, p, v]) :
    ∃ (m' : Token 49) (p' : Token 2047) (v' : Token 49), m'.bytes = m ∧ p'.bytes = p ∧ v'.bytes = v := by
  have hclean : ∀ t ∈ [m, p, v], t ≠ [] ∧ ∀ c ∈ t, isspace c = false ∧ c ≠ nul := by
    intro t ht
    rw [← h] at ht
    exact ⟨(mem_tokens ht).1, fun c hc => tokens_word ht hc⟩
  obtain ⟨hm, hp, hv⟩ := tokens_le h
  obtain ⟨hm', hp', hv'⟩ : _ ∧ _ ∧ _ := ⟨hclean m (by simp), hclean p (by simp), hclean v (by simp)⟩
  exact ⟨⟨m, hm'.1, hm'.2, hm⟩, ⟨p, hp'.1, hp'.2, hp⟩, ⟨v, hv'.1, hv'.2, hv⟩, rfl, rfl, rfl⟩

theorem parsed_of_zero {request : List UInt8} {req : HttpRequest} (h : (parseHeaders request req).1 = 0) :
    ∃ parsed : HttpRequest, parseHeaders request req = (0, parsed) :=
  ⟨_, Prod.ext h rfl⟩

/-- What the parser accepts it stores as three words and as keys and values that fit
their lines. Written as a head and parsed again it comes back, with all stores of the
scanner inside its buffers. -/
theorem parse_stable {request : List UInt8} {req parsed : HttpRequest}
    (hok : parseHeaders request req = (0, parsed)) (hstores : StoresDefined none (scan request).2)
    (req' : HttpRequest) :
    (∃ m p v, parsed.method = some m ∧ parsed.path = some p ∧ parsed.version = some v ∧
        ∀ t ∈ [m, p, v], ∀ c ∈ t, isspace c = false) ∧
      (∀ h ∈ parsed.headers.map RawHeader.stored,
        (∀ c ∈ h.key, c ≠ colon ∧ c ≠ cr ∧ c ≠ lf ∧ c ≠ nul) ∧ ∀ c ∈ h.value, c ≠ cr ∧ c ≠ lf ∧ c ≠ nul) ∧
      (parseHeaders (encodeRequest parsed) req').1 = 0 ∧
      (parseHeaders (encodeRequest parsed) req').2.method = parsed.method ∧
      (parseHeaders (encodeRequest parsed) req').2.path = parsed.path ∧
      (parseHeaders (encodeRequest parsed) req').2.version = parsed.version ∧
      (parseHeaders (encodeRequest parsed) req').2.headerCount = parsed.headerCount ∧
      (parseHeaders (encodeRequest parsed) req').2.headers.map RawHeader.stored =
        parsed.headers.map RawHeader.stored ∧
      StoresDefined none (scan (encodeRequest parsed)).2 := by
  rcases parseHeaders_cases request req with ⟨m, p, v, ht, -, h⟩ | ⟨hfail, -⟩
  swap
  · rw [hok] at hfail
    cases hfail
  obtain rfl : parsedRequest request m p v req = parsed := (Prod.mk.inj (h.symm.trans hok)).2
  obtain ⟨m', p', v', rfl, rfl, rfl⟩ := tokens_whole ht
  -- the headers of the request are those of its lines
  generalize hhs : (parsedRequest request m'.bytes p'.bytes v'.bytes req).headers.map RawHeader.stored = hs
  have hclean : ∀ h ∈ hs, HeaderClean h := by
    intro h hh
    rw [← hhs, parsedRequest, List.map_map] at hh
    obtain ⟨l, hl, rfl⟩ := List.mem_map.mp hh
    exact headerClean_stored (headerLines_clean hl)
  have hlen : hs.length = (headerLines request).length := by
    rw [← hhs, parsedRequest, List.length_map, List.length_map]
  have hencode : encodeRequest (parsedRequest request m'.bytes p'.bytes v'.bytes req) =
      headBytes (m'.bytes ++ sp :: p'.bytes ++ sp :: v'.bytes) (hs.map headerLine) := by
    rw [encodeRequest, hhs]
    rfl
  have hwrites := writes_headerLines hclean
  have hfitting : ∀ h ∈ hs, Fitting h := fun h hh => (hclean h hh).fitting
  have hagain := parseHeaders_head (requestLine_plain m' p' v') (words_requestLine m' p' v') m'.length_le
    p'.length_le v'.length_le (lines_ok hwrites) [] req'
  rw [List.append_nil] at hagain
  have hfits : Fits (headBytes (m'.bytes ++ sp :: p'.bytes ++ sp :: v'.bytes) (hs.map headerLine)) := by
    apply fits_lines (requestLine_plain m' p' v') hwrites hfitting
    rw [hlen]
    exact ((storesDefined_scan_iff request).mp hstores).count
  rw [hencode, hagain]
  refine ⟨⟨_, _, _, rfl, rfl, rfl, fun t ht' c hc => ?_⟩, fun h hh => ⟨(hclean h hh).key, (hclean h hh).value⟩, rfl, rfl,
    rfl, rfl, ?_, stored_lines hwrites hfitting, (storesDefined_scan_iff _).mpr hfits⟩
  · rw [← ht] at ht'
    exact (mem_tokens ht').2 c hc
  · rw [List.length_map, hlen]
    rfl

/-- A request line over two lines, a CR inside a value and a line without a colon. -/
def strayRequest : List UInt8 := ascii "GET /\r\nHTTP/1.1\r\na: b\rc\r\nd\n\r\n"

theorem parse_stable_stray :
    ∃ parsed : HttpRequest, parseHeaders strayRequest HttpRequest.zero = (0, parsed) ∧
      (parseHeaders (encodeRequest parsed) HttpRequest.zero).1 = 0 ∧
      (parseHeaders (encodeRequest parsed) HttpRequest.zero).2.headers.map RawHeader.stored =
        parsed.headers.map RawHeader.stored := by
  have hret : (parseHeaders strayRequest HttpRequest.zero).1 = 0 := by decide +kernel
  have hfits : Fits strayRequest := by decide +kernel
  -- nothing more of the request itself is needed
  generalize strayRequest = request at *
  obtain ⟨parsed, hok⟩ := parsed_of_zero hret
  have hagain := (parse_stable hok ((storesDefined_scan_iff request).mpr hfits) HttpRequest.zero).2.2
  exact ⟨parsed, hok, hagain.1, hagain.2.2.2.2.2.1⟩

end CeeServe.Response
