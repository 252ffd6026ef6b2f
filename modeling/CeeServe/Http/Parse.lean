import CeeServe.Http.HeaderLines
import CeeServe.Http.RequestLine

/-! # parse_headers

The two passes of the parser over one request string: the request line by `sscanf`,
the header lines by the scanner. What both leave in the request is determined by
the words and the lines of the string.
-/
namespace CeeServe.Parse
open CString Search HeaderScan RequestLine

/-- Parses the request. Returns 0 if good, -1 if protocol failure -/
def parseHeaders (request : List UInt8) (req : HttpRequest) : ℤ × HttpRequest :=
  let r := requestLine request req
  if r.1 = -1 then (-1, r.2)
  else
    let h := parseHeadersOnly request r.2
    if h.1 = -1 then (-1, h.2) else (0, h.2)

theorem parseHeadersOnly_eq (request : List UInt8) (req : HttpRequest) :
    parseHeadersOnly request req =
      if hasBlankLine request = true then
        (0, { req with
          headerCount := (headerLines request).length
          headers := (headerLines request).map lineHeader })
      else (-1, req) := by
  obtain ⟨har, hblank, hline, -⟩ := scan_spec request
  unfold parseHeadersOnly
  cases hb : hasBlankLine request with
  | false => simp [hblank, hb]
  | true =>
    rw [hb] at hline
    simp only [if_true] at hline
    simp [hblank, hb, hline, har]

theorem hasBlankLine_iff (request : List UInt8) :
    hasBlankLine request = true ↔ ∃ i, OccursAt blankLine (cstr request) i := by
  have h := scan_stop request
  rw [← (scan_spec request).2.1]
  cases hf : firstAt blankLine (cstr request) with
  | none =>
    simp only [hf] at h
    rw [h]
    refine iff_of_false (by decide) ?_
    rintro ⟨i, hi⟩
    exact firstAt_eq_none_iff.mp hf i hi
  | some j =>
    simp only [hf] at h
    exact ⟨fun _ => ⟨j, (firstAt_eq_some_iff.mp hf).1⟩, fun _ => h.1⟩

def parsedRequest (request m p v : List UInt8) (req : HttpRequest) : HttpRequest :=
  { req with
    method := some m
    path := some p
    version := some v
    headerCount := (headerLines request).length
    headers := (headerLines request).map lineHeader }

theorem parseHeaders_ok {request m p v : List UInt8} (ht : tokens request = [m, p, v])
    (hb : hasBlankLine request = true) (req : HttpRequest) :
    parseHeaders request req = (0, parsedRequest request m p v req) := by
  rw [parseHeaders, requestLine_of_tokens ht, parseHeadersOnly_eq, if_pos hb]
  rfl

theorem parseHeaders_no_tokens {request : List UInt8} (h : ∀ m p v, tokens request ≠ [m, p, v])
    (req : HttpRequest) : parseHeaders request req = (-1, req) := by
  rw [parseHeaders, requestLine_failure h]
  rfl

theorem parseHeaders_no_blank {request m p v : List UInt8} (ht : tokens request = [m, p, v])
    (hb : hasBlankLine request = false) (req : HttpRequest) :
    parseHeaders request req =
      (-1, { req with method := some m, path := some p, version := some v }) := by
  rw [parseHeaders, requestLine_of_tokens ht, parseHeadersOnly_eq, hb]
  rfl

theorem parseHeaders_cases (request : List UInt8) (req : HttpRequest) :
    (∃ m p v, tokens request = [m, p, v] ∧ hasBlankLine request = true ∧
        parseHeaders request req = (0, parsedRequest request m p v req)) ∨
      ((parseHeaders request req).1 = -1 ∧
        ((∀ m p v, tokens request ≠ [m, p, v]) ∨ hasBlankLine request = false)) := by
  by_cases ht : ∃ m p v, tokens request = [m, p, v]
  · obtain ⟨m, p, v, ht⟩ := ht
    cases hb : hasBlankLine request with
    | true => exact Or.inl ⟨m, p, v, ht, rfl, parseHeaders_ok ht hb req⟩
    | false => exact Or.inr ⟨congrArg Prod.fst (parseHeaders_no_blank ht hb req), Or.inr rfl⟩
  · have ht' : ∀ m p v, tokens request ≠ [m, p, v] := fun m p v h => ht ⟨m, p, v, h⟩
    exact Or.inr ⟨congrArg Prod.fst (parseHeaders_no_tokens ht' req), Or.inl ht'⟩

/-- When the parser returns -1, the request is what it was before. -/
def FailureUntouched (request : List UInt8) (req : HttpRequest) : Prop :=
  (parseHeaders request req).1 = -1 → (parseHeaders request req).2 = req

/-- The tokens of the request are what its fields hold already. -/
def TokensHeld (request : List UInt8) (req : HttpRequest) : Prop :=
  ∃ m p v, tokens request = [m, p, v] ∧ req.method = some m ∧ req.path = some p ∧ req.version = some v

theorem failureUntouched_of_blank {request : List UInt8} (hb : hasBlankLine request = true) (req : HttpRequest) :
    FailureUntouched request req := by
  intro hret
  rcases parseHeaders_cases request req with ⟨m, p, v, -, -, h⟩ | ⟨-, hno | hno⟩
  · rw [h] at hret
    cases hret
  · rw [parseHeaders_no_tokens hno]
  · rw [hb] at hno
    cases hno

/-- The second pass fails behind the first one: the three tokens stay in the request. -/
theorem failureUntouched_no_blank_iff {request m p v : List UInt8} (ht : tokens request = [m, p, v])
    (hb : hasBlankLine request = false) (req : HttpRequest) :
    FailureUntouched request req ↔ req.method = some m ∧ req.path = some p ∧ req.version = some v := by
  unfold FailureUntouched
  rw [parseHeaders_no_blank ht hb]
  constructor
  · intro h
    have hreq := h rfl
    exact ⟨(congrArg HttpRequest.method hreq).symm, (congrArg HttpRequest.path hreq).symm,
      (congrArg HttpRequest.version hreq).symm⟩
  · rintro ⟨hm, hp, hv⟩ -
    cases req
    simp_all

/-- A failed parse leaves the request as it was exactly when it fails in the first pass,
or writes what was there. Whatever the request held, it is left alone exactly when there
are too few words, or there is the blank line, with which the second pass cannot fail. -/
theorem failure_untouched_iff (request : List UInt8) :
    (∀ req, FailureUntouched request req ↔
        FewWords request ∨ (∃ i, OccursAt blankLine (cstr request) i) ∨ TokensHeld request req) ∧
      ((∀ req, FailureUntouched request req) ↔
        FewWords request ∨ ∃ i, OccursAt blankLine (cstr request) i) := by
  rw [← hasBlankLine_iff]
  by_cases hfew : FewWords request
  · have hno : ∀ m p v, tokens request ≠ [m, p, v] := fun m p v ht =>
      (tokens_three_iff request).mp ⟨m, p, v, ht⟩ hfew
    have huntouched : ∀ req, FailureUntouched request req := by
      intro req _
      rw [parseHeaders_no_tokens hno]
    exact ⟨fun req => iff_of_true (huntouched req) (Or.inl hfew), iff_of_true huntouched (Or.inl hfew)⟩
  cases hb : hasBlankLine request with
  | true =>
    have huntouched := failureUntouched_of_blank hb
    exact ⟨fun req => iff_of_true (huntouched req) (Or.inr (Or.inl rfl)), iff_of_true huntouched (Or.inr rfl)⟩
  | false =>
    obtain ⟨m, p, v, ht⟩ := (tokens_three_iff request).mpr hfew
    have hiff := failureUntouched_no_blank_iff ht hb
    constructor
    · intro req
      rw [hiff]
      constructor
      · exact fun h => Or.inr (Or.inr ⟨m, p, v, ht, h⟩)
      · rintro (h | h | ⟨m', p', v', ht', h⟩)
        · exact absurd h hfew
        · cases h
        · obtain ⟨rfl, rfl, rfl⟩ : m = m' ∧ p = p' ∧ v = v' := by simpa [ht] using ht'
          exact h
    · refine iff_of_false (fun h => ?_) (by simp [hfew])
      have hzero := (hiff HttpRequest.zero).mp (h _)
      cases hzero.1

def cutRequest : List UInt8 := ascii "GET / HTTP/1.1\r\nHost: localhost:8080"

/-- `cutRequest` is refused, and its three words are in the request. -/
theorem cutRequest_touched :
    (parseHeaders cutRequest HttpRequest.zero).1 = -1 ∧ ¬ FailureUntouched cutRequest HttpRequest.zero := by
  have hret : (parseHeaders cutRequest HttpRequest.zero).1 = -1 := by decide +kernel
  refine ⟨hret, fun h => ?_⟩
  have hmethod : (parseHeaders cutRequest HttpRequest.zero).2.method = some (ascii "GET") := by decide +kernel
  rw [h hret] at hmethod
  cases hmethod

end CeeServe.Parse
