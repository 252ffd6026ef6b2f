import CeeServe.Http.Message
import CeeServe.Lib.Words

/-! # The request line

`request_line` hands the whole request to `sscanf` with the format
`%49s %2047s %49s`. What it stores is what cutting the words of the request at
these widths gives, wherever in the request the words stand.
-/
namespace CeeServe.RequestLine
open CString Words

/-- The widths of `%49s %2047s %49s`. -/
def requestWidths : List ℕ := [49, 2047, 49]

def requestLine (request : List UInt8) (req : HttpRequest) : ℤ × HttpRequest :=
  match scanTokens isspace requestWidths (cstr request) with
  | [method, path, version] =>
    if method.length = 0 ∨ path.length = 0 ∨ version.length = 0 then (-1, req)
    else (0, { req with method := some method, path := some path, version := some version })
  | _ => (-1, req) -- res != 3

/-- What `sscanf` assigns for the request. -/
def tokens (request : List UInt8) : List (List UInt8) :=
  cutWords requestWidths (words isspace (cstr request))

theorem requestWidths_pos : ∀ w ∈ requestWidths, 0 < w := by decide

theorem mem_tokens {request t : List UInt8} (ht : t ∈ tokens request) :
    t ≠ [] ∧ ∀ c ∈ t, isspace c = false :=
  mem_cutWords requestWidths_pos (fun _ hw => ⟨(mem_words hw).1, (mem_words hw).2.1⟩) ht

theorem nul_not_mem_tokens {request t : List UInt8} (ht : t ∈ tokens request) : nul ∉ t := by
  have hclean := mem_cutWords (p := fun c => c == nul) requestWidths_pos (fun w hw => by
    obtain ⟨hne, -, hmem⟩ := mem_words hw
    refine ⟨hne, fun c hc => ?_⟩
    have hcstr := hmem c hc
    simpa using fun h : c = nul => nul_not_mem_cstr request (h ▸ hcstr)) ht
  intro h
  simpa using hclean.2 nul h

theorem tokens_word {request t : List UInt8} (ht : t ∈ tokens request) {c : UInt8} (hc : c ∈ t) :
    isspace c = false ∧ c ≠ nul :=
  ⟨(mem_tokens ht).2 c hc, fun hn => nul_not_mem_tokens ht (hn ▸ hc)⟩

/-- The three tokens keep to the widths. -/
theorem tokens_le {request m p v : List UInt8} (h : tokens request = [m, p, v]) :
    m.length ≤ 49 ∧ p.length ≤ 2047 ∧ v.length ≤ 49 := by
  have hle := length_cutWords_le requestWidths (words isspace (cstr request))
  rw [show cutWords requestWidths (words isspace (cstr request)) = [m, p, v] from h] at hle
  simpa [requestWidths] using hle

theorem requestLine_of_tokens {request m p v : List UInt8} (h : tokens request = [m, p, v])
    (req : HttpRequest) :
    requestLine request req = (0, { req with method := some m, path := some p, version := some v }) := by
  have hne : ∀ t ∈ [m, p, v], t.length ≠ 0 := by
    intro t ht
    rw [← h] at ht
    exact fun h0 => (mem_tokens ht).1 (List.length_eq_zero_iff.mp h0)
  simp only [requestLine, scanTokens_eq_cutWords requestWidths requestWidths_pos]
  rw [show cutWords requestWidths (words isspace (cstr request)) = [m, p, v] from h]
  simp only [hne m (by simp), hne p (by simp), hne v (by simp), or_self, if_false]

theorem requestLine_failure {request : List UInt8} (h : ∀ m p v, tokens request ≠ [m, p, v])
    (req : HttpRequest) : requestLine request req = (-1, req) := by
  simp only [requestLine, scanTokens_eq_cutWords requestWidths requestWidths_pos]
  split
  · rename_i m p v heq
    exact absurd heq (h m p v)
  · rfl

def stripCR (l : List UInt8) : List UInt8 := if l.getLast? = some cr then l.dropLast else l

/-- The request up to its first LF, a CR before it removed. -/
def firstLine (request : List UInt8) : List UInt8 :=
  stripCR ((cstr request).takeWhile (fun c => c != lf))

/-- The request, all its lines together, has too few words to be cut into three
tokens. -/
def FewWords (request : List UInt8) : Prop :=
  match words isspace (cstr request) with
  | [] => True
  | [w] => w.length ≤ 49 + 2047
  | [w, x] => w.length ≤ 49 ∧ x.length ≤ 2047
  | _ => False

theorem words_stripCR (l : List UInt8) : words isspace (stripCR l) = words isspace l := by
  unfold stripCR
  split
  · rename_i h
    have hl := List.dropLast_append_getLast? cr h
    conv_rhs => rw [← hl]
    rw [words_append_cons (by decide), words_nil, List.append_nil]
  · rfl

/-- An LF is white space: the words of a request are those of its first line and
those of the rest. -/
theorem words_firstLine (request : List UInt8) :
    ∃ ys, words isspace (cstr request) = words isspace (firstLine request) ++ ys := by
  rw [firstLine, words_stripCR]
  have hsplit := List.takeWhile_append_dropWhile (p := fun c => c != lf) (l := cstr request)
  cases hd : (cstr request).dropWhile (fun c => c != lf) with
  | nil =>
    rw [hd, List.append_nil] at hsplit
    exact ⟨[], by rw [hsplit, List.append_nil]⟩
  | cons c r =>
    have hc : c = lf := by
      have hh := List.head?_dropWhile_not (fun c => c != lf) (cstr request)
      rw [hd] at hh
      simpa using hh
    rw [hd, hc] at hsplit
    refine ⟨words isspace r, ?_⟩
    conv_lhs => rw [← hsplit]
    exact words_append_cons (by decide) _ r

/-- `sscanf` assigns all three exactly when there are words enough, be it by
cutting long ones. -/
theorem tokens_three_iff (request : List UInt8) :
    (∃ m p v, tokens request = [m, p, v]) ↔ ¬ FewWords request := by
  unfold tokens FewWords requestWidths
  rcases words isspace (cstr request) with _ | ⟨w, _ | ⟨x, _ | ⟨y, ws⟩⟩⟩
  · simp [cutWords]
  · by_cases h1 : w.length ≤ 49
    · simp [cutWords, cutRest, h1]
      omega
    · by_cases h2 : w.length ≤ 49 + 2047
      · have h2' : w.length - 49 ≤ 2047 := by omega
        simp [cutWords, cutRest, h1, h2, h2']
      · have h2' : ¬ w.length - 49 ≤ 2047 := by omega
        simp [cutWords, cutRest, h1, h2, h2']
  · by_cases h1 : w.length ≤ 49
    · by_cases h2 : x.length ≤ 2047 <;> simp [cutWords, cutRest, h1, h2]
    · by_cases h2 : w.length - 49 ≤ 2047 <;> simp [cutWords, cutRest, h1, h2]
  · by_cases h1 : w.length ≤ 49
    · by_cases h2 : x.length ≤ 2047 <;> simp [cutWords, cutRest, h1, h2]
    · by_cases h2 : w.length - 49 ≤ 2047 <;> simp [cutWords, cutRest, h1, h2]

end CeeServe.RequestLine
