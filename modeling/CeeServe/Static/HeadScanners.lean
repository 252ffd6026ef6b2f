import CeeServe.Http.StoreBounds
import CeeServe.Static.EndOfHeaders

/-! # The two head scanners on one buffer

`handle_conn` finds the end of the head with `end_of_headers` and hands the same
buffer to the parser, which looks for it again by itself: the first over raw bytes
for CR LF CR LF, the second over a C string for LF CR LF, storing header bytes on
the way. `beyond` is what lies in memory behind the buffer.
-/
namespace CeeServe.Static
open CString Search HeaderScan

/-- A buffer: its first bytes, zeros up to `BSIZE`. -/
def padded (s : List UInt8) : List UInt8 := s ++ List.replicate (bsize - s.length) nul

/-- The stores of the parser are all inside its buffers exactly for requests with
at most 1000 header lines, none of which has a byte other than CR behind the first
256 bytes of its name or of its value. -/
theorem parser_stores_defined_iff (request : List UInt8) :
    StoresDefined none (scan request).2 ↔
      (headerLines request).length ≤ 1000 ∧
        ∀ l ∈ headerLines request, (∀ c ∈ (nameBytes l).drop 256, c = cr) ∧
          ∀ c ∈ (valueBytes l).drop 256, c = cr := by
  rw [storesDefined_scan_iff]
  constructor
  · intro h
    exact ⟨h.count, fun l hl => ⟨(h.lines l hl).name, (h.lines l hl).value⟩⟩
  · rintro ⟨hcount, hlines⟩
    exact ⟨hcount, fun l hl => ⟨(hlines l hl).1, (hlines l hl).2⟩⟩

def longNameBuffer : List UInt8 :=
  padded (ascii "GET / H\r\n" ++ List.replicate 257 97 ++ ascii ":\r\n\r\n")

/-- `end_of_headers` accepts the buffer and the parser stores behind the key buffer. -/
theorem longName_store_undefined :
    longNameBuffer.length = bsize ∧ 0 ≤ endOfHeaders longNameBuffer ∧
      ¬ StoresDefined none (scan longNameBuffer).2 := by
  refine ⟨by decide +kernel, by decide +kernel, ?_⟩
  rw [storesDefined_scan_iff]
  intro h
  have hbad : ∃ l ∈ headerLines longNameBuffer, ∃ c ∈ (nameBytes l).drop 256, c ≠ cr := by
    decide +kernel
  obtain ⟨l, hl, c, hc, hne⟩ := hbad
  exact hne ((h.lines l hl).name c hc)

theorem blankLine_of_terminator {s : List UInt8} {i : ℕ} (h : OccursAt terminator s i) :
    OccursAt blankLine s (i + 1) := blankLine_of_crlf h

end CeeServe.Static
