import CeeServe.Static.HeadScanners
import CeeServe.Static.GetHead

/-! # Bytes that were not received

The parser and `end_of_headers` look at the whole buffer, whatever part of it the read
has filled. An iteration does not depend on the rest exactly when the received bytes
settle what both do: the head is complete and its three tokens end inside it, or no
terminator can be completed by what the buffer holds behind it.
-/
namespace CeeServe.Static
open CString Search Words Parse HeaderScan RequestLine

/-- What an iteration does, and the state it leaves but for the buffer. -/
def outcome (r : List Event × Option Conn) : List Event × Option Conn :=
  (r.1, r.2.map fun s => { s with data := Buffer.zero })

/-- The iteration does the same for all contents that the buffer had before this read. -/
def TailIndependent (client : List UInt8) (s : Conn) (read : Option (List UInt8)) : Prop :=
  ∀ inp : Input, inp.read = read → ∀ d₁ d₂ : Buffer,
    outcome (handleConnStep client { s with data := d₁ } inp) =
      outcome (handleConnStep client { s with data := d₂ } inp)

/-- The received bytes settle the iteration. -/
def ChunkSettled (c : List UInt8) : Prop :=
  c = [] ∨ c.length = bsize ∨
    (∃ i, OccursAt terminator c i) ∧ (nul ∈ c ∨ Settled isspace requestWidths c) ∨
    (∀ i, ¬ OccursAt terminator c i) ∧ ∀ k < 4, terminator.take k <:+ c → bsize ≤ c.length + (4 - k)

theorem split_of_nul {c : List UInt8} (hc : nul ∈ c) : ∃ b, c = cstr c ++ nul :: b :=
  (cstr_cases c).resolve_left fun h => nul_not_mem_cstr c (h ▸ hc)

theorem requestLine_append {c : List UInt8} (h : nul ∈ c ∨ Settled isspace requestWidths c) (x : List UInt8)
    (req : HttpRequest) : requestLine (c ++ x) req = requestLine c req := by
  rw [requestLine, requestLine]
  by_cases hc : nul ∈ c
  · obtain ⟨b, hb⟩ := split_of_nul hc
    have hcstr : cstr (c ++ x) = cstr c := by
      conv_lhs => rw [hb, List.append_assoc, List.cons_append, cstr_append_nul (nul_not_mem_cstr c)]
    rw [hcstr]
  · rw [cstr_append hc, scanTokens_append (h.resolve_left hc), cstr_of_not_mem hc]

theorem readExtent_le {c : List UInt8} (h : nul ∈ c ∨ ∃ i, OccursAt terminator c i) : readExtent c ≤ c.length := by
  by_cases hc : nul ∈ c
  · obtain ⟨b, hb⟩ := split_of_nul hc
    have hlen : (cstr c).length + 1 ≤ c.length := by
      conv_rhs => rw [hb]
      simp
    rw [readExtent]
    cases hf : firstAt blankLine (cstr c) with
    | none => exact hlen
    | some j =>
      have hj : j + 3 ≤ (cstr c).length := (firstAt_eq_some_iff.mp hf).1.le_length (by decide)
      exact Nat.le_trans hj (Nat.le_of_succ_le hlen)
  · obtain ⟨i, hi⟩ := h.resolve_left hc
    rw [readExtent, cstr_of_not_mem hc]
    cases hf : firstAt blankLine c with
    | none => exact absurd (blankLine_of_terminator hi) (firstAt_eq_none_iff.mp hf _)
    | some j => exact (firstAt_eq_some_iff.mp hf).1.le_length (by decide)

/-- With the terminator inside, and the NUL or the ends of the three tokens, a head
parses the same whatever follows it. -/
theorem parseHeaders_append {c : List UInt8} (hterm : ∃ i, OccursAt terminator c i)
    (h : nul ∈ c ∨ Settled isspace requestWidths c) (x : List UInt8) (req : HttpRequest) :
    parseHeaders (c ++ x) req = parseHeaders c req := by
  rw [parseHeaders, parseHeaders, requestLine_append h, parseHeadersOnly_append (readExtent_le (Or.inr hterm))]

theorem endOfHeaders_append {c : List UInt8} (hterm : ∃ i, OccursAt terminator c i) (hc : c.length < bsize)
    (x : List UInt8) : endOfHeaders (c ++ x) ≠ -1 := by
  obtain ⟨i, hi⟩ := hterm
  have hlen : i + 4 ≤ c.length := hi.le_length (by decide)
  intro h
  have hnone := (endOfHeaders_eq_neg_one_iff _).mp h i (by omega)
  exact hnone ((occursAt_append_left x hlen).mpr hi)

/-- Without one, and with too little room behind the received bytes for the rest of a
terminator they may end in, none is found whatever follows. -/
theorem endOfHeaders_cut {c : List UInt8} (hnone : ∀ i, ¬ OccursAt terminator c i)
    (hcut : ∀ k < 4, terminator.take k <:+ c → bsize ≤ c.length + (4 - k)) (x : List UInt8) :
    endOfHeaders (c ++ x) = -1 := by
  rw [endOfHeaders_eq_neg_one_iff]
  intro i hi hocc
  by_cases hin : i + 4 ≤ c.length
  · exact hnone i ((occursAt_append_left x hin).mp hocc)
  · by_cases hbehind : c.length ≤ i
    · have := hcut 0 (by decide) List.nil_suffix
      omega
    · -- the part of the terminator in `c` is its last `c.length - i` bytes
      have hdrop : (c ++ x).drop i = c.drop i ++ x := List.drop_append_of_le_length (by omega)
      have hlen : (c.drop i).length = c.length - i := List.length_drop
      have hpart : c.drop i <+: terminator := by
        apply List.prefix_of_prefix_length_le (List.prefix_append (c.drop i) x)
        · rw [← hdrop]
          exact hocc
        · rw [hlen, show terminator.length = 4 from rfl]
          omega
      have htake := List.prefix_iff_eq_take.mp hpart
      rw [hlen] at htake
      have := hcut (c.length - i) (by omega) (htake ▸ List.drop_suffix i c)
      omega

theorem endOfHeaders_zeros {c : List UInt8} (hnone : ∀ i, ¬ OccursAt terminator c i) (m : ℕ) :
    endOfHeaders (c ++ List.replicate m nul) = -1 := by
  rw [endOfHeaders_eq_neg_one_iff]
  intro i _ hocc
  by_cases hin : i + 4 ≤ c.length
  · exact hnone i ((occursAt_append_left _ hin).mp hocc)
  · have hlast := occursAt_iff_getElem.mp hocc 3 (by decide)
    rw [List.getElem?_append_right (by omega), List.getElem?_replicate] at hlast
    split at hlast
    · exact absurd hlast (by decide)
    · exact absurd hlast (by decide)

/-- The rest of a terminator completes it, wherever there is room for it. -/
theorem endOfHeaders_completed {a : List UInt8} (ha : a.length < bsize - 4) (x : List UInt8) :
    endOfHeaders (a ++ (terminator ++ x)) ≠ -1 := by
  intro h
  apply (endOfHeaders_eq_neg_one_iff _).mp h a.length ha
  rw [OccursAt, List.drop_left]
  exact List.prefix_append terminator x

theorem step_fresh (client : List UInt8) {s : Conn} (hs : Fresh s) (inp : Input) :
    handleConnStep client s inp =
      if received inp.read bsize = [] then ([.read bsize, .exited 1], none)
      else
        (.read bsize :: .wrote .data (received inp.read bsize).length ::
            (afterRead client inp (s.receive (received inp.read bsize))).1,
          (afterRead client inp (s.receive (received inp.read bsize))).2) := by
  have hcount : toSizeT (bytesToRead s.bytesRead) = bsize := by
    rw [hs.empty]
    exact bytesToRead_eq (Nat.zero_le bsize)
  simp only [handleConnStep, hcount]

theorem outcome_events {r r' : List Event × Option Conn} (h : outcome r = outcome r') : r.1 = r'.1 :=
  (Prod.mk.inj h).1

theorem outcome_prepend (es : List Event) {r r' : List Event × Option Conn} (h : outcome r = outcome r') :
    outcome (es ++ r.1, r.2) = outcome (es ++ r'.1, r'.2) := by
  obtain ⟨hevents, hstate⟩ := Prod.mk.inj h
  simp only [outcome, hevents, hstate]

theorem dispatch_outcome (inp : Input) (s : Conn) (d : Buffer) :
    outcome (dispatch inp { s with data := d }) = outcome (dispatch inp s) := by
  unfold dispatch
  dsimp only
  split
  · split
    · rfl
    · rfl
  · rfl

/-- Two buffers that both scanners see alike lead to the same outcome. -/
theorem afterRead_outcome (client : List UInt8) (inp : Input) {s : Conn} (hr : s.readingHeaders = true) {d₁ d₂ : Buffer}
    (hend : endOfHeaders d₁.bytes = -1 ↔ endOfHeaders d₂.bytes = -1)
    (hparse : endOfHeaders d₁.bytes ≠ -1 →
      parseHeaders (d₁.bytes ++ inp.beyond) s.req = parseHeaders (d₂.bytes ++ inp.beyond) s.req) :
    outcome (afterRead client inp { s with data := d₁ }) = outcome (afterRead client inp { s with data := d₂ }) := by
  unfold afterRead
  dsimp only
  rw [hr, if_pos rfl, if_pos rfl]
  by_cases h : endOfHeaders d₁.bytes = -1
  · rw [if_pos h, if_pos (hend.mp h)]
    rfl
  · rw [if_neg h, if_neg fun h' => h (hend.mpr h')]
    unfold parseHead
    dsimp only
    rw [hparse h]
    split
    · rfl
    · rename_i hret
      generalize (parseHeaders (d₂.bytes ++ inp.beyond) s.req).2 = req
      exact outcome_prepend [_, _] ((dispatch_outcome inp { s with readingHeaders := false, req := req } d₁).trans
        (dispatch_outcome inp { s with readingHeaders := false, req := req } d₂).symm)

theorem tailIndependent_of_settled (client : List UInt8) {s : Conn} (hs : Fresh s) {read : Option (List UInt8)}
    (h : ChunkSettled (received read bsize)) : TailIndependent client s read := by
  rintro inp rfl d₁ d₂
  rw [step_fresh client (s := { s with data := d₁ }) ⟨hs.reading, hs.empty⟩,
    step_fresh client (s := { s with data := d₂ }) ⟨hs.reading, hs.empty⟩]
  have hle : (received inp.read bsize).length ≤ bsize := List.length_take_le _ _
  generalize received inp.read bsize = c at h hle ⊢
  by_cases hnil : c = []
  · rw [if_pos hnil, if_pos hnil]
  rw [if_neg hnil, if_neg hnil]
  -- both buffers start with the received bytes
  have hbytes : ∀ d : Buffer, (d.write c).bytes = c ++ d.bytes.drop c.length := fun d => Buffer.bytes_write hle
  have hassoc : ∀ d : Buffer, (d.write c).bytes ++ inp.beyond = c ++ (d.bytes.drop c.length ++ inp.beyond) := by
    intro d
    rw [hbytes, List.append_assoc]
  apply outcome_prepend [_, _]
  apply afterRead_outcome client inp (s := s.receive c) hs.reading
  · rw [hbytes, hbytes]
    rcases h with h | h | ⟨hterm, -⟩ | ⟨hnone, hcut⟩
    · exact absurd h hnil
    · rw [List.drop_of_length_le (by rw [d₁.length_eq, h]), List.drop_of_length_le (by rw [d₂.length_eq, h])]
    · by_cases hfull : c.length = bsize
      · rw [List.drop_of_length_le (by rw [d₁.length_eq, hfull]), List.drop_of_length_le (by rw [d₂.length_eq, hfull])]
      · have hlt := Nat.lt_of_le_of_ne hle hfull
        exact iff_of_false (endOfHeaders_append hterm hlt _) (endOfHeaders_append hterm hlt _)
    · rw [endOfHeaders_cut hnone hcut, endOfHeaders_cut hnone hcut]
  · intro hend
    rw [hassoc, hassoc]
    rcases h with h | h | ⟨hterm, hsettled⟩ | ⟨hnone, hcut⟩
    · exact absurd h hnil
    · rw [List.drop_of_length_le (by rw [d₁.length_eq, h]), List.drop_of_length_le (by rw [d₂.length_eq, h])]
    · rw [parseHeaders_append hterm hsettled, parseHeaders_append hterm hsettled]
    · rw [hbytes, endOfHeaders_cut hnone hcut] at hend
      exact absurd rfl hend

theorem parses_dispatch (inp : Input) (s : Conn) : parses (dispatch inp s).1 = [] := by
  by_cases hget : s.req.method = some (ascii "GET")
  · exact (dispatch_get_trace inp hget).1
  · rw [dispatch_other hget]
    rfl

/-- The calls of the parser in the iteration, for a buffer whose rest is `x`. -/
theorem parses_step_fresh (client : List UInt8) {s : Conn} (hs : Fresh s) {inp : Input} {c x : List UInt8}
    (hc : received inp.read bsize = c) (hnil : c ≠ []) (hx : s.data.bytes.drop c.length = x) :
    parses (handleConnStep client s inp).1 =
      if endOfHeaders (c ++ x) = -1 then [] else [parseHeaders (c ++ (x ++ inp.beyond)) s.req] := by
  have hle : c.length ≤ bsize := by
    rw [← hc]
    exact List.length_take_le _ _
  have hbytes : (s.receive c).data.bytes = c ++ x := by
    rw [← hx]
    exact Buffer.bytes_write hle
  have hr : (s.receive c).readingHeaders = true := hs.reading
  rw [step_fresh client hs, hc, if_neg hnil]
  simp only [parses_cons, afterRead, hr, if_true, hbytes, List.nil_append]
  split
  · rfl
  · unfold parseHead
    dsimp only
    rw [hbytes, List.append_assoc]
    split
    · rfl
    · simp only [parses_cons, parses_dispatch]
      rfl

/-- With the received bytes fixed, the rest of the buffer can be any bytes. -/
theorem TailIndependent.parses_eq {client : List UInt8} {s : Conn} (hs : Fresh s) {read : Option (List UInt8)}
    (h : TailIndependent client s read) (hnil : received read bsize ≠ []) {x y : List UInt8}
    (hx : (received read bsize).length + x.length = bsize) (hy : (received read bsize).length + y.length = bsize)
    (beyond : List UInt8) :
    (if endOfHeaders (received read bsize ++ x) = -1 then []
      else [parseHeaders (received read bsize ++ (x ++ beyond)) s.req]) =
    (if endOfHeaders (received read bsize ++ y) = -1 then []
      else [parseHeaders (received read bsize ++ (y ++ beyond)) s.req]) := by
  have hbuffer : ∀ z : List UInt8, (received read bsize).length + z.length = bsize →
      (List.replicate (received read bsize).length nul ++ z).length = bsize := by
    intro z hz
    rw [List.length_append, List.length_replicate]
    exact hz
  have hrest : ∀ z : List UInt8,
      (List.replicate (received read bsize).length nul ++ z).drop (received read bsize).length = z :=
    fun z => List.drop_left' List.length_replicate
  have hstep : ∀ (z : List UInt8) (hz : (received read bsize).length + z.length = bsize),
      parses (handleConnStep client { s with data := ⟨_, hbuffer z hz⟩ } ⟨read, fun _ _ => none, beyond⟩).1 =
        if endOfHeaders (received read bsize ++ z) = -1 then []
        else [parseHeaders (received read bsize ++ (z ++ beyond)) s.req] :=
    fun z hz => parses_step_fresh client (s := { s with data := ⟨_, hbuffer z hz⟩ }) ⟨hs.reading, hs.empty⟩ rfl hnil
      (hrest z)
  have hsame := h ⟨read, fun _ _ => none, beyond⟩ rfl ⟨_, hbuffer x hx⟩ ⟨_, hbuffer y hy⟩
  have hparses := congrArg parses (outcome_events hsame)
  exact (hstep x hx).symm.trans (hparses.trans (hstep y hy))

theorem cut_of_independent {client : List UInt8} {s : Conn} (hs : Fresh s) {read : Option (List UInt8)}
    (h : TailIndependent client s read) (hnil : received read bsize ≠ [])
    (hnone : ∀ i, ¬ OccursAt terminator (received read bsize) i) {k : ℕ} (hk : k < 4)
    (hend : terminator.take k <:+ received read bsize) : bsize ≤ (received read bsize).length + (4 - k) := by
  by_contra hroom
  obtain ⟨a, ha⟩ := hend
  have hlen : a.length + k = (received read bsize).length := by
    have := congrArg List.length ha
    rw [List.length_append, List.length_take, show terminator.length = 4 from rfl] at this
    omega
  have hsame := h.parses_eq hs hnil
    (x := List.replicate (bsize - (received read bsize).length) nul)
    (y := terminator.drop k ++ List.replicate (bsize - (received read bsize).length - (4 - k)) nul)
    (by rw [List.length_replicate]; omega)
    (by rw [List.length_append, List.length_drop, List.length_replicate, show terminator.length = 4 from rfl]; omega) []
  have hcompleted : ∀ z, received read bsize ++ (terminator.drop k ++ z) = a ++ (terminator ++ z) := by
    intro z
    rw [← ha, List.append_assoc, ← List.append_assoc (terminator.take k), List.take_append_drop]
  rw [if_pos (endOfHeaders_zeros hnone _), hcompleted, if_neg (endOfHeaders_completed (by omega) _)] at hsame
  cases hsame

theorem tokens_three_words {c : List UInt8} (hc : nul ∉ c) (z : List UInt8) :
    ∃ m p v, tokens (c ++ (ascii "x x x" ++ nul :: z)) = [m, p, v] := by
  rw [tokens_three_iff]
  have hcstr : cstr (c ++ (ascii "x x x" ++ nul :: z)) = (c ++ ascii "x") ++ sp :: (ascii "x" ++ sp :: ascii "x") := by
    rw [cstr_append hc, cstr_append_nul (by decide +kernel), List.append_assoc]
    rfl
  have hx : words isspace (ascii "x") = [ascii "x"] := by decide +kernel
  have hfirst : words isspace (c ++ ascii "x") ≠ [] := by
    rw [Ne, words_eq_nil_iff]
    intro h
    exact absurd (h 120 (by simp [show ascii "x" = [120] by decide +kernel])) (by decide)
  obtain ⟨w, ws, hws⟩ := List.exists_cons_of_ne_nil hfirst
  rw [FewWords, hcstr, words_append_cons (by decide), words_append_cons (by decide), hx, hws]
  rcases ws with _ | ⟨w', _ | ⟨w'', ws⟩⟩ <;> simp

theorem tokens_eq_scanTokens (request : List UInt8) :
    tokens request = scanTokens isspace requestWidths (cstr request) :=
  (scanTokens_eq_cutWords requestWidths requestWidths_pos (cstr request)).symm

theorem hasBlankLine_append {c : List UInt8} (hnul : nul ∉ c) (hterm : ∃ i, OccursAt terminator c i) (x : List UInt8) :
    hasBlankLine (c ++ x) = true := by
  obtain ⟨i, hi⟩ := hterm
  rw [hasBlankLine_iff, cstr_append hnul]
  have hlen : i + 4 ≤ c.length := hi.le_length (by decide)
  exact ⟨i + 1, (occursAt_append_left _ hlen).mpr (blankLine_of_terminator hi)⟩

/-- The buffer ends in zeros once and once goes on with three words: where both give the
same request, its tokens did not depend on what followed. -/
theorem settled_of_independent {client : List UInt8} {s : Conn} (hs : Fresh s) {read : Option (List UInt8)}
    (h : TailIndependent client s read) (hlt : (received read bsize).length < bsize)
    (hterm : ∃ i, OccursAt terminator (received read bsize) i) (hnul : nul ∉ received read bsize) :
    Settled isspace requestWidths (received read bsize) := by
  obtain ⟨m, hm⟩ : ∃ m, (received read bsize).length + (m + 1) = bsize := ⟨bsize - (received read bsize).length - 1, by omega⟩
  have hnil : received read bsize ≠ [] := by
    intro hnil
    obtain ⟨i, hi⟩ := hterm
    rw [hnil] at hi
    exact absurd (hi.le_length (by decide)) (by simp [terminator])
  have hword : ascii "x x x" = 120 :: [32, 120, 32, 120] := by decide +kernel
  generalize hw : ascii "x x x" ++ nul :: List.replicate m nul = w
  have hwlen : w.length = m + 6 := by
    rw [← hw, hword]
    simp
  have hsame := h.parses_eq hs hnil (x := nul :: List.replicate m nul) (y := w.take (m + 1))
    (by rw [List.length_cons, List.length_replicate]; exact hm)
    (by rw [List.length_take, hwlen]; omega) (w.drop (m + 1))
  rw [if_neg (endOfHeaders_append hterm hlt _), if_neg (endOfHeaders_append hterm hlt _), List.take_append_drop,
    List.cons_append] at hsame
  have heq := (List.cons.inj hsame).1
  generalize received read bsize = c at *
  obtain ⟨a, b, v, htokens⟩ := tokens_three_words hnul (List.replicate m nul)
  rw [hw] at htokens
  rw [parseHeaders_ok htokens (hasBlankLine_append hnul hterm w)] at heq
  rcases parseHeaders_cases (c ++ nul :: (List.replicate m nul ++ w.drop (m + 1))) s.req with
    ⟨a', b', v', htokens', -, hok⟩ | ⟨hfail, -⟩
  · rw [hok] at heq
    have hreq := (Prod.mk.inj heq).2
    obtain rfl : a' = a := Option.some.inj (congrArg HttpRequest.method hreq)
    obtain rfl : b' = b := Option.some.inj (congrArg HttpRequest.path hreq)
    obtain rfl : v' = v := Option.some.inj (congrArg HttpRequest.version hreq)
    rw [tokens_eq_scanTokens, cstr_append_nul hnul] at htokens'
    rw [tokens_eq_scanTokens, ← hw, cstr_append hnul, cstr_append_nul (by decide +kernel), hword] at htokens
    exact settled_of_scanTokens_append (by decide) (by rw [htokens']; rfl) (htokens.trans htokens'.symm)
  · rw [heq] at hfail
    cases hfail

/-- The iteration that reads the first bytes of a request does not depend on what else
the buffer holds exactly when these bytes settle it. -/
theorem tailIndependent_iff (client : List UInt8) {s : Conn} (hs : Fresh s) (read : Option (List UInt8)) :
    TailIndependent client s read ↔ ChunkSettled (received read bsize) := by
  refine ⟨fun h => ?_, tailIndependent_of_settled client hs⟩
  by_cases hnil : received read bsize = []
  · exact Or.inl hnil
  by_cases hfull : (received read bsize).length = bsize
  · exact Or.inr (Or.inl hfull)
  have hlt : (received read bsize).length < bsize := Nat.lt_of_le_of_ne (List.length_take_le _ _) hfull
  by_cases hterm : ∃ i, OccursAt terminator (received read bsize) i
  · refine Or.inr (Or.inr (Or.inl ⟨hterm, ?_⟩))
    by_cases hnul : nul ∈ received read bsize
    · exact Or.inl hnul
    · exact Or.inr (settled_of_independent hs h hlt hterm hnul)
  · have hnone : ∀ i, ¬ OccursAt terminator (received read bsize) i := fun i hi => hterm ⟨i, hi⟩
    exact Or.inr (Or.inr (Or.inr ⟨hnone, fun k hk hend => cut_of_independent hs h hnil hnone hk hend⟩))

theorem tailIndependent_plain :
    TailIndependent [] (Conn.reset 0) (some plainHead.bytes) ↔ ChunkSettled (received (some plainHead.bytes) bsize) :=
  tailIndependent_iff [] (fresh_reset 0) (some plainHead.bytes)

def oldHead : Buffer := ⟨padded (ascii "GET / H\r\n\r\n"), by decide +kernel⟩

/-- The read brings all bytes of the head but the last one; on zeros the iteration goes
on reading, on the old head it parses a request. -/
theorem cutHead_depends_on_buffer : ¬ TailIndependent [] (Conn.reset 0) (some (ascii "GET / H\r\n\r")) := by
  intro h
  have hsame := outcome_events (h (Input.bare (ascii "GET / H\r\n\r")) rfl Buffer.zero oldHead)
  have hzero : (parses (handleConnStep [] { Conn.reset 0 with data := Buffer.zero }
      (Input.bare (ascii "GET / H\r\n\r"))).1).length = 0 := by decide +kernel
  have hold : (parses (handleConnStep [] { Conn.reset 0 with data := oldHead }
      (Input.bare (ascii "GET / H\r\n\r"))).1).length = 1 := by decide +kernel
  rw [hsame, hold] at hzero
  cases hzero

end CeeServe.Static
