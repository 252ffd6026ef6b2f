import CeeServe.Static.Answers
import CeeServe.Static.GetHead

/-! # The byte budget of a connection

`bytes_read` counts what was received since the last reset and never leaves the buffer,
so each read asks for what is left of it. A reset is the only thing that gives bytes
back: without one the loop runs out of buffer, reads nothing and exits. Once a request
with another method than GET was parsed there is no reset any more.
-/
namespace CeeServe.Static
open CString Parse

/-- What holds at every loop head. -/
structure Budget (s : Conn) : Prop where
  nonneg : 0 ≤ s.bytesRead
  le : s.bytesRead ≤ bsize
  pending : NoGetPending s

theorem budget_fresh {s : Conn} (hs : Fresh s) : Budget s := by
  refine ⟨Int.le_of_eq hs.empty.symm, by rw [hs.empty]; exact Int.natCast_nonneg bsize, fun hf => ?_⟩
  rw [hs.reading] at hf
  cases hf

/-- Between the limits the count passed to `read` is what is left of the buffer. -/
theorem Budget.count {s : Conn} (hs : Budget s) :
    bytesToRead s.bytesRead = bsize - s.bytesRead ∧
      (toSizeT (bytesToRead s.bytesRead) : ℤ) = bsize - s.bytesRead := by
  obtain ⟨n, hn⟩ := Int.eq_ofNat_of_zero_le hs.nonneg
  have hle : n ≤ bsize := by have := hs.le; omega
  have hleft : bsize - n ≤ 4096 := Nat.sub_le bsize n
  have hsize : (bsize : ℤ) - n = ((bsize - n : ℕ) : ℤ) := by omega
  have h32 : 2 * (bsize - n) < UInt32.size := by simp only [UInt32.size]; omega
  have h64 : bsize - n < UInt64.size := by simp only [UInt64.size]; omega
  rw [hn]
  exact ⟨by rw [bytesToRead, hsize, toSizeT_natCast h64, toInt_natCast h32], by rw [bytesToRead_eq hle, hsize]⟩

def ServesGet (tr : List Event) : Prop := ∃ req, IsGet req ∧ .served req ∈ tr

/-- An iteration keeps the limits; it serves a GET, or has fewer bytes left after it. -/
theorem step_budget (client : List UInt8) {s s' : Conn} (inp : Input) (hs : Budget s)
    (hnext : (handleConnStep client s inp).2 = some s') :
    Budget s' ∧ (ServesGet (handleConnStep client s inp).1 ∨ s.bytesRead < s'.bytesRead) := by
  have hpending := (step_accounted client inp hs.pending accounted_nil).2 s' hnext
  rcases step_dispatches client s inp with ⟨es, h, -⟩ | ⟨chunk, hne, hchunk, es, h, -⟩
  · rw [h] at hnext
    cases hnext
  have hpos := List.length_pos_iff.mpr hne
  have hlen : chunk.length ≤ toSizeT (bytesToRead s.bytesRead) := by
    rw [hchunk]
    exact List.length_take_le _ _
  have hleft := hs.count.2
  have hnonneg := hs.nonneg
  have hreceive : (s.receive chunk).bytesRead = s.bytesRead + chunk.length := rfl
  have hlimits : ∀ t : Conn, t.bytesRead = (s.receive chunk).bytesRead →
      0 ≤ t.bytesRead ∧ t.bytesRead ≤ bsize ∧ s.bytesRead < t.bytesRead := fun t ht => by omega
  rcases h with h | ⟨t, h, ht, -⟩
  · rw [h] at hnext
    obtain rfl := Option.some.inj hnext
    obtain ⟨hlow, hhigh, hgrow⟩ := hlimits (s.receive chunk) rfl
    exact ⟨⟨hlow, hhigh, hpending⟩, Or.inr hgrow⟩
  -- behind the read `dispatch` keeps `bytes_read`, or it serves and resets
  rw [h] at hnext ⊢
  by_cases hget : IsGet t.req
  · cases hret : (serveFile inp.fopen t.openFiles t.req).returns with
    | false =>
      rw [dispatch_get_stuck hget hret] at hnext
      cases hnext
    | true =>
      rw [dispatch_get inp hget hret] at hnext ⊢
      obtain rfl := Option.some.inj hnext
      exact ⟨budget_fresh (fresh_reset _), Or.inl ⟨t.req, hget, by simp⟩⟩
  · rw [dispatch_other hget] at hnext
    obtain rfl := Option.some.inj hnext
    obtain ⟨hlow, hhigh, hgrow⟩ := hlimits t ht
    exact ⟨⟨hlow, hhigh, hpending⟩, Or.inr hgrow⟩

theorem run_budget {client : List UInt8} {s s' : Conn} {inputs : List Input} (hs : Budget s)
    (hrun : (handleConn client s inputs).2 = some s') : Budget s' := by
  have hstep : ∀ s inp s', Budget s → (handleConnStep client s inp).2 = some s' → Budget s' :=
    fun _ inp _ h hnext => (step_budget client inp h hnext).1
  exact Machine.run_invariant hstep hs hrun

theorem step_stops (client : List UInt8) {s : Conn} (inp : Input)
    (hstop : (handleConnStep client s inp).2 = none) :
    ServesGet (handleConnStep client s inp).1 ∨ ∃ code, .exited code ∈ (handleConnStep client s inp).1 := by
  rcases step_dispatches client s inp with ⟨es, h, -, -, hexit⟩ | ⟨chunk, -, -, es, h | ⟨t, h, -⟩, -⟩
  · rw [h]
    exact Or.inr ⟨1, hexit⟩
  · rw [h] at hstop
    cases hstop
  · rw [h] at hstop ⊢
    by_cases hget : IsGet t.req
    · cases hret : (serveFile inp.fopen t.openFiles t.req).returns with
      | false =>
        rw [dispatch_get_stuck hget hret]
        exact Or.inl ⟨t.req, hget, by simp⟩
      | true =>
        rw [dispatch_get inp hget hret] at hstop
        cases hstop
    · rw [dispatch_other hget] at hstop
      cases hstop

/-- The induction is on the reads; each one that neither serves nor exits leaves fewer
bytes in the buffer. -/
theorem serves_or_exits (client : List UInt8) {s : Conn} (hs : Budget s) {inputs : List Input}
    (hlen : bsize - s.bytesRead < inputs.length) :
    ServesGet (handleConn client s inputs).1 ∨ ∃ code, .exited code ∈ (handleConn client s inputs).1 := by
  induction inputs generalizing s with
  | nil =>
    have := hs.le
    simp only [List.length_nil] at hlen
    omega
  | cons inp inputs ih =>
    rcases hstep : handleConnStep client s inp with ⟨es, _ | s'⟩
    · have hstop := step_stops client inp (congrArg Prod.snd hstep)
      rw [handleConn, Machine.run_cons_stop hstep]
      rwa [hstep] at hstop
    · obtain ⟨hs', hserved | hgrow⟩ := step_budget client inp hs (congrArg Prod.snd hstep)
      · obtain ⟨req, hget, hreq⟩ := hserved
        rw [hstep] at hreq
        rw [handleConn, Machine.run_cons_next hstep]
        exact Or.inl ⟨req, hget, List.mem_append_left _ hreq⟩
      · have hrest := ih hs' (by rw [List.length_cons] at hlen; omega)
        rw [handleConn, Machine.run_cons_next hstep]
        rcases hrest with ⟨req, hget, hreq⟩ | ⟨code, hcode⟩
        · exact Or.inl ⟨req, hget, List.mem_append_right _ hreq⟩
        · exact Or.inr ⟨code, List.mem_append_right _ hcode⟩

def Quiet (tr : List Event) : Prop := parses tr = [] ∧ sends tr = []

theorem quiet_step (client : List UInt8) {s : Conn} (inp : Input) (hr : s.readingHeaders = false)
    (hget : s.req.method ≠ some (ascii "GET")) {es : List Event} {o : Option Conn}
    (hstep : handleConnStep client s inp = (es, o)) :
    Quiet es ∧ ∀ s', o = some s' → s'.readingHeaders = false ∧ s'.req = s.req := by
  rcases step_cases client s inp with ⟨count, h⟩ |
    ⟨count, chunk, -, -, -, ⟨hr', -⟩ | ⟨req, hr', -⟩ | ⟨req, hr', -⟩ | ⟨-, h⟩⟩
  · obtain ⟨rfl, rfl⟩ := Prod.mk.inj (hstep.symm.trans h)
    exact ⟨⟨rfl, rfl⟩, by simp⟩
  · simp [hr] at hr'
  · simp [hr] at hr'
  · simp [hr] at hr'
  · have hget' : (s.receive chunk).req.method ≠ some (ascii "GET") := hget
    rw [dispatch_other hget'] at h
    obtain ⟨rfl, rfl⟩ := Prod.mk.inj (hstep.symm.trans h)
    refine ⟨⟨rfl, rfl⟩, fun s' hs' => ?_⟩
    obtain rfl := Option.some.inj hs'
    exact ⟨hr, rfl⟩

/-- Behind an accepted request with another method than GET everything is quiet. -/
def Absorbing (tr : List Event) : Prop :=
  ∀ a req b, tr = a ++ .parsed 0 req :: b → ¬ IsGet req → Quiet b

theorem Quiet.append {a b : List Event} (ha : Quiet a) (hb : Quiet b) : Quiet (a ++ b) :=
  ⟨by rw [parses_append, ha.1, hb.1]; rfl, by rw [sends_append, ha.2, hb.2]; rfl⟩

theorem not_parsed {tr a b : List Event} {ret : ℤ} {req : HttpRequest} (h : parses tr = []) :
    tr ≠ a ++ .parsed ret req :: b := by
  rintro rfl
  simp at h

theorem parsed_split {count extent : ℕ} {ret : ℤ} {req req' : HttpRequest} {rest a b : List Event}
    (hrest : parses rest = [])
    (h : .read count :: .wrote .data extent :: .parsed ret req :: rest = a ++ .parsed 0 req' :: b) :
    ret = 0 ∧ req = req' ∧ rest = b := by
  rcases a with _ | ⟨e, _ | ⟨e', _ | ⟨e'', a⟩⟩⟩
  · simp at h
  · simp at h
  · simp only [List.cons_append, List.nil_append, List.cons.injEq, Event.parsed.injEq] at h
    obtain ⟨-, -, ⟨hret, hreq⟩, hb⟩ := h
    exact ⟨hret, hreq, hb⟩
  · simp only [List.cons_append, List.cons.injEq] at h
    exact absurd h.2.2.2 (not_parsed hrest)

theorem step_absorbs (client : List UInt8) {s : Conn} (inp : Input) (hs : NoGetPending s)
    {es : List Event} {o : Option Conn} (hstep : handleConnStep client s inp = (es, o)) {a b : List Event}
    {req : HttpRequest} (hes : es = a ++ .parsed 0 req :: b) (hget : ¬ IsGet req) :
    Quiet b ∧ ∀ s', o = some s' → s'.readingHeaders = false := by
  rcases step_cases client s inp with ⟨count, h⟩ |
    ⟨count, chunk, -, -, -, ⟨-, h⟩ | ⟨req', -, h⟩ | ⟨req', -, h⟩ | ⟨hr, h⟩⟩
  · obtain ⟨rfl, rfl⟩ := Prod.mk.inj (hstep.symm.trans h)
    exact absurd hes (not_parsed rfl)
  · obtain ⟨rfl, rfl⟩ := Prod.mk.inj (hstep.symm.trans h)
    exact absurd hes (not_parsed rfl)
  · obtain ⟨rfl, rfl⟩ := Prod.mk.inj (hstep.symm.trans h)
    obtain ⟨hret, -, -⟩ := parsed_split rfl hes
    cases hret
  · by_cases hget' : IsGet req'
    · have hrest : parses (dispatch inp { s.receive chunk with readingHeaders := false, req := req' }).1 = [] :=
        (dispatch_get_trace (s := { s.receive chunk with readingHeaders := false, req := req' }) inp hget').1
      obtain ⟨rfl, rfl⟩ := Prod.mk.inj (hstep.symm.trans h)
      obtain ⟨-, rfl, -⟩ := parsed_split (by simpa using hrest) hes
      exact absurd hget' hget
    · have hd : dispatch inp { s.receive chunk with readingHeaders := false, req := req' } =
          ([], some { s.receive chunk with readingHeaders := false, req := req' }) := dispatch_other hget'
      rw [hd] at h
      obtain ⟨rfl, rfl⟩ := Prod.mk.inj (hstep.symm.trans h)
      obtain ⟨-, -, rfl⟩ := parsed_split rfl hes
      refine ⟨⟨rfl, rfl⟩, fun s' hs' => ?_⟩
      obtain rfl := Option.some.inj hs'
      rfl
  · have hget' : ¬ IsGet (s.receive chunk).req := hs hr
    rw [dispatch_other hget'] at h
    obtain ⟨rfl, rfl⟩ := Prod.mk.inj (hstep.symm.trans h)
    exact absurd hes (not_parsed rfl)

/-- With `reading_headers` false the loop only reads; a run that accepts a request it
does not serve gets there. -/
theorem run_absorbs (client : List UInt8) {s : Conn} (hs : NoGetPending s) (inputs : List Input) :
    Absorbing (handleConn client s inputs).1 ∧
      (s.readingHeaders = false → Quiet (handleConn client s inputs).1) := by
  have hrun : NoGetPending s → Absorbing (handleConn client s inputs).1 ∧
      (s.readingHeaders = false → Quiet (handleConn client s inputs).1) := by
    apply Machine.run_trace (T := fun (s : Conn) tr => NoGetPending s →
      Absorbing tr ∧ (s.readingHeaders = false → Quiet tr))
    · exact fun _ _ => ⟨fun _ _ _ h => absurd h (not_parsed rfl), fun _ => ⟨rfl, rfl⟩⟩
    · intro s inp es hstep hs
      exact ⟨fun a req b hes hget => (step_absorbs client inp hs hstep hes hget).1,
        fun hr => (quiet_step client inp hr (hs hr) hstep).1⟩
    · intro s inp es s' tr hstep htr hs
      obtain ⟨habs, hquiet⟩ := htr ((step_accounted client inp hs accounted_nil).2 s' (by rw [hstep]))
      refine ⟨fun a req b hes hget => ?_, fun hr => ?_⟩
      · -- the request is accepted in this iteration or in a later one
        rcases List.append_eq_append_iff.mp hes with ⟨a', -, htr⟩ | ⟨c, hsplit, hc⟩
        · exact habs a' req b htr hget
        · rcases c with _ | ⟨e, c⟩
          · exact habs [] req b hc.symm hget
          · rw [List.cons_append] at hc
            obtain ⟨rfl, rfl⟩ := List.cons.inj hc
            obtain ⟨hb, hnext⟩ := step_absorbs client inp hs hstep hsplit hget
            exact hb.append (hquiet (hnext s' rfl))
      · obtain ⟨hes, hnext⟩ := quiet_step client inp hr (hs hr) hstep
        exact hes.append (hquiet (hnext s' rfl).1)
  exact hrun hs

theorem step_reads (client : List UInt8) (s : Conn) (inp : Input) :
    ∃ es, (handleConnStep client s inp).1 = .read (toSizeT (bytesToRead s.bytesRead)) :: es := by
  rcases h : handleConnStep client s inp with ⟨es, o⟩
  unfold handleConnStep at h
  dsimp only at h
  split at h
  · obtain ⟨rfl, -⟩ := Prod.mk.inj h
    exact ⟨_, rfl⟩
  · obtain ⟨rfl, -⟩ := Prod.mk.inj h
    exact ⟨_, rfl⟩

/-- In every run from the start of a connection: at the loop head the count lies in the
buffer and a request that is not being read is no GET; the next `read` asks for what is
left of the buffer, and with one more read than that the loop serves a GET or exits.
Behind an accepted request with another method nothing is parsed and nothing is sent. -/
theorem connection_budget {client : List UInt8} {s₀ : Conn} (hs : Fresh s₀) (inputs : List Input) :
    (∀ s, (handleConn client s₀ inputs).2 = some s →
      0 ≤ s.bytesRead ∧ s.bytesRead ≤ 4096 ∧ (s.readingHeaders = false → ¬ IsGet s.req) ∧
        bytesToRead s.bytesRead = 4096 - s.bytesRead ∧
        (∀ inp, ∃ count es, (handleConnStep client s inp).1 = .read count :: es ∧
          (count : ℤ) = 4096 - s.bytesRead) ∧
        ∀ later : List Input, 4096 - s.bytesRead + 1 ≤ later.length →
          (∃ req, IsGet req ∧ .served req ∈ (handleConn client s later).1) ∨
            ∃ code, .exited code ∈ (handleConn client s later).1) ∧
      ∀ a req b, (handleConn client s₀ inputs).1 = a ++ .parsed 0 req :: b → ¬ IsGet req →
        parses b = [] ∧ sends b = [] := by
  have hfresh := budget_fresh hs
  refine ⟨fun s hrun => ?_, (run_absorbs client hfresh.pending inputs).1⟩
  have hbudget := run_budget hfresh hrun
  obtain ⟨hint, hsize⟩ := hbudget.count
  refine ⟨hbudget.nonneg, hbudget.le, hbudget.pending, hint, fun inp => ?_, fun later hlater => ?_⟩
  · obtain ⟨es, hes⟩ := step_reads client s inp
    exact ⟨_, es, hes, hsize⟩
  · have hlen : (bsize : ℤ) - s.bytesRead < later.length := by
      show (4096 : ℤ) - s.bytesRead < later.length
      omega
    exact serves_or_exits client hbudget hlen

/-- A GET, a POST and what follows it: the loop is still reading. -/
theorem connection_budget_mixed :
    (∃ s, (handleConn [] (Conn.reset 0) mixedInputs).2 = some s ∧
      0 ≤ s.bytesRead ∧ s.bytesRead ≤ 4096 ∧ (s.readingHeaders = false → ¬ IsGet s.req) ∧
        bytesToRead s.bytesRead = 4096 - s.bytesRead ∧
        (∀ inp, ∃ count es, (handleConnStep [] s inp).1 = .read count :: es ∧
          (count : ℤ) = 4096 - s.bytesRead) ∧
        ∀ later : List Input, 4096 - s.bytesRead + 1 ≤ later.length →
          (∃ req, IsGet req ∧ .served req ∈ (handleConn [] s later).1) ∨
            ∃ code, .exited code ∈ (handleConn [] s later).1) ∧
      ∀ a req b, (handleConn [] (Conn.reset 0) mixedInputs).1 = a ++ .parsed 0 req :: b → ¬ IsGet req →
        parses b = [] ∧ sends b = [] := by
  obtain ⟨hhead, hquiet⟩ := @connection_budget [] _ (fresh_reset 0) mixedInputs
  have hsome : (handleConn [] (Conn.reset 0) mixedInputs).2.isSome = true := by decide +kernel
  obtain ⟨s, hs⟩ := Option.isSome_iff_exists.mp hsome
  exact ⟨⟨s, hs, hhead s hs⟩, hquiet⟩

end CeeServe.Static
