import Mathlib.Data.List.Basic
import Mathlib.Data.List.TakeWhile

/-! # Words of a list and width-limited token scanning

A word is a maximal non-empty run without separators. The token scanner skips
separators, takes at most `w` further elements and leaves the rest to the next
conversion, so a word longer than its width is cut and its remainder read again.
Scanning is the same as cutting the list of words.
-/
namespace CeeServe.Words
variable {α : Type*} (p : α → Bool)

def words (s : List α) : List (List α) := (s.splitOnP p).filter (fun w => !w.isEmpty)

@[simp] theorem words_nil : words p ([] : List α) = [] := by
  simp [words]

variable {p}

theorem words_append_cons {c : α} (hc : p c = true) (a b : List α) :
    words p (a ++ c :: b) = words p a ++ words p b := by
  simp only [words, List.splitOnP_append_cons a b hc, List.filter_append]

theorem words_cons_sep {c : α} (hc : p c = true) (b : List α) : words p (c :: b) = words p b := by
  simpa using words_append_cons hc [] b

theorem words_run {t : List α} (hne : t ≠ []) (ht : ∀ c ∈ t, p c = false) : words p t = [t] := by
  simp [words, List.splitOnP_eq_singleton ht, hne]

theorem words_run_cons {t : List α} (hne : t ≠ []) (ht : ∀ c ∈ t, p c = false) {c : α}
    (hc : p c = true) (b : List α) : words p (t ++ c :: b) = t :: words p b := by
  rw [words_append_cons hc, words_run hne ht, List.singleton_append]

theorem words_all_sep {s : List α} (hs : ∀ c ∈ s, p c = true) : words p s = [] := by
  induction s with
  | nil => exact words_nil p
  | cons c s ih =>
    rw [words_cons_sep (hs c List.mem_cons_self)]
    exact ih (fun d hd => hs d (List.mem_cons_of_mem c hd))

theorem words_sep_append {g : List α} (hg : ∀ c ∈ g, p c = true) (s : List α) :
    words p (g ++ s) = words p s := by
  induction g with
  | nil => rfl
  | cons c g ih =>
    rw [List.cons_append, words_cons_sep (hg c List.mem_cons_self)]
    exact ih (fun d hd => hg d (List.mem_cons_of_mem c hd))

theorem words_dropWhile (s : List α) : words p (s.dropWhile p) = words p s := by
  have h := words_sep_append (p := p) (g := s.takeWhile p)
    (fun c hc => List.mem_takeWhile_imp hc) (s.dropWhile p)
  rw [List.takeWhile_append_dropWhile] at h
  exact h.symm

theorem words_run_append {t : List α} (hne : t ≠ []) (ht : ∀ c ∈ t, p c = false) {r : List α}
    (hr : ∀ c ∈ r.head?, p c = true) : words p (t ++ r) = t :: words p r := by
  cases r with
  | nil => rw [List.append_nil, words_run hne ht, words_nil]
  | cons c r =>
    have hc : p c = true := hr c (by simp)
    rw [words_run_cons hne ht hc, words_cons_sep hc]

theorem words_cons_nonsep {c : α} (hc : p c = false) (s : List α) :
    words p (c :: s) = (c :: s.takeWhile (fun d => !p d)) :: words p (s.dropWhile (fun d => !p d)) := by
  have hs : c :: s = (c :: s.takeWhile (fun d => !p d)) ++ s.dropWhile (fun d => !p d) := by
    rw [List.cons_append, List.takeWhile_append_dropWhile]
  conv_lhs => rw [hs]
  apply words_run_append (List.cons_ne_nil _ _)
  · intro d hd
    rcases List.mem_cons.mp hd with rfl | hd
    · exact hc
    · simpa using List.mem_takeWhile_imp hd
  · intro d hd
    have h := List.head?_dropWhile_not (fun d => !p d) s
    rw [Option.mem_def.mp hd] at h
    simpa using h

/-- The words hold the elements that are no separators, in order. -/
theorem flatten_words (s : List α) : (words p s).flatten = s.filter (fun c => !p c) := by
  rw [words, List.flatten_filter_not_isEmpty]
  induction s with
  | nil => simp
  | cons c s ih =>
    rw [List.splitOnP_cons_eq_if_modifyHead]
    cases hc : p c with
    | true => simpa [hc] using ih
    | false =>
      obtain ⟨w, ws, hw⟩ := List.exists_cons_of_ne_nil (List.splitOnP_ne_nil p s)
      rw [hw] at ih
      simpa [hw, hc] using ih

theorem mem_words {s w : List α} (hw : w ∈ words p s) :
    w ≠ [] ∧ (∀ c ∈ w, p c = false) ∧ ∀ c ∈ w, c ∈ s := by
  have hmem : ∀ c ∈ w, c ∈ s.filter (fun c => !p c) := by
    intro c hc
    rw [← flatten_words]
    exact List.mem_flatten_of_mem hw hc
  refine ⟨?_, ?_, ?_⟩
  · have hne := (List.mem_filter.mp hw).2
    rintro rfl
    simp at hne
  · intro c hc
    simpa using (List.mem_filter.mp (hmem c hc)).2
  · exact fun c hc => (List.mem_filter.mp (hmem c hc)).1

theorem words_eq_nil_iff {s : List α} : words p s = [] ↔ ∀ c ∈ s, p c = true := by
  constructor
  · intro h
    induction s with
    | nil => simp
    | cons c s ih =>
      cases hc : p c with
      | true =>
        rw [words_cons_sep hc] at h
        intro d hd
        rcases List.mem_cons.mp hd with rfl | hd
        · exact hc
        · exact ih h d hd
      | false => simp [words_cons_nonsep hc] at h
  · exact words_all_sep

variable (p)

/-- Skip separators, then take at most `w` elements of the word found there. -/
def scanToken (w : ℕ) (s : List α) : Option (List α × List α) :=
  let t := s.dropWhile p
  let tok := (t.takeWhile (fun c => !p c)).take w
  if tok.isEmpty then none else some (tok, t.drop tok.length)

/-- One token for each width, until the input has none left. -/
def scanTokens : List ℕ → List α → List (List α)
  | [], _ => []
  | w :: ws, s =>
    match scanToken p w s with
    | none => []
    | some (tok, rest) => tok :: scanTokens ws rest

/-- The words that one token of width `w` leaves behind. -/
def cutRest (w : ℕ) (x : List α) (xs : List (List α)) : List (List α) :=
  if x.length ≤ w then xs else x.drop w :: xs

/-- Cut a list of words into tokens of the given widths; the part of a word beyond
its width is the next word. -/
def cutWords : List ℕ → List (List α) → List (List α)
  | [], _ => []
  | _ :: _, [] => []
  | w :: ws, x :: xs => x.take w :: cutWords ws (cutRest w x xs)

variable {p}

theorem scanToken_none {s : List α} (h : words p s = []) (w : ℕ) : scanToken p w s = none := by
  have hs : s.dropWhile p = [] := List.dropWhile_eq_nil_iff.mpr (words_eq_nil_iff.mp h)
  simp [scanToken, hs]

theorem scanToken_some {s x : List α} {xs : List (List α)} (h : words p s = x :: xs) {w : ℕ}
    (hw : 0 < w) :
    ∃ r, scanToken p w s = some (x.take w, r) ∧ words p r = cutRest w x xs := by
  rw [← words_dropWhile s] at h
  cases ht : s.dropWhile p with
  | nil => simp [ht] at h
  | cons c t =>
    have hc : p c = false := by
      have hh := List.head?_dropWhile_not p s
      rw [ht] at hh
      simpa using hh
    rw [ht, words_cons_nonsep hc] at h
    obtain ⟨rfl, rfl⟩ := List.cons.inj h
    have htw : (c :: t).takeWhile (fun d => !p d) = c :: t.takeWhile (fun d => !p d) := by
      simp [hc]
    refine ⟨(c :: t).drop ((c :: t.takeWhile (fun d => !p d)).take w).length, ?_, ?_⟩
    · obtain ⟨k, rfl⟩ : ∃ k, w = k + 1 := ⟨w - 1, by omega⟩
      simp [scanToken, ht, htw]
    · have hsplit : c :: t = (c :: t.takeWhile (fun d => !p d)) ++ t.dropWhile (fun d => !p d) := by
        rw [List.cons_append, List.takeWhile_append_dropWhile]
      generalize hx : c :: t.takeWhile (fun d => !p d) = x at *
      have hxp : ∀ d ∈ x, p d = false := by
        subst hx
        exact (mem_words (p := p) (s := c :: t) (by rw [words_cons_nonsep hc]; exact List.mem_cons_self)).2.1
      have hrest : ∀ d ∈ (t.dropWhile (fun d => !p d)).head?, p d = true := by
        intro d hd
        have hh := List.head?_dropWhile_not (fun d => !p d) t
        rw [Option.mem_def.mp hd] at hh
        simpa using hh
      rw [hsplit, List.length_take]
      by_cases hle : x.length ≤ w
      · rw [min_eq_right hle, List.drop_left, cutRest, if_pos hle]
      · rw [min_eq_left (by omega), List.drop_append_of_le_length (by omega), cutRest, if_neg hle]
        apply words_run_append
        · intro hnil
          have := congrArg List.length hnil
          simp only [List.length_drop, List.length_nil] at this
          omega
        · exact fun d hd => hxp d (List.mem_of_mem_drop hd)
        · exact hrest

/-- The scanner reads nothing but the words, each cut at its width. -/
theorem scanTokens_eq_cutWords (ws : List ℕ) (hws : ∀ w ∈ ws, 0 < w) (s : List α) :
    scanTokens p ws s = cutWords ws (words p s) := by
  induction ws generalizing s with
  | nil => rfl
  | cons w ws ih =>
    cases h : words p s with
    | nil => simp [scanTokens, cutWords, scanToken_none h]
    | cons x xs =>
      obtain ⟨r, hr, hwords⟩ := scanToken_some h (hws w List.mem_cons_self)
      simp only [scanTokens, cutWords, hr]
      rw [ih (fun v hv => hws v (List.mem_cons_of_mem w hv)), hwords]

/-- Words within their widths are read whole. -/
theorem cutWords_of_fits {ws : List ℕ} {xs : List (List α)} (h : List.Forall₂ (fun w x => x.length ≤ w) ws xs)
    (ys : List (List α)) : cutWords ws (xs ++ ys) = xs := by
  induction h with
  | nil => simp [cutWords]
  | cons hx _ ih => simp [cutWords, cutRest, hx, ih, List.take_of_length_le hx]

/-- Tokens are pieces of words, and none is empty. -/
theorem mem_cutWords {ws : List ℕ} (hws : ∀ w ∈ ws, 0 < w) {xs : List (List α)}
    (hxs : ∀ x ∈ xs, x ≠ [] ∧ ∀ c ∈ x, p c = false) {t : List α} (ht : t ∈ cutWords ws xs) :
    t ≠ [] ∧ ∀ c ∈ t, p c = false := by
  induction ws generalizing xs with
  | nil => simp [cutWords] at ht
  | cons w ws ih =>
    cases xs with
    | nil => simp [cutWords] at ht
    | cons x xs =>
      obtain ⟨hne, hx⟩ := hxs x List.mem_cons_self
      have hrest : ∀ y ∈ xs, y ≠ [] ∧ ∀ c ∈ y, p c = false := fun y hy => hxs y (List.mem_cons_of_mem x hy)
      have hpos := hws w List.mem_cons_self
      rw [cutWords] at ht
      rcases List.mem_cons.mp ht with rfl | ht
      · refine ⟨?_, fun c hc => hx c (List.mem_of_mem_take hc)⟩
        simp only [ne_eq, List.take_eq_nil_iff, not_or]
        exact ⟨by omega, hne⟩
      · refine ih (fun v hv => hws v (List.mem_cons_of_mem w hv)) ?_ ht
        unfold cutRest
        split
        · exact hrest
        · intro y hy
          rcases List.mem_cons.mp hy with rfl | hy
          · refine ⟨?_, fun c hc => hx c (List.mem_of_mem_drop hc)⟩
            simp only [ne_eq, List.drop_eq_nil_iff]
            omega
          · exact hrest y hy

/-- No token is longer than its width. -/
theorem length_cutWords_le (ws : List ℕ) (xs : List (List α)) :
    List.Forall₂ (fun t w => t.length ≤ w) (cutWords ws xs) (ws.take (cutWords ws xs).length) := by
  induction ws generalizing xs with
  | nil => simp [cutWords]
  | cons w ws ih =>
    cases xs with
    | nil => simp [cutWords]
    | cons x xs =>
      rw [cutWords, List.length_cons, List.take_succ_cons]
      exact .cons (List.length_take_le w x) (ih _)

theorem scanToken_eq_some {w : ℕ} {s tok r : List α} (h : scanToken p w s = some (tok, r)) :
    tok ≠ [] ∧ tok = ((s.dropWhile p).takeWhile (fun c => !p c)).take w ∧ r = (s.dropWhile p).drop tok.length ∧
      ∀ x, (s ++ x).dropWhile p = s.dropWhile p ++ x := by
  unfold scanToken at h
  dsimp only at h
  split at h
  · cases h
  · rename_i hne
    obtain ⟨rfl, rfl⟩ := Prod.mk.inj (Option.some.inj h)
    rw [List.isEmpty_iff] at hne
    refine ⟨hne, rfl, rfl, fun x => ?_⟩
    have hdrop : ¬ (s.dropWhile p).isEmpty = true := by
      rw [List.isEmpty_iff]
      intro hnil
      rw [hnil] at hne
      simp at hne
    rw [List.dropWhile_append, if_neg hdrop]

/-- A token that its width or a separator ends is the same whatever follows. -/
theorem scanToken_append {w : ℕ} {s tok r : List α} (h : scanToken p w s = some (tok, r))
    (hend : tok.length = w ∨ r ≠ []) (x : List α) : scanToken p w (s ++ x) = some (tok, r ++ x) := by
  obtain ⟨hne, htok, hr, hx⟩ := scanToken_eq_some h
  generalize s.dropWhile p = t at htok hr hx
  have hrun := (List.takeWhile_prefix (l := t) (fun c => !p c)).length_le
  have hlen : tok.length = min w (t.takeWhile (fun c => !p c)).length := by rw [htok, List.length_take]
  have htok' : ((t ++ x).takeWhile (fun c => !p c)).take w = tok := by
    rw [List.takeWhile_append]
    split
    · rename_i hall
      have hw : w ≤ t.length := by
        rcases hend with hend | hend
        · omega
        · have hpos := List.length_pos_iff.mpr hend
          rw [hr, List.length_drop] at hpos
          omega
      have hself : t.takeWhile (fun c => !p c) = t := (List.takeWhile_prefix _).eq_of_length hall
      rw [htok, hself, List.take_append_of_le_length hw]
    · exact htok.symm
  rw [scanToken, hx]
  simp only [htok', List.isEmpty_iff, hne, if_false]
  rw [List.drop_append_of_le_length (by omega), ← hr]

/-- A token that only the end of the input ends goes on with what is no separator. -/
theorem scanToken_extend {w : ℕ} {s tok : List α} (h : scanToken p w s = some (tok, [])) (hw : tok.length < w)
    {c : α} (hc : p c = false) (x : List α) :
    ∃ more r, scanToken p w (s ++ c :: x) = some (tok ++ c :: more, r) := by
  obtain ⟨hne, htok, hr, hx⟩ := scanToken_eq_some h
  generalize s.dropWhile p = t at htok hr hx
  have hrun := (List.takeWhile_prefix (l := t) (fun c => !p c)).length_le
  have hlen : tok.length = min w (t.takeWhile (fun c => !p c)).length := by rw [htok, List.length_take]
  have hle : t.length ≤ tok.length := List.drop_eq_nil_iff.mp hr.symm
  have hself : t.takeWhile (fun c => !p c) = t := (List.takeWhile_prefix _).eq_of_length (by omega)
  have htok' : t = tok := by rw [htok, hself, List.take_of_length_le (by omega)]
  obtain ⟨k, hk⟩ : ∃ k, w = tok.length + (k + 1) := ⟨w - tok.length - 1, by omega⟩
  have hnew : ((t ++ c :: x).takeWhile (fun c => !p c)).take w =
      tok ++ c :: (x.takeWhile (fun c => !p c)).take k := by
    rw [List.takeWhile_append, if_pos (by rw [hself]), List.takeWhile_cons_of_pos (by simp [hc]), htok', hk,
      List.take_length_add_append, List.take_succ_cons]
  simp only [scanToken, hx, hnew, List.isEmpty_iff, List.append_eq_nil_iff, hne, false_and, if_false]
  exact ⟨_, _, rfl⟩

variable (p) in
/-- Each of the tokens is ended by its width or by a separator in the input. -/
def Settled : List ℕ → List α → Prop
  | [], _ => True
  | w :: ws, s =>
    match scanToken p w s with
    | none => False
    | some (tok, r) => (tok.length = w ∨ r ≠ []) ∧ Settled ws r

theorem scanTokens_append {ws : List ℕ} {s : List α} (h : Settled p ws s) (x : List α) :
    scanTokens p ws (s ++ x) = scanTokens p ws s := by
  induction ws generalizing s with
  | nil => rfl
  | cons w ws ih =>
    rw [Settled] at h
    cases ht : scanToken p w s with
    | none => simp [ht] at h
    | some tr =>
      obtain ⟨tok, r⟩ := tr
      rw [ht] at h
      obtain ⟨hend, hrest⟩ := h
      simp only [scanTokens, ht, scanToken_append ht hend x, ih hrest]

/-- Tokens for all widths that stay the same when something else than a separator
follows are settled. -/
theorem settled_of_scanTokens_append {ws : List ℕ} {s x : List α} {c : α} (hc : p c = false)
    (hlen : (scanTokens p ws s).length = ws.length) (h : scanTokens p ws (s ++ c :: x) = scanTokens p ws s) :
    Settled p ws s := by
  induction ws generalizing s with
  | nil => trivial
  | cons w ws ih =>
    cases ht : scanToken p w s with
    | none => simp [scanTokens, ht] at hlen
    | some tr =>
      obtain ⟨tok, r⟩ := tr
      simp only [scanTokens, ht, List.length_cons, Nat.add_right_cancel_iff] at hlen h
      rw [Settled, ht]
      by_cases hend : tok.length = w ∨ r ≠ []
      · rw [scanToken_append ht hend] at h
        exact ⟨hend, ih hlen (List.cons.inj h).2⟩
      · obtain ⟨hw, hr⟩ := not_or.mp hend
        obtain rfl := not_not.mp hr
        have hlt : tok.length < w := by
          have hle := congrArg List.length (scanToken_eq_some ht).2.1
          rw [List.length_take] at hle
          omega
        obtain ⟨more, r', ht'⟩ := scanToken_extend ht hlt hc x
        rw [ht'] at h
        simpa using congrArg List.length (List.cons.inj h).1

end CeeServe.Words
