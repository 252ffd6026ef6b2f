import Mathlib.Data.List.Forall2

/-! # Messages one after the other in a stream

A decoder takes one message from the front of a stream and gives back the rest. A
string encodes a message when the decoder finds it there whatever follows. Encodings
in a row are decoded one by one, with nothing left over.
-/
namespace CeeServe.Framing
variable {α β : Type*}

/-- Decode up to `fuel` messages until the stream is used up. -/
def decodeAll (next : List α → Option (β × List α)) : ℕ → List α → Option (List β)
  | _, [] => some []
  | 0, _ :: _ => none
  | fuel + 1, c :: s =>
    match next (c :: s) with
    | none => none
    | some (b, rest) => (decodeAll next fuel rest).map (b :: ·)

/-- Every message takes at least one element, so the length of the stream is fuel
enough. -/
def decode (next : List α → Option (β × List α)) (s : List α) : Option (List β) :=
  decodeAll next s.length s

structure Encodes (next : List α → Option (β × List α)) (s : List α) (b : β) : Prop where
  ne_nil : s ≠ []
  next_eq : ∀ rest, next (s ++ rest) = some (b, rest)

theorem length_le_flatten {gs : List (List α)} (hne : ∀ g ∈ gs, g ≠ []) : gs.length ≤ gs.flatten.length := by
  induction gs with
  | nil => exact Nat.le_refl 0
  | cons g gs ih =>
    have hg := List.length_pos_iff.mpr (hne g List.mem_cons_self)
    have hgs := ih (fun g' hg' => hne g' (List.mem_cons_of_mem g hg'))
    rw [List.length_cons, List.flatten_cons, List.length_append]
    omega

variable {next : List α → Option (β × List α)}

theorem decodeAll_encoded {pieces : List (List α)} {bs : List β}
    (h : List.Forall₂ (Encodes next) pieces bs) {fuel : ℕ} (hfuel : pieces.length ≤ fuel) :
    decodeAll next fuel pieces.flatten = some bs := by
  induction h generalizing fuel with
  | nil => cases fuel <;> rfl
  | @cons s b pieces bs hs _ ih =>
    obtain ⟨c, s, rfl⟩ := List.exists_cons_of_ne_nil hs.ne_nil
    cases fuel with
    | zero => simp at hfuel
    | succ fuel =>
      have hnext := hs.next_eq pieces.flatten
      have hrest : decodeAll next fuel pieces.flatten = some bs := ih (by simpa using hfuel)
      rw [List.cons_append] at hnext
      simp only [List.flatten_cons, List.cons_append, decodeAll, hnext, hrest, Option.map_some]

/-- A stream of encodings decodes to the messages, none lost, none left over. -/
theorem decode_encoded {pieces : List (List α)} {bs : List β}
    (h : List.Forall₂ (Encodes next) pieces bs) : decode next pieces.flatten = some bs := by
  have hne : ∀ s ∈ pieces, s ≠ [] := by
    induction h with
    | nil => simp
    | cons hs _ ih => exact List.forall_mem_cons.mpr ⟨hs.ne_nil, ih⟩
  exact decodeAll_encoded h (length_le_flatten hne)

section Cut
variable [DecidableEq α]

def cut (d : α) : List α → Option (List α × List α)
  | [] => none
  | c :: s => if c = d then some ([], s) else (cut d s).map fun r => (c :: r.1, r.2)

theorem cut_append {d : α} {a : List α} (h : d ∉ a) (b : List α) : cut d (a ++ d :: b) = some (a, b) := by
  induction a with
  | nil => simp [cut]
  | cons c a ih =>
    have hc : c ≠ d := fun heq => h (heq ▸ List.mem_cons_self)
    have ha := ih fun hmem => h (List.mem_cons_of_mem c hmem)
    simp only [List.cons_append, cut, if_neg hc, ha, Option.map_some]

end Cut

end CeeServe.Framing
