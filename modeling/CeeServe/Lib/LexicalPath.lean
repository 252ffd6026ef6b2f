import Mathlib.Data.List.Basic
import Mathlib.Data.List.Induction
import Mathlib.Tactic.Common

/-! # Walking down and up a tree

A path is a list of moves. The walk keeps the stack of the directories entered and
fails when it would leave the directory it started in.
-/
namespace CeeServe.LexicalPath
variable {α : Type*}

inductive Move (α : Type*) where
  | stay
  | up
  | enter (name : α)
deriving DecidableEq, Repr

def Move.isUp : Move α → Bool
  | .up => true
  | _ => false

def Move.isEnter : Move α → Bool
  | .enter _ => true
  | _ => false

def walk : List α → List (Move α) → Option (List α)
  | stack, [] => some stack
  | stack, .stay :: ms => walk stack ms
  | [], .up :: _ => none
  | _ :: stack, .up :: ms => walk stack ms
  | stack, .enter name :: ms => walk (name :: stack) ms

/-- On every prefix of the path there are at most `room` more moves up than names. -/
def Balanced (room : ℕ) (ms : List (Move α)) : Prop :=
  ∀ k, (ms.take k).countP Move.isUp ≤ room + (ms.take k).countP Move.isEnter

theorem balanced_nil (room : ℕ) : Balanced room ([] : List (Move α)) := by
  intro k
  simp

theorem balanced_stay {room : ℕ} {ms : List (Move α)} :
    Balanced room (.stay :: ms) ↔ Balanced room ms := by
  constructor
  · intro h k
    simpa [Move.isUp, Move.isEnter] using h (k + 1)
  · intro h k
    cases k with
    | zero => simp
    | succ k => simpa [Move.isUp, Move.isEnter] using h k

theorem balanced_up {room : ℕ} {ms : List (Move α)} :
    Balanced room (.up :: ms) ↔ ∃ r, room = r + 1 ∧ Balanced r ms := by
  constructor
  · intro h
    have hroom : 1 ≤ room := by simpa [Move.isUp, Move.isEnter] using h 1
    refine ⟨room - 1, by omega, fun k => ?_⟩
    have hk := h (k + 1)
    simp only [List.take_succ_cons, List.countP_cons, Move.isUp, Move.isEnter, if_true, Bool.false_eq_true,
      if_false] at hk
    omega
  · rintro ⟨r, rfl, h⟩ k
    cases k with
    | zero => simp
    | succ k =>
      have hk := h k
      simp only [List.take_succ_cons, List.countP_cons, Move.isUp, Move.isEnter, if_true, Bool.false_eq_true,
        if_false]
      omega

theorem balanced_enter {room : ℕ} {name : α} {ms : List (Move α)} :
    Balanced room (.enter name :: ms) ↔ Balanced (room + 1) ms := by
  constructor
  · intro h k
    have hk := h (k + 1)
    simp only [List.take_succ_cons, List.countP_cons, Move.isUp, Move.isEnter, if_true, Bool.false_eq_true,
      if_false] at hk
    omega
  · intro h k
    cases k with
    | zero => simp
    | succ k =>
      have hk := h k
      simp only [List.take_succ_cons, List.countP_cons, Move.isUp, Move.isEnter, if_true, Bool.false_eq_true,
        if_false]
      omega

/-- A walk stays below its start exactly when no prefix goes up more often than it
has entered. -/
theorem walk_isSome_iff (stack : List α) (ms : List (Move α)) :
    (walk stack ms).isSome ↔ Balanced stack.length ms := by
  induction ms generalizing stack with
  | nil => exact iff_of_true rfl (balanced_nil _)
  | cons m ms ih =>
    cases m with
    | stay => rw [walk, ih, balanced_stay]
    | up =>
      rw [balanced_up]
      cases stack with
      | nil => simp [walk]
      | cons d stack =>
        rw [walk, ih, List.length_cons]
        constructor
        · exact fun h => ⟨stack.length, rfl, h⟩
        · rintro ⟨r, hr, h⟩
          obtain rfl : stack.length = r := by omega
          exact h
    | enter name => rw [walk, ih, balanced_enter, List.length_cons]

theorem walk_append (stack : List α) (ms ns : List (Move α)) :
    walk stack (ms ++ ns) = (walk stack ms).bind fun s => walk s ns := by
  induction ms generalizing stack with
  | nil => rfl
  | cons m ms ih =>
    cases m with
    | stay => exact ih stack
    | up =>
      cases stack with
      | nil => rfl
      | cons d stack => exact ih stack
    | enter name => exact ih (name :: stack)

/-- What lies under the start of a walk that does not leave it stays where it is. -/
theorem walk_frame {s t : List α} {ms : List (Move α)} (h : walk s ms = some t) (u : List α) :
    walk (s ++ u) ms = some (t ++ u) := by
  induction ms generalizing s with
  | nil =>
    obtain rfl := Option.some.inj h
    rfl
  | cons m ms ih =>
    cases m with
    | stay => exact ih h
    | up =>
      cases s with
      | nil => cases h
      | cons d s => exact ih h
    | enter name => exact ih h

/-- A walk ends at `s` below the directory `d` of its start exactly when it comes back to
the start, enters `d` and stays in it, walking to `s` from there. The induction is on
the last move: behind the last time at the start there is an entry. -/
theorem walk_eq_concat_iff {d : α} {s : List α} {ms : List (Move α)} :
    walk [] ms = some (s ++ [d]) ↔
      ∃ pre post, ms = pre ++ .enter d :: post ∧ walk [] pre = some [] ∧ walk [] post = some s := by
  constructor
  · intro h
    induction ms using List.reverseRecOn generalizing s with
    | nil => simp [walk] at h
    | append_singleton ms m ih =>
      rw [walk_append] at h
      obtain ⟨t, ht, hm⟩ := Option.bind_eq_some_iff.mp h
      cases m with
      | stay =>
        obtain rfl : t = s ++ [d] := Option.some.inj hm
        obtain ⟨pre, post, rfl, hpre, hpost⟩ := ih ht
        exact ⟨pre, post ++ [.stay], by simp, hpre, by rw [walk_append, hpost]; rfl⟩
      | up =>
        cases t with
        | nil => cases hm
        | cons c t =>
          obtain rfl : t = s ++ [d] := Option.some.inj hm
          obtain ⟨pre, post, rfl, hpre, hpost⟩ := ih (s := c :: s) ht
          exact ⟨pre, post ++ [.up], by simp, hpre, by rw [walk_append, hpost]; rfl⟩
      | enter name =>
        have hst : name :: t = s ++ [d] := Option.some.inj hm
        cases s with
        | nil =>
          obtain ⟨rfl, rfl⟩ : name = d ∧ t = [] := by simpa using hst
          exact ⟨ms, [], rfl, ht, rfl⟩
        | cons c s =>
          obtain ⟨rfl, rfl⟩ := List.cons.inj hst
          obtain ⟨pre, post, rfl, hpre, hpost⟩ := ih ht
          exact ⟨pre, post ++ [.enter name], by simp, hpre, by rw [walk_append, hpost]; rfl⟩
  · rintro ⟨pre, post, rfl, hpre, hpost⟩
    rw [walk_append, hpre]
    exact walk_frame hpost [d]

end CeeServe.LexicalPath
