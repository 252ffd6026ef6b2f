import Mathlib.Algebra.Ring.Int.Defs
import Mathlib.Algebra.Ring.Nat
import Mathlib.Data.Nat.Init
import Mathlib.Tactic.Common

/-! # Decimal numerals as byte strings

The digits are those of `Nat.toDigits`; a numeral is read back with `Nat.ofDigitChars`.
-/
namespace CeeServe.Decimal

/-- `%u`: the decimal digits of a natural number. -/
def decimal (n : ℕ) : List UInt8 := (Nat.toDigits 10 n).map Char.toUInt8

/-- `%d` and `%ld`: a minus sign before the digits of a negative number. -/
def decimalInt : ℤ → List UInt8
  | Int.ofNat n => decimal n
  | Int.negSucc n => 45 :: decimal (n + 1)

def ofDecimal (s : List UInt8) : ℕ := Nat.ofDigitChars 10 (s.map fun c => Char.ofNat c.toNat) 0

/-- A minus sign is read back as the sign of the number. -/
def ofDecimalInt : List UInt8 → ℤ
  | [] => 0
  | c :: s => if c = 45 then -(ofDecimal s : ℤ) else ofDecimal (c :: s)

@[simp] theorem decimalInt_natCast (n : ℕ) : decimalInt n = decimal n := rfl

theorem digit_cases {c : Char} (hc : c.isDigit = true) :
    Char.ofNat c.toUInt8.toNat = c ∧ 48 ≤ c.toUInt8 ∧ c.toUInt8 ≤ 57 := by
  have hrange : 48 ≤ c.toNat ∧ c.toNat ≤ 57 := by
    simp only [Char.isDigit, Bool.and_eq_true, decide_eq_true_eq] at hc
    exact hc
  have hnat : c.toUInt8.toNat = c.toNat := Nat.mod_eq_of_lt (show c.toNat < 256 by omega)
  refine ⟨by rw [hnat, Char.ofNat_toNat], ?_, ?_⟩
  · rw [UInt8.le_iff_toNat_le, hnat]
    exact hrange.1
  · rw [UInt8.le_iff_toNat_le, hnat]
    exact hrange.2

theorem mem_decimal {n : ℕ} {c : UInt8} (hc : c ∈ decimal n) : 48 ≤ c ∧ c ≤ 57 := by
  obtain ⟨d, hd, rfl⟩ := List.mem_map.mp hc
  exact (digit_cases (Nat.isDigit_of_mem_toDigits (by omega) (by omega) hd)).2

def isDigit (c : UInt8) : Bool := 48 ≤ c && c ≤ 57

theorem isDigit_decimal {n : ℕ} {c : UInt8} (hc : c ∈ decimal n) : isDigit c = true := by
  simpa [isDigit] using mem_decimal hc

theorem ofDecimal_decimal (n : ℕ) : ofDecimal (decimal n) = n := by
  have hback : ((Nat.toDigits 10 n).map Char.toUInt8).map (fun c => Char.ofNat c.toNat) = Nat.toDigits 10 n := by
    rw [List.map_map]
    conv_rhs => rw [← List.map_id (Nat.toDigits 10 n)]
    apply List.map_congr_left
    intro c hc
    exact (digit_cases (Nat.isDigit_of_mem_toDigits (by omega) (by omega) hc)).1
  rw [ofDecimal, decimal, hback]
  exact Nat.ofDigitChars_ten_toDigits

theorem mem_decimalInt {z : ℤ} {c : UInt8} (hc : c ∈ decimalInt z) : c = 45 ∨ 48 ≤ c ∧ c ≤ 57 := by
  cases z with
  | ofNat n => exact Or.inr (mem_decimal hc)
  | negSucc n =>
    rcases List.mem_cons.mp hc with rfl | hc
    · exact Or.inl rfl
    · exact Or.inr (mem_decimal hc)

theorem length_decimal_le {n k : ℕ} (hk : 0 < k) (h : n < 10 ^ k) : (decimal n).length ≤ k := by
  rw [decimal, List.length_map]
  exact (Nat.length_toDigits_le_iff (by decide) hk).mpr h

/-- The sign takes one more byte than the digits. -/
theorem length_decimalInt_le {z : ℤ} {k : ℕ} (hk : 0 < k) (hlo : -10 ^ k < z) (hhi : z < 10 ^ k) :
    (decimalInt z).length ≤ k + 1 := by
  have hpow : ((10 ^ k : ℕ) : ℤ) = 10 ^ k := by norm_cast
  cases z with
  | ofNat n =>
    have hn : n < 10 ^ k := by
      rw [Int.ofNat_eq_natCast] at hhi
      omega
    exact Nat.le_succ_of_le (length_decimal_le hk hn)
  | negSucc n =>
    have hn : n + 1 < 10 ^ k := by
      rw [Int.negSucc_eq] at hlo
      omega
    exact Nat.succ_le_succ (length_decimal_le hk hn)

/-- An `int` takes at most eleven bytes. -/
theorem length_decimalInt_int {z : ℤ} (hlo : -2 ^ 31 ≤ z) (hhi : z < 2 ^ 31) : (decimalInt z).length ≤ 11 :=
  length_decimalInt_le (k := 10) (by decide) (by omega) (by omega)

theorem decimal_ne_nil (n : ℕ) : decimal n ≠ [] := by
  intro h
  have hdigits := Nat.length_toDigits_pos (b := 10) (n := n)
  rw [decimal, List.map_eq_nil_iff] at h
  simp [h] at hdigits

theorem decimalInt_ne_nil (z : ℤ) : decimalInt z ≠ [] := by
  cases z with
  | ofNat n => exact decimal_ne_nil n
  | negSucc n => exact List.cons_ne_nil _ _

theorem ofDecimalInt_decimalInt (z : ℤ) : ofDecimalInt (decimalInt z) = z := by
  cases z with
  | ofNat n =>
    obtain ⟨c, s, hcs⟩ := List.exists_cons_of_ne_nil (decimal_ne_nil n)
    have hc : c ≠ 45 := by
      rintro rfl
      have hdigit := mem_decimal (n := n) (c := 45) (by rw [hcs]; exact List.mem_cons_self)
      exact absurd hdigit.1 (by decide)
    have hback := ofDecimal_decimal n
    rw [hcs] at hback
    rw [decimalInt, hcs, ofDecimalInt, if_neg hc, hback]
    rfl
  | negSucc n =>
    rw [decimalInt, ofDecimalInt, if_pos rfl, ofDecimal_decimal]
    rfl

end CeeServe.Decimal
