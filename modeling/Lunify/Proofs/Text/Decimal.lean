import Mathlib.Tactic.IntervalCases
import Mathlib.Data.List.Basic
import Lunify.Text.Basic

/-!
# Decimal digits

`Text.IsDecimal` is the form of a decimal number: digits, of which the first is a zero only if all are.
`Text.ofNat` writes natural numbers in that form, and `Text.digitsValue` reads them back.
-/

namespace Lunify

open List

namespace Text

/-- Whether a text is a decimal number: only zeros may follow a zero at the start. -/
def IsDecimal (s : Text) : Prop :=
  s ≠ [] ∧ (∀ b ∈ s, isDigit b = true) ∧ (s.head? = some (byte '0') → ∀ b ∈ s, b = byte '0')

/-- The byte of a digit. -/
def digit (d : Nat) : UInt8 :=
  byte (Nat.digitChar d)

lemma ofNat_of_lt {n : Nat} (hn : n < 10) : ofNat n = [digit n] := by
  rw [ofNat, Nat.toDigits_of_lt_base hn]
  rfl

lemma ofNat_of_le {n : Nat} (hn : 10 ≤ n) : ofNat n = ofNat (n / 10) ++ [digit (n % 10)] := by
  rw [ofNat, Nat.toDigits_of_base_le (by norm_num) hn, map_append]
  rfl

lemma digit_spec {d : Nat} (hd : d < 10) : isDigit (digit d) = true ∧
    (digit d - byte '0').toNat = d ∧ (digit d = byte '0' → d = 0) := by
  interval_cases d <;> decide

lemma ofNat_ne_nil (n : Nat) : ofNat n ≠ [] := by
  rw [ofNat, ne_eq, map_eq_nil_iff]
  exact Nat.toDigits_ne_nil

/-- The first digit of a positive number is not zero. -/
lemma head?_ofNat (n : Nat) (hn : 0 < n) : (ofNat n).head? ≠ some (byte '0') := by
  induction n using Nat.strong_induction_on with
  | _ n ih =>
    by_cases hlt : n < 10
    · rw [ofNat_of_lt hlt]
      intro h
      exact absurd ((digit_spec hlt).2.2 (Option.some.inj h)) (by omega)
    · rw [ofNat_of_le (by omega), head?_append_of_ne_nil _ (ofNat_ne_nil _)]
      exact ih (n / 10) (by omega) (by omega)

/-- Numbers are written with digits. -/
lemma isDigit_of_mem_ofNat (n : Nat) : ∀ b ∈ ofNat n, isDigit b = true := by
  induction n using Nat.strong_induction_on with
  | _ n ih =>
    by_cases hlt : n < 10
    · rw [ofNat_of_lt hlt]
      intro b hb
      rw [mem_singleton.1 hb]
      exact (digit_spec hlt).1
    · rw [ofNat_of_le (by omega)]
      intro b hb
      rcases mem_append.1 hb with hb | hb
      · exact ih (n / 10) (by omega) b hb
      · rw [mem_singleton.1 hb]
        exact (digit_spec (Nat.mod_lt n (by norm_num))).1

lemma isDecimal_ofNat (n : Nat) : IsDecimal (ofNat n) := by
  refine ⟨ofNat_ne_nil n, isDigit_of_mem_ofNat n, ?_⟩
  rcases Nat.eq_zero_or_pos n with rfl | hn
  · intro _
    decide +kernel
  · intro h
    exact absurd h (head?_ofNat n hn)

lemma digitsValue_append_singleton (s : Text) (b : UInt8) :
    digitsValue (s ++ [b]) = 10 * digitsValue s + (b - byte '0').toNat := by
  simp [digitsValue]

/-- Writing a number and reading it gives it back. -/
lemma digitsValue_ofNat (n : Nat) : digitsValue (ofNat n) = n := by
  induction n using Nat.strong_induction_on with
  | _ n ih =>
    by_cases hlt : n < 10
    · rw [ofNat_of_lt hlt, ← nil_append [digit n], digitsValue_append_singleton,
        (digit_spec hlt).2.1]
      exact Nat.zero_add n
    · rw [ofNat_of_le (by omega), digitsValue_append_singleton, ih (n / 10) (by omega),
        (digit_spec (Nat.mod_lt n (by norm_num))).2.1]
      exact Nat.div_add_mod n 10

lemma digitsValue_zero_cons (s : Text) : digitsValue (byte '0' :: s) = digitsValue s := by
  rw [digitsValue, digitsValue, foldl_cons]
  rfl

lemma IsDecimal.of_zero_cons {b : UInt8} {s : Text} (h : IsDecimal (byte '0' :: b :: s)) :
    IsDecimal (b :: s) := by
  obtain ⟨-, hdigit, hzero⟩ := h
  refine ⟨cons_ne_nil b s, fun c hc => hdigit c (mem_cons_of_mem _ hc), fun _ c hc => ?_⟩
  exact hzero rfl c (mem_cons_of_mem _ hc)

end Text

end Lunify
