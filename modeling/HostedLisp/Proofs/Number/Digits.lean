import HostedLisp.Number.Numeral
import Mathlib.Data.List.Induction
import Mathlib.Tactic.Ring

namespace HostedLisp.Number

theorem pow10_succ (k : Nat) : pow10 (k + 1) = pow10 k * 10 := Nat.pow_succ 10 k

theorem pow10_pos (k : Nat) : 0 < pow10 k := Nat.pow_pos (by decide)

theorem pow10_le_pow10 {a b : Nat} (h : a ≤ b) : pow10 a ≤ pow10 b :=
  Nat.pow_le_pow_right (by decide) h

theorem digits_of_lt {n : Nat} (h : n < 10) : digits n = [digitChar n] := by
  rw [digits, if_pos h]

theorem digits_of_not_lt {n : Nat} (h : ¬ n < 10) :
    digits n = digits (n / 10) ++ [digitChar (n % 10)] := by
  rw [digits, if_neg h]

theorem digits_mul_ten {n : Nat} (h : n ≠ 0) : digits (n * 10) = digits n ++ ['0'] := by
  rw [digits_of_not_lt (by omega), Nat.mul_div_cancel n (by decide), Nat.mul_mod_left]
  rfl

theorem digits_mul_pow10 {n : Nat} (h : n ≠ 0) (k : Nat) :
    digits (n * pow10 k) = digits n ++ List.replicate k '0' := by
  induction k with
  | zero => simp [pow10]
  | succ k ih =>
      have hne : n * pow10 k ≠ 0 := Nat.mul_ne_zero h (pow10_pos k).ne'
      rw [pow10_succ, ← Nat.mul_assoc, digits_mul_ten hne, ih, List.append_assoc,
        ← List.replicate_succ']

theorem digitsValue_append (s t : List Char) :
    digitsValue (s ++ t) = digitsValue s * pow10 t.length + digitsValue t := by
  induction t using List.reverseRecOn with
  | nil => simp [digitsValue, pow10]
  | append_singleton t c ih =>
      rw [← List.append_assoc, digitsValue_append_singleton, digitsValue_append_singleton, ih,
        List.length_append, List.length_singleton, pow10_succ]
      ring

theorem digitsValue_replicate_zero (k : Nat) : digitsValue (List.replicate k '0') = 0 := by
  induction k with
  | zero => rfl
  | succ k ih =>
      rw [List.replicate_succ', digitsValue_append_singleton, ih]
      rfl

theorem lt_pow10_length_digits (n : Nat) : n < pow10 (digits n).length := by
  induction n using digits.induct with
  | case1 n h =>
      rw [digits_of_lt h]
      exact h
  | case2 n h ih =>
      rw [digits_of_not_lt h, List.length_append, List.length_singleton, pow10_succ]
      omega

theorem pow10_length_digits_le {n : Nat} (h : n ≠ 0) : pow10 ((digits n).length - 1) ≤ n := by
  induction n using digits.induct with
  | case1 n hn =>
      rw [digits_of_lt hn]
      exact Nat.pos_of_ne_zero h
  | case2 n hn ih =>
      have hlength := List.length_pos_iff.mpr (digits_ne_nil (n / 10))
      have hle := ih (by omega)
      obtain ⟨k, hk⟩ := Nat.exists_eq_add_of_lt hlength
      rw [digits_of_not_lt hn, List.length_append, List.length_singleton]
      rw [hk] at hle ⊢
      simp only [Nat.zero_add, Nat.add_sub_cancel] at hle ⊢
      rw [pow10_succ]
      omega

theorem length_digits_le {n k : Nat} (hk : 0 < k) (h : n < pow10 k) : (digits n).length ≤ k := by
  by_cases hn : n = 0
  · rw [hn, digits_of_lt (by decide)]
    exact hk
  · by_contra hlt
    have hpow : pow10 k ≤ pow10 ((digits n).length - 1) := pow10_le_pow10 (by omega)
    have hle := pow10_length_digits_le hn
    omega

end HostedLisp.Number
