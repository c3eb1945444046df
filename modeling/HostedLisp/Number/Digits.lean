namespace HostedLisp.Number

/-- Two to the power `n`. -/
def pow2 (n : Nat) : Nat := Nat.pow 2 n

/-- Five to the power `n`. -/
def pow5 (n : Nat) : Nat := Nat.pow 5 n

/-- Ten to the power `n`. -/
def pow10 (n : Nat) : Nat := Nat.pow 10 n

/-- Whether a character is one of `0` to `9`. -/
def isDigit (c : Char) : Bool :=
  '0' ≤ c && c ≤ '9'

/-- The character of a digit below ten. -/
def digitChar (d : Nat) : Char :=
  Char.ofNat (48 + d)

def digitValue (c : Char) : Nat :=
  c.toNat - 48

/-- The decimal digits of a number, most significant first, without leading zeros. -/
def digits (n : Nat) : List Char :=
  if n < 10 then [digitChar n] else digits (n / 10) ++ [digitChar (n % 10)]
termination_by n
decreasing_by omega

/-- The number that a list of digit characters spells. -/
def digitsValue (s : List Char) : Nat :=
  s.foldl (fun n c => 10 * n + digitValue c) 0

theorem digitValue_digitChar {d : Nat} (h : d < 10) : digitValue (digitChar d) = d := by
  have : d = 0 ∨ d = 1 ∨ d = 2 ∨ d = 3 ∨ d = 4 ∨ d = 5 ∨ d = 6 ∨ d = 7 ∨ d = 8 ∨ d = 9 := by
    omega
  rcases this with rfl | rfl | rfl | rfl | rfl | rfl | rfl | rfl | rfl | rfl <;> rfl

theorem isDigit_digitChar {d : Nat} (h : d < 10) : isDigit (digitChar d) = true := by
  have : d = 0 ∨ d = 1 ∨ d = 2 ∨ d = 3 ∨ d = 4 ∨ d = 5 ∨ d = 6 ∨ d = 7 ∨ d = 8 ∨ d = 9 := by
    omega
  rcases this with rfl | rfl | rfl | rfl | rfl | rfl | rfl | rfl | rfl | rfl <;> rfl

theorem digitsValue_append_singleton (s : List Char) (c : Char) :
    digitsValue (s ++ [c]) = 10 * digitsValue s + digitValue c := by
  simp [digitsValue]

theorem digitsValue_digits (n : Nat) : digitsValue (digits n) = n := by
  induction n using digits.induct with
  | case1 n h =>
      rw [digits, if_pos h]
      simp [digitsValue, digitValue_digitChar h]
  | case2 n h ih =>
      rw [digits, if_neg h, digitsValue_append_singleton, ih,
        digitValue_digitChar (Nat.mod_lt n (by decide))]
      omega

theorem isDigit_of_mem_digits {n : Nat} {c : Char} (h : c ∈ digits n) : isDigit c = true := by
  induction n using digits.induct with
  | case1 n hn =>
      rw [digits, if_pos hn, List.mem_singleton] at h
      exact h ▸ isDigit_digitChar hn
  | case2 n hn ih =>
      rw [digits, if_neg hn, List.mem_append, List.mem_singleton] at h
      rcases h with h | rfl
      · exact ih h
      · exact isDigit_digitChar (Nat.mod_lt n (by decide))

theorem digits_ne_nil (n : Nat) : digits n ≠ [] := by
  rw [digits]
  split <;> simp

/-- The sign and digits of an integer. -/
def integerText (n : Int) : List Char :=
  match n with
  | .ofNat m => digits m
  | .negSucc m => '-' :: digits (m + 1)

/-- An integer is written in full only up to this many digits. -/
def digitLimit : Nat := 4300

/-- Whether the integer has more digits than may be written. -/
def exceedsDigitLimit (n : Int) : Bool :=
  pow10 digitLimit ≤ n.natAbs

end HostedLisp.Number
