import HostedLisp.Proofs.Number.Nearest

namespace HostedLisp.Number

namespace Format

/-- The least number that is too large: half-way from the greatest number of the format to the
power of two behind it. -/
def overflow (f : Format) : ℚ := (2 ^ f.precision - 1 / 2) * 2 ^ f.maxExponent

/-- Whether a binary number is what a rational number is rounded to, ties to even. -/
def Rounds (f : Format) (q : ℚ) : Binary → Prop
  | .finite negative m e => |q| < f.overflow ∧ f.Nearest q (signed negative (m * 2 ^ e))
  | .infinite negative => f.overflow ≤ |q| ∧ (negative = true ↔ q < 0)
  | .nan => False

end Format

section Quotients

variable {n d : Nat}

theorem divHalfEven_near (hd : 0 < d) :
    |(n : ℚ) / d - divHalfEven n d| ≤ 1 / 2 ∧
      (|(n : ℚ) / d - divHalfEven n d| = 1 / 2 → 2 ∣ divHalfEven n d) := by
  have hdq : (0 : ℚ) < d := by exact_mod_cast hd
  have hquotient : (n : ℚ) / d = (n / d : Nat) + (n % d : Nat) / d := by
    have hn : (n : ℚ) = d * (n / d : Nat) + (n % d : Nat) := by
      exact_mod_cast (Nat.div_add_mod n d).symm
    rw [div_eq_iff hdq.ne', add_mul, div_mul_cancel₀ _ hdq.ne', mul_comm]
    exact hn
  have hless : ((n % d : Nat) : ℚ) / d < 1 := by
    rw [div_lt_one hdq]
    exact_mod_cast Nat.mod_lt n hd
  have hnonneg : (0 : ℚ) ≤ (n % d : Nat) / d := by positivity
  have hup : d < 2 * (n % d) ↔ 1 / 2 < ((n % d : Nat) : ℚ) / d := by
    rw [lt_div_iff₀ hdq, div_mul_eq_mul_div, div_lt_iff₀ (by decide), one_mul, mul_comm]
    exact_mod_cast Iff.rfl
  have hhalf : 2 * (n % d) = d ↔ ((n % d : Nat) : ℚ) / d = 1 / 2 := by
    rw [div_eq_div_iff hdq.ne' (by decide), one_mul, mul_comm]
    exact_mod_cast Iff.rfl
  rw [hquotient]
  generalize ((n % d : Nat) : ℚ) / d = x at hless hnonneg hup hhalf
  unfold divHalfEven
  dsimp only
  split
  · rename_i h
    have hx : 1 / 2 ≤ x := by
      rcases h with h | ⟨h, -⟩
      · exact (hup.mp h).le
      · exact (hhalf.mp h).ge
    have hdiff : ((n / d : Nat) : ℚ) + x - (n / d + 1 : Nat) = x - 1 := by
      push_cast
      ring
    rw [hdiff, abs_of_neg (by linarith)]
    refine ⟨by linarith, fun heq => ?_⟩
    have := hhalf.mpr (by linarith)
    omega
  · rename_i h
    have hx : x ≤ 1 / 2 := le_of_not_gt fun hlt => h (.inl (hup.mpr hlt))
    rw [add_sub_cancel_left, abs_of_nonneg hnonneg]
    refine ⟨hx, fun heq => ?_⟩
    have := hhalf.mpr heq
    omega

theorem quotientAt_near (hd : 0 < d) (e : Int) :
    |(n : ℚ) / d - quotientAt n d e * 2 ^ e| ≤ 2 ^ e / 2 ∧
      (|(n : ℚ) / d - quotientAt n d e * 2 ^ e| = 2 ^ e / 2 → 2 ∣ quotientAt n d e) := by
  have hpos : (0 : ℚ) < 2 ^ e := by positivity
  obtain ⟨a, b, hb, hquotient, hvalue⟩ : ∃ a b, 0 < b ∧ quotientAt n d e = divHalfEven a b ∧
      (n : ℚ) / d = a / b * 2 ^ e := by
    unfold quotientAt
    by_cases he : 0 ≤ e
    · refine ⟨n, d * pow2 e.toNat, Nat.mul_pos hd (pow2_pos _), if_pos he, ?_⟩
      have hp : (pow2 e.toNat : ℚ) ≠ 0 := by exact_mod_cast (pow2_pos _).ne'
      rw [zpow_two_of_nonneg he]
      push_cast
      field_simp
    · refine ⟨n * pow2 (-e).toNat, d, hd, if_neg he, ?_⟩
      have hp : (pow2 (-e).toNat : ℚ) ≠ 0 := by exact_mod_cast (pow2_pos _).ne'
      rw [zpow_two_of_neg he]
      push_cast
      field_simp
  obtain ⟨hle, heven⟩ := divHalfEven_near (n := a) hb
  rw [hquotient, hvalue, ← sub_mul, abs_mul, abs_of_pos hpos, div_eq_mul_one_div ((2 : ℚ) ^ e),
    mul_comm _ ((2 : ℚ) ^ e)]
  exact ⟨mul_le_mul_of_nonneg_left hle hpos.le, fun h => heven (mul_left_cancel₀ hpos.ne' h)⟩

theorem abs_sub_mul_le {q p : ℚ} {v j : Int} (hp : 0 < p) (h : |q - v * p| ≤ p / 2) (hne : j ≠ v) :
    |q - v * p| ≤ |q - j * p| ∧ (|q - j * p| = |q - v * p| → |q - v * p| = p / 2) := by
  have hone : (1 : ℚ) ≤ |(v : ℚ) - j| := by
    exact_mod_cast Int.one_le_abs (sub_ne_zero.mpr (Ne.symm hne))
  have hapart : p ≤ |q - v * p| + |q - j * p| := by
    calc p ≤ |(v : ℚ) - j| * p := le_mul_of_one_le_left hp.le hone
      _ = |(q - j * p) - (q - v * p)| := by
        rw [← abs_of_pos hp, ← abs_mul, abs_of_pos hp]
        congr 1
        ring
      _ ≤ |q - j * p| + |q - v * p| := abs_sub _ _
      _ = |q - v * p| + |q - j * p| := add_comm _ _
  exact ⟨by linarith, fun heq => by linarith⟩

end Quotients

theorem Binary.exists_ofParts_eq (negative : Bool) (m : Nat) (e : Int) :
    ∃ m' e', ofParts negative m e = finite negative m' e' ∧ (m' : ℚ) * 2 ^ e' = m * 2 ^ e := by
  by_cases hm : m = 0
  · refine ⟨0, 0, ?_, by simp [hm]⟩
    rw [ofParts, hm, oddPart_zero]
  · obtain ⟨q, k, -, hq, hodd⟩ := exists_oddPart_eq hm e
    refine ⟨q, e + k, ?_, ?_⟩
    · rw [ofParts, hodd]
    · rw [hq, add_comm, zpow_add₀ (by decide), zpow_natCast]
      push_cast
      rw [cast_pow2]
      ring

namespace Format

section Rounding

variable {f : Format} {negative : Bool} {n d : Nat} {q r s : ℚ}

theorem zpow_le_of_least_lt (hn : n ≠ 0) (hd : 0 < d) (h : f.minExponent < f.lastExponent n d) :
    (2 : ℚ) ^ (f.precision - 1 + f.lastExponent n d) ≤ (n : ℚ) / d := by
  have hq : (0 : ℚ) < (n : ℚ) / d := by positivity
  have hlog := Int.zpow_log_le_self (show 1 < 2 by decide) hq
  rw [← floorLog2_eq_log (Nat.pos_of_ne_zero hn) hd, Nat.cast_ofNat] at hlog
  rw [lastExponent] at h ⊢
  rwa [max_eq_right (by omega), add_sub_cancel]

theorem lt_zpow_lastExponent (hn : n ≠ 0) (hd : 0 < d) :
    (n : ℚ) / d < 2 ^ (f.precision + f.lastExponent n d) := by
  have hlog := Int.lt_zpow_succ_log_self (show 1 < 2 by decide) ((n : ℚ) / d)
  rw [← floorLog2_eq_log (Nat.pos_of_ne_zero hn) hd, Nat.cast_ofNat] at hlog
  refine lt_of_lt_of_le hlog (zpow_le_zpow_right₀ (by decide) ?_)
  rw [lastExponent]
  omega

theorem IsNumber.multiple_or_below (hn : n ≠ 0) (hd : 0 < d) (hs : f.IsNumber s) :
    (∃ j : Int, s = j * 2 ^ f.lastExponent n d) ∨
      |s| < 2 ^ (f.precision - 1 + f.lastExponent n d) ∧
        2 ^ (f.precision - 1 + f.lastExponent n d) ≤ (n : ℚ) / d := by
  obtain ⟨k, e, hk, rfl⟩ := hs
  rcases le_or_gt (f.lastExponent n d) e with h | h
  · obtain ⟨j, rfl⟩ := Int.le.dest h
    refine .inl ⟨k * 2 ^ j, ?_⟩
    rw [add_comm, zpow_add₀ (by decide), zpow_natCast]
    push_cast
    ring
  · refine .inr ⟨?_, zpow_le_of_least_lt hn hd (lt_of_le_of_lt hk.least h)⟩
    have hpos : (0 : ℚ) < 2 ^ e := by positivity
    have hmantissa : |(k : ℚ)| < 2 ^ f.precision := by exact_mod_cast hk.mantissa
    calc |(k : ℚ) * 2 ^ e| = |(k : ℚ)| * 2 ^ e := by rw [abs_mul, abs_of_pos hpos]
      _ < 2 ^ f.precision * 2 ^ e := mul_lt_mul_of_pos_right hmantissa hpos
      _ = 2 ^ (f.precision + e) := by rw [zpow_add₀ (by decide), zpow_natCast]
      _ ≤ 2 ^ (f.precision - 1 + f.lastExponent n d) :=
        zpow_le_zpow_right₀ (by decide) (by omega)

/-- Whether the quotient kept is too large for the format. -/
def Overflows (f : Format) (n d : Nat) : Prop :=
  f.maxExponent < f.lastExponent n d ∨ (f.lastExponent n d = f.maxExponent ∧
    pow2 f.precision ≤ quotientAt n d (f.lastExponent n d))

theorem pow2_le_quotientAt_iff {p : Nat} (hp : 0 < p) (hd : 0 < d) (e : Int) :
    pow2 p ≤ quotientAt n d e ↔ (2 ^ p - 1 / 2) * 2 ^ e ≤ (n : ℚ) / d := by
  have hpos : (0 : ℚ) < 2 ^ e := by positivity
  have hcast : pow2 p ≤ quotientAt n d e ↔ (2 : ℚ) ^ p ≤ quotientAt n d e := by
    rw [← cast_pow2]
    exact_mod_cast Iff.rfl
  obtain ⟨hnear, heven⟩ := quotientAt_near (n := n) hd e
  rw [hcast]
  constructor
  · intro hle
    have := (abs_le.mp hnear).1
    nlinarith
  · intro hle
    by_contra hlt
    -- The quotient kept is the mantissa below the power, which is odd, and half a bit too small.
    have hlt' : quotientAt n d e < 2 ^ p := by exact_mod_cast not_le.mp hlt
    have hbelow : (quotientAt n d e : ℚ) + 1 ≤ 2 ^ p := by exact_mod_cast hlt'
    have hnear' := abs_le.mp hnear
    have hhalf : |(n : ℚ) / d - quotientAt n d e * 2 ^ e| = 2 ^ e / 2 := by
      refine le_antisymm hnear (le_abs.mpr (.inl ?_))
      nlinarith
    have habove : (2 : ℚ) ^ p ≤ quotientAt n d e + 1 := by
      by_contra hgt
      nlinarith
    have habove' : 2 ^ p ≤ quotientAt n d e + 1 := by exact_mod_cast habove
    have heven' := heven hhalf
    have hpow : 2 ∣ 2 ^ p := dvd_pow_self 2 hp.ne'
    omega

theorem overflows_iff (hf : f.Proper) (hn : n ≠ 0) (hd : 0 < d) :
    f.Overflows n d ↔ f.overflow ≤ (n : ℚ) / d := by
  obtain ⟨hprecision, hrange⟩ := hf
  have hone : (1 : ℚ) ≤ 2 ^ (f.precision - 1) := one_le_pow₀ (by decide)
  have htwo : (2 : ℚ) ^ f.precision = 2 ^ (f.precision - 1) * 2 := by
    rw [← pow_succ, Nat.sub_add_cancel hprecision]
  have hmax : (0 : ℚ) < 2 ^ f.maxExponent := by positivity
  rcases lt_trichotomy (f.lastExponent n d) f.maxExponent with h | h | h
  · have hless := lt_zpow_lastExponent (f := f) hn hd
    have hbound : (2 : ℚ) ^ (f.precision + f.lastExponent n d) ≤
        2 ^ (f.precision - 1) * 2 ^ f.maxExponent := by
      rw [← zpow_natCast, ← zpow_add₀ (by decide)]
      exact zpow_le_zpow_right₀ (by decide) (by omega)
    refine iff_of_false ?_ (not_le.mpr ?_)
    · rintro (hlt | ⟨heq, -⟩) <;> omega
    · rw [overflow, htwo]
      nlinarith
  · rw [Overflows, h, overflow, ← pow2_le_quotientAt_iff hprecision hd]
    simp only [lt_irrefl, true_and, false_or]
  · have hle := zpow_le_of_least_lt hn hd (lt_of_le_of_lt hrange h)
    have hbound : (2 : ℚ) ^ f.precision * 2 ^ f.maxExponent ≤
        2 ^ (f.precision - 1 + f.lastExponent n d) := by
      rw [← zpow_natCast, ← zpow_add₀ (by decide)]
      exact zpow_le_zpow_right₀ (by decide) (by omega)
    refine iff_of_true (.inl h) ?_
    rw [overflow]
    nlinarith

theorem abs_sub_lt_of_below (hprecision : 0 < f.precision) {v e : Int}
    (hnear : |q - v * 2 ^ e| ≤ 2 ^ e / 2) (hs : |s| < 2 ^ (f.precision - 1 + e))
    (hq : 2 ^ (f.precision - 1 + e) ≤ q) : |q - v * 2 ^ e| < |q - s| := by
  have hpow : (2 : ℚ) ^ (f.precision - 1 + e) = (2 ^ (f.precision - 1) : Int) * 2 ^ e := by
    rw [zpow_add₀ (by decide), ← Nat.cast_pred hprecision, zpow_natCast]
    push_cast
    rfl
  have hle : |q - v * 2 ^ e| ≤ |q - 2 ^ (f.precision - 1 + e)| := by
    rw [hpow]
    by_cases hne : (2 ^ (f.precision - 1) : Int) = v
    · rw [hne]
    · exact (abs_sub_mul_le (by positivity) hnear hne).1
  calc |q - v * 2 ^ e| ≤ q - 2 ^ (f.precision - 1 + e) := by
        rwa [abs_of_nonneg (sub_nonneg.mpr hq)] at hle
    _ < q - s := sub_lt_sub_left (lt_of_abs_lt hs) q
    _ ≤ |q - s| := le_abs_self _

/-- The quotient kept is the number of the format that is nearest to the exact one. -/
theorem nearest_quotientAt (hf : f.Proper) (hp : 1 < f.precision) (hn : n ≠ 0) (hd : 0 < d)
    (hfits : ¬ f.Overflows n d) :
    f.Nearest ((n : ℚ) / d)
      (quotientAt n d (f.lastExponent n d) * 2 ^ f.lastExponent n d) := by
  have hcases := fun s (hs : f.IsNumber s) => hs.multiple_or_below hn hd
  obtain ⟨hnear, heven⟩ := quotientAt_near (n := n) hd (f.lastExponent n d)
  have hmantissa : quotientAt n d (f.lastExponent n d) ≤ 2 ^ f.precision :=
    quotientAt_le hd (lt_zpow_lastExponent hn hd)
  have hleast : f.minExponent ≤ f.lastExponent n d := le_max_left _ _
  have hgreatest : f.lastExponent n d ≤ f.maxExponent := not_lt.mp fun h => hfits (.inl h)
  have htop : f.lastExponent n d = f.maxExponent →
      quotientAt n d (f.lastExponent n d) < 2 ^ f.precision :=
    fun h => not_le.mp fun hle => hfits (.inr ⟨h, hle⟩)
  generalize f.lastExponent n d = e at *
  generalize (n : ℚ) / d = q at *
  obtain ⟨v, hv⟩ : ∃ v : Int, v = quotientAt n d e := ⟨_, rfl⟩
  have hcast : (quotientAt n d e : ℚ) = v := by rw [hv, Int.cast_natCast]
  have habs : |v| = quotientAt n d e := by rw [hv, Nat.abs_cast]
  rw [hcast] at hnear heven ⊢
  obtain ⟨l, g, hl, hvalue, hlast⟩ := exists_allows_of_le hf.1
    (by rw [habs]; exact_mod_cast hmantissa) hleast hgreatest
    (fun h => by rw [habs]; exact_mod_cast htop h)
  refine ⟨⟨l, g, hl, hvalue⟩, ?_, ?_⟩
  · intro s hs
    rcases hcases s hs with ⟨j, rfl⟩ | ⟨hsmall, hq⟩
    · by_cases hj : j = v
      · rw [hj]
      · exact (abs_sub_mul_le (by positivity) hnear hj).1
    · exact (abs_sub_lt_of_below hf.1 hnear hsmall hq).le
  · intro s hs hne heq
    rcases hcases s hs with ⟨j, rfl⟩ | ⟨hsmall, hq⟩
    · have hj : j ≠ v := by
        rintro rfl
        exact hne rfl
      have hdvd := heven ((abs_sub_mul_le (by positivity) hnear hj).2 heq)
      exact ⟨l, g, hl, hlast (by rw [hv]; exact_mod_cast hdvd) hp, hvalue⟩
    · exact absurd heq (abs_sub_lt_of_below hf.1 hnear hsmall hq).ne'

theorem Nearest.signed (h : f.Nearest q r) (negative : Bool) :
    f.Nearest (Number.signed negative q) (Number.signed negative r) := by
  cases negative with
  | false => exact h
  | true => exact h.neg

theorem abs_signed (negative : Bool) (q : ℚ) : |Number.signed negative q| = |q| := by
  cases negative with
  | false => rfl
  | true => exact abs_neg q

theorem nearest_zero (hf : f.Proper) (hq : |q| * 2 < 2 ^ f.minExponent) : f.Nearest q 0 := by
  have haway : ∀ s, f.IsNumber s → s ≠ 0 → |q - 0| < |q - s| := by
    rintro s ⟨k, e, hk, rfl⟩ hne
    have hpos : (0 : ℚ) < 2 ^ e := by positivity
    have hk0 : k ≠ 0 := by
      rintro rfl
      exact hne (by simp)
    have hone : (1 : ℚ) ≤ |(k : ℚ)| := by exact_mod_cast Int.one_le_abs hk0
    have hpow : (2 : ℚ) ^ f.minExponent ≤ 2 ^ e := zpow_le_zpow_right₀ (by decide) hk.least
    have hle : (2 : ℚ) ^ e ≤ |(k : ℚ) * 2 ^ e| := by
      rw [abs_mul, abs_of_pos hpos]
      exact le_mul_of_one_le_left hpos.le hone
    have htriangle := abs_sub_abs_le_abs_sub ((k : ℚ) * 2 ^ e) q
    rw [abs_sub_comm] at htriangle
    rw [sub_zero]
    linarith
  refine ⟨isNumber_zero hf, fun s hs => ?_, fun s hs hne heq => ?_⟩
  · by_cases hne : s = 0
    · rw [hne]
    · exact (haway s hs hne).le
  · exact absurd heq (haway s hs hne).ne'

theorem rounds_zero (hf : f.Proper) (negative : Bool) (hq : |q| * 2 < 2 ^ f.minExponent) :
    f.Rounds q (.zero negative) := by
  have hzero : Number.signed negative (((0 : Nat) : ℚ) * 2 ^ (0 : Int)) = 0 := by
    cases negative <;> simp [Number.signed]
  have hone : (1 : ℚ) ≤ 2 ^ f.precision := one_le_pow₀ (by decide)
  have hpow : (2 : ℚ) ^ f.minExponent ≤ 2 ^ f.maxExponent := zpow_le_zpow_right₀ (by decide) hf.2
  have hhalf : 1 / 2 * (2 : ℚ) ^ f.maxExponent ≤ f.overflow :=
    mul_le_mul_of_nonneg_right (by linarith) (by positivity)
  refine ⟨by linarith, ?_⟩
  rw [hzero]
  exact nearest_zero hf hq

theorem rounds_round (hf : f.Proper) (hp : 1 < f.precision) (hd : 0 < d) :
    f.Rounds (Number.signed negative ((n : ℚ) / d)) (f.round negative n d) := by
  by_cases hn : n = 0
  · have hzero : Number.signed negative ((n : ℚ) / d) = 0 := by
      cases negative <;> simp [Number.signed, hn]
    rw [hzero, hn, round_zero]
    exact rounds_zero hf negative (by rw [abs_zero, zero_mul]; positivity)
  · have hpos : (0 : ℚ) < (n : ℚ) / d := by positivity
    rw [round_of_ne_zero hn]
    split
    · rename_i hlarge
      refine ⟨?_, ?_⟩
      · rw [abs_signed, abs_of_pos hpos]
        exact (overflows_iff hf hn hd).mp hlarge
      · cases negative with
        | false => simpa [Number.signed] using hpos.le
        | true => simpa [Number.signed] using hpos
    · rename_i hfits
      obtain ⟨m, e, hparts, hvalue⟩ := Binary.exists_ofParts_eq negative
        (quotientAt n d (f.lastExponent n d)) (f.lastExponent n d)
      rw [hparts]
      refine ⟨?_, ?_⟩
      · rw [abs_signed, abs_of_pos hpos]
        exact not_le.mp fun hle => hfits ((overflows_iff hf hn hd).mpr hle)
      · rw [hvalue]
        exact (nearest_quotientAt hf hp hn hd hfits).signed negative

theorem rounds_convert (hf : f.Proper) (hp : 1 < f.precision) (negative : Bool) (m : Nat)
    (e : Int) :
    f.Rounds (Number.signed negative (m * 2 ^ e)) (f.convert (.finite negative m e)) := by
  obtain ⟨hd, hvalue⟩ := ratio_pos_and_eq m e
  rw [← hvalue]
  have hconvert : f.convert (.finite negative m e) =
      f.round negative (Binary.ratio m e).1 (Binary.ratio m e).2 := by
    rw [convert, Binary.ratio]
    split <;> rfl
  rw [hconvert]
  exact rounds_round hf hp hd

end Rounding

section Decimals

variable {negative : Bool} {c : Nat} {e : Int}

theorem rounds_of_decimal_small (h : e + (digits c).length < -400) :
    double.Rounds (signed negative (c * 10 ^ e)) (.zero negative) := by
  have hnonneg : (0 : ℚ) ≤ c * 10 ^ e := by positivity
  apply rounds_zero proper_double
  rw [abs_signed, abs_of_nonneg hnonneg]
  calc (c : ℚ) * 10 ^ e * 2 < 10 ^ (e + (digits c).length) * 2 :=
        mul_lt_mul_of_pos_right (lt_zpow_ten c e) (by decide)
    _ ≤ 10 ^ (-((401 : Nat) : Int)) * 2 :=
        mul_le_mul_of_nonneg_right (zpow_le_zpow_right₀ (by decide) (by omega)) (by decide)
    _ ≤ 2 ^ (-((1074 : Nat) : Int)) := by
        rw [zpow_neg, zpow_neg, zpow_natCast, zpow_natCast, ← div_eq_inv_mul,
          div_le_iff₀ (by positivity), ← div_eq_inv_mul, le_div_iff₀ (by positivity), ← pow_succ']
        exact two_pow_le_ten_pow (by decide)

theorem rounds_of_decimal_large (hc : c ≠ 0) (h : 400 < e + (digits c).length) :
    double.Rounds (signed negative (c * 10 ^ e)) (.infinite negative) := by
  have hpos : (0 : ℚ) < c * 10 ^ e := by positivity
  refine ⟨?_, ?_⟩
  · rw [abs_signed, abs_of_pos hpos]
    calc double.overflow ≤ 2 ^ 53 * 2 ^ ((971 : Nat) : Int) :=
          mul_le_mul_of_nonneg_right (by simp [double]) (by positivity)
      _ = 2 ^ 1024 := by rw [zpow_natCast, ← pow_add]
      _ ≤ 10 ^ ((400 : Nat) : Int) := by
          rw [zpow_natCast]
          exact two_pow_le_ten_pow (by decide)
      _ ≤ 10 ^ (e + (digits c).length - 1) := zpow_le_zpow_right₀ (by decide) (by omega)
      _ ≤ c * 10 ^ e := zpow_ten_le hc e
  · cases negative with
    | false => simpa [signed] using hpos.le
    | true => simpa [signed] using hpos

/-- A decimal is rounded to the nearest double, though far from the point it is not expanded. -/
theorem rounds_roundDecimal (negative : Bool) (c : Nat) (e : Int) :
    double.Rounds (signed negative (c * 10 ^ e)) (double.roundDecimal negative c e) := by
  by_cases hc : c = 0
  · have hzero : signed negative ((c : ℚ) * 10 ^ e) = 0 := by
      cases negative <;> simp [signed, hc]
    rw [roundDecimal_of_small (.inl hc), hzero]
    exact rounds_zero proper_double negative (by rw [abs_zero, zero_mul]; positivity)
  by_cases hlow : e + (digits c).length < -400
  · rw [roundDecimal_of_small (.inr hlow)]
    exact rounds_of_decimal_small hlow
  by_cases hhigh : 400 < e + (digits c).length
  · rw [roundDecimal_of_large hc hhigh]
    exact rounds_of_decimal_large hc hhigh
  · obtain ⟨n, d, hd, hvalue⟩ := exists_quotient_eq c e
    rw [roundDecimal_eq_round hc (not_lt.mp hlow) (not_lt.mp hhigh) hd hvalue, ← hvalue]
    exact rounds_round proper_double (by decide) hd

end Decimals

section Twice

variable {f g : Format} {q r y : ℚ}

theorem exists_nearest (hf : f.Proper) (hp : 1 < f.precision) (hq : |q| < f.overflow) :
    ∃ r, f.Nearest q r := by
  have hsigned : q = signed (decide (q < 0)) (q.num.natAbs / q.den) := by
    have habs : ((q.num.natAbs : ℚ)) / q.den = |q| := by
      rw [← Rat.num_div_den |q|, Rat.num_abs_eq_abs_num, Rat.den_abs_eq_den, Nat.cast_natAbs]
    rw [habs, signed]
    split
    · rename_i hneg
      rw [abs_of_neg (of_decide_eq_true hneg), neg_neg]
    · rename_i hneg
      rw [abs_of_nonneg (not_lt.mp fun h => hneg (decide_eq_true h))]
  have hrounds : f.Rounds (signed (decide (q < 0)) (q.num.natAbs / q.den))
      (f.round (decide (q < 0)) q.num.natAbs q.den) := rounds_round hf hp q.den_pos
  rw [← hsigned] at hrounds
  cases h : f.round (decide (q < 0)) q.num.natAbs q.den with
  | finite s m e =>
      rw [h] at hrounds
      exact ⟨_, hrounds.2⟩
  | infinite s =>
      rw [h] at hrounds
      exact absurd hq (not_lt.mpr hrounds.1)
  | nan =>
      rw [h] at hrounds
      exact hrounds.elim

theorem Finer.isNumber_overflow (h : f.Finer g) (hf : f.Proper) : g.IsNumber f.overflow := by
  have hpos : (0 : Int) < 2 ^ f.precision := by positivity
  have hk : f.Allows (2 ^ f.precision - 1) f.maxExponent :=
    ⟨abs_lt.mpr (by omega), hf.2, le_refl _⟩
  have hnumber := h.isNumber_half hk (.inl rfl)
  have hoverflow : f.overflow * 2 =
      (2 * (2 ^ f.precision - 1) + 1 : Int) * 2 ^ f.maxExponent := by
    rw [overflow]
    push_cast
    ring
  rw [← half_eq] at hoverflow
  rwa [mul_right_cancel₀ (by decide) hoverflow]

theorem Finer.abs_lt_overflow (h : f.Finer g) (hf : f.Proper) (hy : g.Nearest q y)
    (hlt : |y| < f.overflow) : |q| < f.overflow := by
  have hnumber := h.isNumber_overflow hf
  by_contra hge
  rcases le_abs.mp (not_lt.mp hge) with hle | hle
  · exact absurd (lt_of_abs_lt hlt) (not_lt.mpr (hy.le_of_le hnumber hle))
  · exact absurd (abs_neg y ▸ hlt)
      (not_lt.mpr (le_trans (hy.neg.le_of_le hnumber hle) (le_abs_self _)))

/-- Who rounds to a finer format first finds the nearest number, unless the finer number is half-way
between it and another one. -/
theorem Nearest.of_finer (h : f.Finer g) (hf : f.Proper) (hp : 1 < f.precision)
    (hy : g.Nearest q y) (hlt : |y| < f.overflow) (hr : f.Nearest y r) :
    f.Nearest q r ∨ y ≠ q ∧ f.IsEven r ∧ ∃ s, f.Nearest q s ∧ s ≠ r ∧ 2 * y = r + s := by
  obtain ⟨s, hs⟩ := exists_nearest hf hp (h.abs_lt_overflow hf hy hlt)
  by_cases hne : s = r
  · exact .inl (hne ▸ hs)
  · obtain ⟨hinexact, hmiddle⟩ := (hy.twice hf.1 h hr hs).resolve_left (Ne.symm hne)
    refine .inr ⟨hinexact, hr.even s hs.number hne ?_, s, hs, hne, hmiddle⟩
    rw [abs_sub_comm, show s - y = y - r by linarith]

end Twice

end Format

end HostedLisp.Number
