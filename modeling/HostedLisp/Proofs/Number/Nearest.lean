import HostedLisp.Proofs.Number.Magnitude

namespace HostedLisp.Number

namespace Format

/-- Whether a format has the number `k · 2 ^ e` with `e` as the exponent of its last bit. -/
structure Allows (f : Format) (k e : Int) : Prop where
  mantissa : |k| < 2 ^ f.precision
  least : f.minExponent ≤ e
  greatest : e ≤ f.maxExponent

/-- Whether a rational number is one of the format. -/
def IsNumber (f : Format) (r : ℚ) : Prop := ∃ k e : Int, f.Allows k e ∧ r = k * 2 ^ e

/-- Whether a rational number is one of the format whose last bit is zero. -/
def IsEven (f : Format) (r : ℚ) : Prop := ∃ k e : Int, f.Allows k e ∧ 2 ∣ k ∧ r = k * 2 ^ e

/-- Whether `r` is the number of the format that is nearest to `q`, and the even one of two that
are equally near. -/
structure Nearest (f : Format) (q r : ℚ) : Prop where
  number : f.IsNumber r
  closest : ∀ s, f.IsNumber s → |q - r| ≤ |q - s|
  even : ∀ s, f.IsNumber s → s ≠ r → |q - s| = |q - r| → f.IsEven r

section Numbers

variable {f : Format} {k e l g : Int} {q r s : ℚ}

theorem Allows.neg (h : f.Allows k e) : f.Allows (-k) e :=
  ⟨by rw [abs_neg]; exact h.mantissa, h.least, h.greatest⟩

theorem IsNumber.neg (h : f.IsNumber r) : f.IsNumber (-r) := by
  obtain ⟨k, e, hk, rfl⟩ := h
  exact ⟨-k, e, hk.neg, by push_cast; ring⟩

theorem IsEven.neg (h : f.IsEven r) : f.IsEven (-r) := by
  obtain ⟨k, e, hk, heven, rfl⟩ := h
  exact ⟨-k, e, hk.neg, Int.dvd_neg.mpr heven, by push_cast; ring⟩

theorem isNumber_zero (hf : f.Proper) : f.IsNumber 0 :=
  ⟨0, f.minExponent, ⟨by simp, le_refl _, hf.2⟩, by simp⟩

theorem exists_allows_of_le (hp : 0 < f.precision) (hk : |k| ≤ 2 ^ f.precision)
    (hleast : f.minExponent ≤ e) (hgreatest : e ≤ f.maxExponent)
    (htop : e = f.maxExponent → |k| < 2 ^ f.precision) :
    ∃ l g : Int, f.Allows l g ∧ (k : ℚ) * 2 ^ e = l * 2 ^ g ∧
      (2 ∣ k → 1 < f.precision → 2 ∣ l) := by
  rcases hk.lt_or_eq with hlt | heq
  · exact ⟨k, e, ⟨hlt, hleast, hgreatest⟩, rfl, fun h _ => h⟩
  · have hbelow : e ≠ f.maxExponent := fun h => (htop h).ne heq
    obtain ⟨p, hp⟩ := Nat.exists_eq_add_of_lt hp
    rw [Nat.zero_add] at hp
    obtain ⟨j, hj⟩ : (2 : Int) ∣ k := by
      rw [← dvd_abs, heq, hp]
      exact dvd_pow_self 2 (Nat.succ_ne_zero p)
    have hpos : (0 : Int) < 2 ^ p := by positivity
    rw [hj, abs_mul, show |(2 : Int)| = 2 from rfl, hp, pow_succ'] at heq
    have hj' : |j| = 2 ^ p := by omega
    refine ⟨j, e + 1, ⟨?_, by omega, by omega⟩, ?_, ?_⟩
    · rw [hj', hp, pow_succ]
      omega
    · rw [hj, zpow_add₀ (by decide), zpow_one]
      push_cast
      ring
    · intro _ hlt
      rw [← dvd_abs, hj']
      exact dvd_pow_self 2 (by omega)

theorem isNumber_of_le (hp : 0 < f.precision) (hk : |k| ≤ 2 ^ f.precision)
    (hleast : f.minExponent ≤ e) (hgreatest : e ≤ f.maxExponent)
    (htop : e = f.maxExponent → |k| < 2 ^ f.precision) : f.IsNumber (k * 2 ^ e) := by
  obtain ⟨l, g, hl, heq, -⟩ := exists_allows_of_le hp hk hleast hgreatest htop
  exact ⟨l, g, hl, heq⟩

theorem IsNumber.abs_le (h : f.IsNumber r) :
    |r| ≤ (2 ^ f.precision - 1) * 2 ^ f.maxExponent := by
  obtain ⟨k, e, hk, rfl⟩ := h
  have hmantissa : |(k : ℚ)| ≤ 2 ^ f.precision - 1 := by
    exact_mod_cast Int.le_sub_one_of_lt hk.mantissa
  have hpow : (2 : ℚ) ^ e ≤ 2 ^ f.maxExponent := zpow_le_zpow_right₀ (by decide) hk.greatest
  have hpos : (0 : ℚ) < 2 ^ e := by positivity
  rw [abs_mul, abs_of_pos hpos]
  exact mul_le_mul hmantissa hpow hpos.le (le_trans (abs_nonneg _) hmantissa)

theorem next_le (hp : 0 < f.precision) (hk : f.Allows k e) (hs : f.IsNumber s)
    (hlt : (k : ℚ) * 2 ^ e < s) (hnext : ∀ t, f.IsNumber t → (k : ℚ) * 2 ^ e < t → s ≤ t) :
    s ≤ (k + 1 : Int) * 2 ^ e := by
  have hpos : (0 : ℚ) < 2 ^ e := by positivity
  have hstep : (k : ℚ) * 2 ^ e < (k + 1 : Int) * 2 ^ e := by
    push_cast
    linarith
  have hmantissa := abs_lt.mp hk.mantissa
  have hle : |k + 1| ≤ 2 ^ f.precision := by
    rw [abs_le]
    omega
  refine hnext _ (isNumber_of_le hp hle hk.least hk.greatest fun htop => ?_) hstep
  -- Behind the greatest number of the format there is none.
  by_contra hlarge
  have hk' : (k : ℚ) = 2 ^ f.precision - 1 := by
    have : k = 2 ^ f.precision - 1 := by
      have := mt abs_lt.mpr hlarge
      omega
    rw [this]
    push_cast
    rfl
  have hbound := le_trans (le_abs_self s) hs.abs_le
  rw [hk', htop] at hlt
  exact absurd hbound (not_le.mpr hlt)

/-- Two numbers with no other one between them are neighbouring multiples of the smaller of the
powers that they are written with. -/
theorem neighbours_eq (hp : 0 < f.precision) (hk : f.Allows k e) (hl : f.Allows l g)
    (hlt : (k : ℚ) * 2 ^ e < l * 2 ^ g)
    (hnext : ∀ t, f.IsNumber t → (k : ℚ) * 2 ^ e < t → l * 2 ^ g ≤ t) :
    (∃ j : Nat, g = e + j ∧ l * 2 ^ j = k + 1) ∨ ∃ j : Nat, e = g + j ∧ k * 2 ^ j = l - 1 := by
  have hpow (a : Int) (j : Nat) : (2 : ℚ) ^ (a + j) = 2 ^ j * 2 ^ a := by
    rw [add_comm, zpow_add₀ (by decide), zpow_natCast]
  rcases le_total e g with h | h
  · obtain ⟨j, rfl⟩ := Int.le.dest h
    refine .inl ⟨j, rfl, ?_⟩
    have hpos : (0 : ℚ) < 2 ^ e := by positivity
    have hle := next_le hp hk ⟨l, _, hl, rfl⟩ hlt hnext
    rw [hpow, ← mul_assoc] at hlt hle
    have hlt' : k < l * 2 ^ j := by exact_mod_cast lt_of_mul_lt_mul_right hlt hpos.le
    have hle' : l * 2 ^ j ≤ k + 1 := by exact_mod_cast le_of_mul_le_mul_right hle hpos
    omega
  · obtain ⟨j, rfl⟩ := Int.le.dest h
    refine .inr ⟨j, rfl, ?_⟩
    have hpos : (0 : ℚ) < 2 ^ g := by positivity
    -- Seen from zero in the other direction, the first number is the one behind the second.
    have hle := next_le (k := -l) hp hl.neg (IsNumber.neg ⟨k, _, hk, rfl⟩)
      (by push_cast; linarith) (by
        intro t ht hlt'
        by_contra hbetween
        have := hnext (-t) ht.neg (by linarith)
        push_cast at hlt'
        linarith)
    rw [hpow] at hlt hle
    have hlt' : k * 2 ^ j < l := by
      rw [← mul_assoc] at hlt
      exact_mod_cast lt_of_mul_lt_mul_right hlt hpos.le
    have hle' : l - 1 ≤ k * 2 ^ j := by
      have : ((l - 1 : Int) : ℚ) * 2 ^ g ≤ (k * 2 ^ j : Int) * 2 ^ g := by
        push_cast at hle ⊢
        linarith
      exact_mod_cast le_of_mul_le_mul_right this hpos
    omega

end Numbers

namespace Nearest

variable {f g : Format} {q r s y : ℚ}

theorem neg (h : f.Nearest q r) : f.Nearest (-q) (-r) where
  number := h.number.neg
  closest s hs := by
    have := h.closest (-s) hs.neg
    rwa [← abs_neg, ← abs_neg (q - -s), neg_sub', neg_sub', neg_neg] at this
  even s hs hne heq := by
    refine (h.even (-s) hs.neg (fun h => hne (by rw [← h, neg_neg])) ?_).neg
    rwa [← abs_neg, ← abs_neg (q - r), neg_sub', neg_sub', neg_neg]

theorem two_mul_le (hlt : r < s) (h : |q - r| ≤ |q - s|) : 2 * q ≤ r + s := by
  have hsquare := sq_le_sq.mpr h
  nlinarith

theorem le_two_mul (hlt : r < s) (h : |q - s| ≤ |q - r|) : r + s ≤ 2 * q := by
  have hsquare := sq_le_sq.mpr h
  nlinarith

theorem le_of_le (h : f.Nearest q r) (hs : f.IsNumber s) (hle : s ≤ q) : s ≤ r := by
  have hcloser := h.closest s hs
  rw [abs_of_nonneg (sub_nonneg.mpr hle)] at hcloser
  have := le_abs_self (q - r)
  linarith

theorem unique (hp : 0 < f.precision) (hr : f.Nearest q r) (hs : f.Nearest q s) : r = s := by
  by_contra hne
  wlog hlt : r < s generalizing r s
  · exact this hs hr (Ne.symm hne) (lt_of_le_of_ne (not_lt.mp hlt) (Ne.symm hne))
  have hle := hr.closest s hs.number
  have hle' := hs.closest r hr.number
  have hmiddle : 2 * q = r + s := le_antisymm (two_mul_le hlt hle) (le_two_mul hlt hle')
  have hnext : ∀ t, f.IsNumber t → r < t → s ≤ t := by
    intro t ht hrt
    by_contra hts
    have hcloser := hr.closest t ht
    rw [abs_of_pos (by linarith), le_abs] at hcloser
    rcases hcloser with h | h <;> linarith
  obtain ⟨k, e, hk, ⟨a, rfl⟩, hr'⟩ := hr.even s hs.number (Ne.symm hne) (le_antisymm hle' hle)
  obtain ⟨l, g, hl, ⟨b, rfl⟩, hs'⟩ := hs.even r hr.number hne (le_antisymm hle hle')
  rw [hr', hs'] at hlt hnext
  rcases neighbours_eq hp hk hl hlt hnext with ⟨j, -, h⟩ | ⟨j, -, h⟩
  · rw [mul_assoc] at h
    omega
  · rw [mul_assoc] at h
    omega

end Nearest

section Twice

/-- Whether a format has more bits than another one at either end. -/
structure Finer (f g : Format) : Prop where
  precision : f.precision < g.precision
  least : g.minExponent < f.minExponent
  greatest : f.maxExponent ≤ g.maxExponent

theorem finer_single_double : single.Finer double := ⟨by decide, by decide, by decide⟩

variable {f g : Format} {k e : Int} {q r s y : ℚ}

theorem Finer.isNumber (h : f.Finer g) (hr : f.IsNumber r) : g.IsNumber r := by
  obtain ⟨k, e, hk, rfl⟩ := hr
  have hpow : (2 : Int) ^ f.precision ≤ 2 ^ g.precision :=
    pow_le_pow_right₀ (by decide) h.precision.le
  exact ⟨k, e, ⟨lt_of_lt_of_le hk.mantissa hpow, (h.least.le.trans hk.least),
    hk.greatest.trans h.greatest⟩, rfl⟩

theorem Finer.isNumber_half (h : f.Finer g) (hk : f.Allows k e) {m : Int}
    (hm : m = 2 * k + 1 ∨ m = 2 * k - 1) : g.IsNumber (m * 2 ^ (e - 1)) := by
  have hpow : (2 : Int) * 2 ^ f.precision ≤ 2 ^ g.precision := by
    rw [← pow_succ']
    exact pow_le_pow_right₀ (by decide) h.precision
  have hleast := h.least
  have hgreatest := h.greatest
  have hmantissa := abs_lt.mp hk.mantissa
  have hle := hk.least
  have hge := hk.greatest
  refine ⟨m, e - 1, ⟨abs_lt.mpr ⟨?_, ?_⟩, ?_, ?_⟩, rfl⟩ <;> omega

theorem half_eq (m e : Int) : ((m : ℚ) * 2 ^ (e - 1)) * 2 = m * 2 ^ e := by
  rw [mul_assoc, ← zpow_add_one₀ (by decide), sub_add_cancel]

theorem isNumber_middle (hp : 0 < f.precision) (h : f.Finer g) (hr : f.IsNumber r)
    (hs : f.IsNumber s) (hlt : r < s) (hnext : ∀ t, f.IsNumber t → r < t → s ≤ t) :
    g.IsNumber ((r + s) / 2) := by
  obtain ⟨k, e, hk, rfl⟩ := hr
  obtain ⟨l, i, hl, rfl⟩ := hs
  rcases neighbours_eq hp hk hl hlt hnext with ⟨j, rfl, hj⟩ | ⟨j, rfl, hj⟩
  · have hmiddle : ((k : ℚ) * 2 ^ e + l * 2 ^ (e + j)) / 2 = (2 * k + 1 : Int) * 2 ^ (e - 1) := by
      have hj' : (l : ℚ) * 2 ^ j = k + 1 := by exact_mod_cast hj
      rw [div_eq_iff (by decide), half_eq, add_comm e, zpow_add₀ (by decide), zpow_natCast,
        ← mul_assoc, hj']
      push_cast
      ring
    rw [hmiddle]
    exact h.isNumber_half hk (.inl rfl)
  · have hmiddle : ((k : ℚ) * 2 ^ (i + j) + l * 2 ^ i) / 2 = (2 * l - 1 : Int) * 2 ^ (i - 1) := by
      have hj' : (k : ℚ) * 2 ^ j = l - 1 := by exact_mod_cast hj
      rw [div_eq_iff (by decide), half_eq, add_comm i, zpow_add₀ (by decide), zpow_natCast,
        ← mul_assoc, hj']
      push_cast
      ring
    rw [hmiddle]
    exact h.isNumber_half hl (.inr rfl)

theorem Nearest.half_of_lt (hp : 0 < f.precision) (h : f.Finer g) (hy : g.Nearest q y)
    (hr : f.Nearest y r) (hs : f.Nearest q s) (hlt : r < s) : 2 * y = r + s := by
  have hbelow : 2 * y ≤ r + s := two_mul_le hlt (hr.closest s hs.number)
  have habove : r + s ≤ 2 * q := le_two_mul hlt (hs.closest r hr.number)
  have hnext : ∀ t, f.IsNumber t → r < t → s ≤ t := by
    intro t ht hrt
    by_contra hts
    rcases le_or_gt t q with htq | hqt
    · have hty := hy.le_of_le (h.isNumber ht) htq
      have hcloser := hr.closest t ht
      rw [abs_of_pos (by linarith), abs_of_nonneg (by linarith)] at hcloser
      linarith
    · have hcloser := hs.closest t ht
      rw [abs_of_neg (by linarith), abs_of_neg (by linarith)] at hcloser
      linarith
  have hmiddle := hy.le_of_le (isNumber_middle hp h hr.number hs.number hlt hnext) (by linarith)
  linarith

/-- Rounding to a finer format first makes a difference only if the finer number is half-way
between two numbers of the format, and not exact. -/
theorem Nearest.twice (hp : 0 < f.precision) (h : f.Finer g) (hy : g.Nearest q y)
    (hr : f.Nearest y r) (hs : f.Nearest q s) : r = s ∨ y ≠ q ∧ 2 * y = r + s := by
  by_cases hne : r = s
  · exact .inl hne
  · refine .inr ⟨fun hyq => hne ((hyq ▸ hr).unique hp hs), ?_⟩
    rcases lt_or_gt_of_ne hne with hlt | hlt
    · exact half_of_lt hp h hy hr hs hlt
    · have := half_of_lt hp h hy.neg hr.neg hs.neg (neg_lt_neg hlt)
      linarith

end Twice

end Format

end HostedLisp.Number
