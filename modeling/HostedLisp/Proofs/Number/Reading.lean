import HostedLisp.Proofs.Number.Rounding
import HostedLisp.Proofs.Number.Spelling
import Mathlib.Tactic.NormNum

namespace HostedLisp.Number

namespace Format

variable {f : Format} {negative : Bool} {c : Nat} {e : Int}

theorem zpow_ten_le (hc : c ≠ 0) (e : Int) :
    (10 : ℚ) ^ (e + (digits c).length - 1) ≤ c * 10 ^ e := by
  have hlength := List.length_pos_iff.mpr (digits_ne_nil c)
  have hle : ((pow10 ((digits c).length - 1) : Nat) : ℚ) ≤ c := by
    exact_mod_cast pow10_length_digits_le hc
  rw [show e + (digits c).length - 1 = (((digits c).length - 1 : Nat) : Int) + e by omega,
    zpow_add₀ (by decide), zpow_natCast, ← cast_pow10]
  gcongr

theorem lt_zpow_ten (c : Nat) (e : Int) : (c : ℚ) * 10 ^ e < 10 ^ (e + (digits c).length) := by
  have hlt : (c : ℚ) < (pow10 (digits c).length : Nat) := by exact_mod_cast lt_pow10_length_digits c
  rw [add_comm, zpow_add₀ (by decide), zpow_natCast, ← cast_pow10]
  gcongr

theorem roundDecimal_of_small (h : c = 0 ∨ e + (digits c).length < -400) :
    f.roundDecimal negative c e = .zero negative := by
  rw [roundDecimal, if_pos h]

theorem roundDecimal_of_large (hc : c ≠ 0) (h : 400 < e + (digits c).length) :
    f.roundDecimal negative c e = .infinite negative := by
  have hsmall : ¬ (c = 0 ∨ e + (digits c).length < -400) := by
    rintro (h0 | hlt)
    · exact hc h0
    · omega
  rw [roundDecimal, if_neg hsmall, if_pos h]

/-- Within four hundred places of the point a decimal is rounded as the quotient it stands for. -/
theorem roundDecimal_eq_round (hc : c ≠ 0) (hlow : -400 ≤ e + (digits c).length)
    (hhigh : e + (digits c).length ≤ 400) {n d : Nat} (hd : 0 < d)
    (h : (n : ℚ) / d = c * 10 ^ e) : f.roundDecimal negative c e = f.round negative n d := by
  have hdq : (d : ℚ) ≠ 0 := by exact_mod_cast hd.ne'
  have hsmall : ¬ (c = 0 ∨ e + (digits c).length < -400) := by
    rintro (h0 | hlt)
    · exact hc h0
    · omega
  rw [roundDecimal, if_neg hsmall, if_neg (by omega)]
  split
  · rename_i he
    apply round_congr Nat.one_pos hd
    rw [zpow_ten_of_nonneg he, div_eq_iff hdq] at h
    rw [Nat.mul_one]
    exact_mod_cast h.symm
  · rename_i he
    have hp : (pow10 (-e).toNat : ℚ) ≠ 0 := by exact_mod_cast (pow10_pos _).ne'
    apply round_congr (pow10_pos _) hd
    rw [zpow_ten_of_neg he, ← div_eq_mul_inv, div_eq_div_iff hdq hp] at h
    exact_mod_cast h.symm

theorem exists_quotient_eq (c : Nat) (e : Int) :
    ∃ n d : Nat, 0 < d ∧ (n : ℚ) / d = c * 10 ^ e := by
  by_cases he : 0 ≤ e
  · refine ⟨c * pow10 e.toNat, 1, Nat.one_pos, ?_⟩
    rw [zpow_ten_of_nonneg he]
    push_cast
    ring
  · refine ⟨c, pow10 (-e).toNat, pow10_pos _, ?_⟩
    rw [zpow_ten_of_neg he, div_eq_mul_inv]

theorem roundDecimal_mul_pow10 (c : Nat) (e : Int) (k : Nat) :
    f.roundDecimal negative (c * pow10 k) (e - k) = f.roundDecimal negative c e := by
  by_cases hc : c = 0
  · rw [hc, Nat.zero_mul, roundDecimal_of_small (.inl rfl), roundDecimal_of_small (.inl rfl)]
  · have hck : c * pow10 k ≠ 0 := Nat.mul_ne_zero hc (pow10_pos k).ne'
    have hadjusted : e - k + (digits (c * pow10 k)).length = e + (digits c).length := by
      rw [digits_mul_pow10 hc, List.length_append, List.length_replicate]
      omega
    by_cases hlow : -400 ≤ e + (digits c).length
    · by_cases hhigh : e + (digits c).length ≤ 400
      · obtain ⟨n, d, hd, h⟩ := exists_quotient_eq c e
        have h' : (n : ℚ) / d = (c * pow10 k : Nat) * 10 ^ (e - k) := by
          rw [h, zpow_sub₀ (by decide), zpow_natCast]
          push_cast
          rw [cast_pow10]
          field_simp
        rw [roundDecimal_eq_round hc hlow hhigh hd h,
          roundDecimal_eq_round hck (by omega) (by omega) hd h']
      · rw [roundDecimal_of_large hck (by omega), roundDecimal_of_large hc (by omega)]
    · rw [roundDecimal_of_small (.inr (by omega)), roundDecimal_of_small (.inr (by omega))]

theorem holds_roundDecimal (hf : f.Proper)
    (hfinite : (f.roundDecimal negative c e).isFinite = true) :
    f.Holds (f.roundDecimal negative c e) := by
  rw [roundDecimal] at hfinite ⊢
  split at hfinite
  · rename_i hzero
    rw [if_pos hzero]
    exact .inl ⟨rfl, rfl⟩
  · rename_i hzero
    rw [if_neg hzero]
    split at hfinite
    · cases hfinite
    · rename_i hlarge
      rw [if_neg hlarge]
      split at hfinite
      · rename_i he
        rw [if_pos he]
        exact holds_round hf Nat.one_pos hfinite
      · rename_i he
        rw [if_neg he]
        exact holds_round hf (pow10_pos _) hfinite

theorem holds_ofDecimal (hf : f.Proper) {x : Decimal} (hfinite : (f.ofDecimal x).isFinite = true) :
    f.Holds (f.ofDecimal x) := by
  cases x with
  | finite negative c e => exact holds_roundDecimal hf hfinite
  | infinite => cases hfinite
  | nan => cases hfinite

theorem holds_convert (hf : f.Proper) {x : Binary} (hfinite : (f.convert x).isFinite = true) :
    f.Holds (f.convert x) := by
  cases x with
  | finite negative m e =>
      rw [convert] at hfinite ⊢
      split at hfinite
      · rename_i he
        rw [if_pos he]
        exact holds_round hf Nat.one_pos hfinite
      · rename_i he
        rw [if_neg he]
        exact holds_round hf (pow2_pos _) hfinite
  | infinite => cases hfinite
  | nan => cases hfinite

theorem ratio_pos_and_eq (m : Nat) (e : Int) :
    0 < (Binary.ratio m e).2 ∧ ((Binary.ratio m e).1 : ℚ) / (Binary.ratio m e).2 = m * 2 ^ e := by
  unfold Binary.ratio
  split
  · rename_i he
    refine ⟨Nat.one_pos, ?_⟩
    rw [zpow_two_of_nonneg he]
    push_cast
    ring
  · rename_i he
    refine ⟨pow2_pos _, ?_⟩
    rw [zpow_two_of_neg he, div_eq_mul_inv]

theorem convert_of_holds (hf : f.Proper) {x : Binary} (hx : f.Holds x) : f.convert x = x := by
  cases x with
  | finite negative m e =>
      obtain ⟨hd, h⟩ := ratio_pos_and_eq m e
      unfold Binary.ratio at hd h
      rw [convert]
      split
      · rename_i he
        rw [if_pos he] at hd h
        exact round_of_holds hf hx hd h
      · rename_i he
        rw [if_neg he] at hd h
        exact round_of_holds hf hx hd h
  | infinite => cases hx
  | nan => cases hx

theorem holds_double_of_single {x : Binary} (hx : single.Holds x) : double.Holds x := by
  cases x with
  | finite negative m e =>
      rcases hx with hzero | ⟨hodd, hmin, hm, hmax⟩
      · exact .inl hzero
      · have hpow : pow2 single.precision ≤ pow2 double.precision := by decide
        refine .inr ⟨hodd, ?_, by omega, ?_⟩
        · change (-149 : Int) ≤ e at hmin
          change (-1074 : Int) ≤ e
          omega
        · change (m.log2 : Int) + e ≤ 104 + 24 - 1 at hmax
          change (m.log2 : Int) + e ≤ 971 + 53 - 1
          omega
  | infinite => cases hx
  | nan => cases hx

end Format

section Shortest

variable {negative : Bool} {m : Nat} {e : Int}

theorem exactCandidate_eq (m : Nat) (e : Int) :
    ((exactCandidate m e).coefficient : ℚ) * 10 ^ (exactCandidate m e).exponent = m * 2 ^ e := by
  unfold exactCandidate
  split
  · rename_i he
    rw [zpow_two_of_nonneg he]
    push_cast
    simp
  · rename_i he
    have hten : (pow10 (-e).toNat : ℚ) = pow2 (-e).toNat * pow5 (-e).toNat := by
      exact_mod_cast Nat.mul_pow 2 5 (-e).toNat
    have hfive : (pow5 (-e).toNat : ℚ) ≠ 0 := by exact_mod_cast (Nat.pow_pos (by decide)).ne'
    rw [zpow_ten_of_neg he, zpow_two_of_neg he, hten]
    push_cast
    field_simp

theorem two_pow_le_ten_pow {a b : Nat} (h : a ≤ 3 * b) : (2 : ℚ) ^ a ≤ 10 ^ b := by
  calc (2 : ℚ) ^ a ≤ 2 ^ (3 * b) := pow_le_pow_right₀ (by decide) h
    _ = (2 ^ 3) ^ b := pow_mul 2 3 b
    _ ≤ 10 ^ b := pow_le_pow_left₀ (by decide) (by decide) b

theorem readsBack_exactCandidate (hx : Format.double.Holds (.finite negative m e)) :
    (exactCandidate m e).readsBack negative (.finite negative m e) = true := by
  rw [Candidate.readsBack, beq_iff_eq]
  have hvalue := exactCandidate_eq m e
  obtain ⟨c, hc⟩ : ∃ c, c = exactCandidate m e := ⟨_, rfl⟩
  rw [← hc] at hvalue ⊢
  rcases hx with ⟨rfl, rfl⟩ | ⟨hodd, hmin, hm, hmax⟩
  · rw [hc]
    exact Format.roundDecimal_of_small (.inl rfl)
  · change (-1074 : Int) ≤ e at hmin
    change (m.log2 : Int) + e ≤ 971 + 53 - 1 at hmax
    have hmne : m ≠ 0 := by omega
    have hone : (1 : ℚ) ≤ m := by exact_mod_cast Nat.pos_of_ne_zero hmne
    have hpos : (0 : ℚ) < m * 2 ^ e := by positivity
    have hcne : c.coefficient ≠ 0 := by
      intro h0
      rw [h0, Nat.cast_zero, zero_mul] at hvalue
      exact absurd hvalue hpos.ne
    have hlow : (10 : ℚ) ^ (-400 : Int) ≤ m * 2 ^ e := by
      calc (10 : ℚ) ^ (-400 : Int) ≤ 1 * 2 ^ (-1074 : Int) := by
            change (10 : ℚ) ^ (-((400 : Nat) : Int)) ≤ 1 * 2 ^ (-((1074 : Nat) : Int))
            rw [one_mul, zpow_neg, zpow_neg, zpow_natCast, zpow_natCast]
            exact inv_anti₀ (by positivity) (two_pow_le_ten_pow (by decide))
        _ ≤ m * 2 ^ e := by
          have := zpow_le_zpow_right₀ (show (1 : ℚ) ≤ 2 by decide) hmin
          gcongr
    have hhigh : (m : ℚ) * 2 ^ e < 10 ^ ((399 : Nat) : Int) := by
      have hlt : (m : ℚ) < 2 ^ (m.log2 + 1) := by exact_mod_cast Nat.lt_log2_self
      calc (m : ℚ) * 2 ^ e < 2 ^ (m.log2 + 1) * 2 ^ e := by gcongr
        _ = 2 ^ (((m.log2 + 1 : Nat) : Int) + e) := by
          rw [zpow_add₀ (by decide), zpow_natCast]
        _ ≤ 2 ^ ((1024 : Nat) : Int) := zpow_le_zpow_right₀ (by decide) (by omega)
        _ ≤ 10 ^ ((399 : Nat) : Int) := by
          rw [zpow_natCast, zpow_natCast]
          exact two_pow_le_ten_pow (by decide)
    rw [← hvalue] at hlow hhigh
    have hlow' : (-400 : Int) < c.exponent + (digits c.coefficient).length :=
      (zpow_lt_zpow_iff_right₀ (show (1 : ℚ) < 10 by decide)).mp
        (lt_of_le_of_lt hlow (Format.lt_zpow_ten _ _))
    have hhigh' : c.exponent + (digits c.coefficient).length - 1 < 399 :=
      (zpow_lt_zpow_iff_right₀ (show (1 : ℚ) < 10 by decide)).mp
        (lt_of_le_of_lt (Format.zpow_ten_le hcne _) hhigh)
    obtain ⟨hd, hratio⟩ := Format.ratio_pos_and_eq m e
    rw [Format.roundDecimal_eq_round hcne (by omega) (by omega) hd (hratio.trans hvalue.symm)]
    exact Format.round_of_holds Format.proper_double (.inr ⟨hodd, hmin, hm, hmax⟩) hd hratio

theorem roundDecimal_shortestDecimal (hx : Format.double.Holds (.finite negative m e)) :
    Format.double.roundDecimal negative (Binary.shortestDecimal negative m e).coefficient
      (Binary.shortestDecimal negative m e).exponent = .finite negative m e := by
  unfold Binary.shortestDecimal
  split
  · rename_i hm
    rw [Format.roundDecimal_of_small (.inl rfl)]
    rcases hx with ⟨rfl, rfl⟩ | ⟨hodd, -⟩
    · rfl
    · omega
  · exact beq_iff_eq.mp (readsBack_shortest (readsBack_exactCandidate hx))

end Shortest

/-- The literal of a double, without its suffix, reads back as the double. -/
theorem readDouble?_positionalText {x : Binary} (hx : Format.double.Holds x) :
    readDouble? x.positionalText = some x := by
  cases x with
  | finite negative m e =>
      obtain ⟨k, hk⟩ := Binary.isSpelling_positionalText negative m e
      rw [readDouble?, Decimal.read?_of_isSpelling hk, Option.map_some, Format.ofDecimal,
        Format.roundDecimal_mul_pow10, roundDecimal_shortestDecimal hx]
  | infinite => cases hx
  | nan => cases hx

theorem readSingle?_of_readDouble? {s : List Char} {x : Binary} (hx : Format.single.Holds x)
    (h : readDouble? s = some x) : readSingle? s = some x := by
  have hconvert := Format.convert_of_holds Format.proper_single hx
  rw [readSingle?, h, Option.bind_some, toSingle?, hconvert]
  simp

theorem readSingle?_positionalText {x : Binary} (hx : Format.single.Holds x) :
    readSingle? x.positionalText = some x :=
  readSingle?_of_readDouble? hx (readDouble?_positionalText (Format.holds_double_of_single hx))

theorem holds_of_readDouble? {s : List Char} {x : Binary} (h : readDouble? s = some x)
    (hfinite : x.isFinite = true) : Format.double.Holds x := by
  obtain ⟨d, -, rfl⟩ := Option.map_eq_some_iff.mp h
  exact Format.holds_ofDecimal Format.proper_double hfinite

theorem exists_double_of_readSingle? {s : List Char} {x : Binary} (h : readSingle? s = some x) :
    ∃ y, readDouble? s = some y ∧ Format.single.convert y = x ∧
      (y.isFinite = true → x.isFinite = true) := by
  obtain ⟨y, hy, hsingle⟩ := Option.bind_eq_some_iff.mp h
  unfold toSingle? at hsingle
  dsimp only at hsingle
  split at hsingle
  · cases hsingle
  · rename_i hfits
    obtain rfl := Option.some.inj hsingle
    exact ⟨y, hy, rfl, by simpa using hfits⟩

theorem holds_of_readSingle? {s : List Char} {x : Binary} (h : readSingle? s = some x)
    (hfinite : x.isFinite = true) : Format.single.Holds x := by
  obtain ⟨y, -, rfl, -⟩ := exists_double_of_readSingle? h
  exact Format.holds_convert Format.proper_single hfinite

theorem readInteger?_integerText {n : Int} (h : n.natAbs < pow10 digitLimit) :
    readInteger? (integerText n) = some n := by
  have hlength := length_digits_le (show 0 < digitLimit by decide) h
  have hdigits : (digits n.natAbs).all isDigit = true :=
    List.all_eq_true.mpr fun x hx => isDigit_of_mem_digits hx
  have hne := digits_ne_nil n.natAbs
  cases n with
  | ofNat m =>
      have hminus : ∀ rest, digits m ≠ '-' :: rest := by
        intro rest heq
        exact absurd (isDigit_of_mem_digits (heq ▸ List.mem_cons_self)) (by decide)
      change readInteger? (digits m) = some (m : Int)
      unfold readInteger?
      split
      rename_i negative ds heq
      split at heq
      · rename_i rest hrest
        exact absurd hrest (hminus rest)
      · cases heq
        rw [if_neg, digitsValue_digits]
        · rfl
        · simp_all
  | negSucc m =>
      have hlimit : ¬ ((digits (m + 1)).isEmpty || !(digits (m + 1)).all isDigit ||
          decide (digitLimit < (digits (m + 1)).length)) = true := by
        simp_all
      have hread : readInteger? (integerText (Int.negSucc m)) =
          if ((digits (m + 1)).isEmpty || !(digits (m + 1)).all isDigit ||
            decide (digitLimit < (digits (m + 1)).length)) = true then none
          else some (-(digitsValue (digits (m + 1)) : Int)) := rfl
      rw [hread, if_neg hlimit, digitsValue_digits]
      rfl

theorem natAbs_lt_pow10_digitLimit {n : Int} (hleast : leastInt64 ≤ n)
    (hgreatest : n ≤ greatestInt64) : n.natAbs < pow10 digitLimit := by
  have hpow : pow10 20 ≤ pow10 digitLimit := pow10_le_pow10 (by decide)
  change (-9223372036854775808 : Int) ≤ n at hleast
  change n ≤ 9223372036854775807 at hgreatest
  change 100000000000000000000 ≤ pow10 digitLimit at hpow
  omega

theorem exceedsDigitLimit_of_range {n : Int} (hleast : leastInt64 ≤ n)
    (hgreatest : n ≤ greatestInt64) : exceedsDigitLimit n = false :=
  decide_eq_false (Nat.not_le.mpr (natAbs_lt_pow10_digitLimit hleast hgreatest))

theorem readInt64_integerText {n : Int} (hleast : leastInt64 ≤ n) (hgreatest : n ≤ greatestInt64) :
    readInt64 (integerText n) = .ok n := by
  rw [readInt64, readInteger?_integerText (natAbs_lt_pow10_digitLimit hleast hgreatest)]
  exact if_pos ⟨hleast, hgreatest⟩

theorem range_of_readInt64 {s : List Char} {n : Int} (h : readInt64 s = .ok n) :
    leastInt64 ≤ n ∧ n ≤ greatestInt64 := by
  unfold readInt64 at h
  split at h
  · cases h
  · split at h
    · rename_i hrange
      obtain rfl := Except.ok.inj h
      exact hrange
    · cases h

theorem tenFreePart_zero (e : Int) : tenFreePart 0 e = (0, 0) := by
  rw [tenFreePart, dif_pos rfl]

theorem tenFreePart_mul_pow10 (c : Nat) (e : Int) (k : Nat) :
    tenFreePart (c * pow10 k) (e - k) = tenFreePart c e := by
  induction k generalizing e with
  | zero => simp [pow10]
  | succ k ih =>
      by_cases hc : c = 0
      · rw [hc, Nat.zero_mul, tenFreePart_zero, tenFreePart_zero]
      · have hne : c * pow10 k ≠ 0 := Nat.mul_ne_zero hc (pow10_pos k).ne'
        rw [pow10_succ, ← Nat.mul_assoc, tenFreePart, dif_neg (by omega),
          if_pos (Nat.mul_mod_left _ 10), Nat.mul_div_cancel _ (by decide), ← ih e]
        congr 1
        push_cast
        ring

theorem ofDecimal?_mul_pow10 (negative : Bool) (c : Nat) (e : Int) (k : Nat) :
    Exact.ofDecimal? (.finite negative (c * pow10 k) (e - k)) =
      Exact.ofDecimal? (.finite negative c e) := by
  rw [Exact.ofDecimal?, Exact.ofDecimal?, Exact.ofScaled, Exact.ofScaled, tenFreePart_mul_pow10]

end HostedLisp.Number
