import HostedLisp.Number.Numeral
import HostedLisp.Proofs.Number.Digits
import Mathlib.Data.Int.Log
import Mathlib.Data.Rat.Floor
import Mathlib.Algebra.Order.Field.Power
import Mathlib.Tactic.GCongr
import Mathlib.Tactic.FieldSimp
import Mathlib.Tactic.Positivity

namespace HostedLisp.Number

section Powers

variable {e : Int}

theorem pow2_pos (n : Nat) : 0 < pow2 n := Nat.pow_pos (by decide)

theorem cast_pow2 (n : Nat) : (pow2 n : ℚ) = 2 ^ n := by
  change ((2 ^ n : Nat) : ℚ) = 2 ^ n
  push_cast
  rfl

theorem cast_pow10 (n : Nat) : (pow10 n : ℚ) = 10 ^ n := by
  change ((10 ^ n : Nat) : ℚ) = 10 ^ n
  push_cast
  rfl

theorem zpow_two_of_nonneg (he : 0 ≤ e) : (2 : ℚ) ^ e = pow2 e.toNat := by
  rw [cast_pow2, ← zpow_natCast, Int.toNat_of_nonneg he]

theorem zpow_two_of_neg (he : ¬ 0 ≤ e) : (2 : ℚ) ^ e = (pow2 (-e).toNat : ℚ)⁻¹ := by
  rw [cast_pow2, ← zpow_natCast, Int.toNat_of_nonneg (by omega), zpow_neg, inv_inv]

theorem zpow_ten_of_nonneg (he : 0 ≤ e) : (10 : ℚ) ^ e = pow10 e.toNat := by
  rw [cast_pow10, ← zpow_natCast, Int.toNat_of_nonneg he]

theorem zpow_ten_of_neg (he : ¬ 0 ≤ e) : (10 : ℚ) ^ e = (pow10 (-e).toNat : ℚ)⁻¹ := by
  rw [cast_pow10, ← zpow_natCast, Int.toNat_of_nonneg (by omega), zpow_neg, inv_inv]

end Powers

section Quotients

variable {n d : Nat}

theorem zpow_log2_le (hn : n ≠ 0) : (2 : ℚ) ^ (n.log2 : Int) ≤ n := by
  rw [zpow_natCast]
  exact_mod_cast Nat.log2_self_le hn

theorem lt_zpow_log2_succ (n : Nat) : (n : ℚ) < 2 ^ ((n.log2 : Int) + 1) := by
  have h : (n : ℚ) < 2 ^ (n.log2 + 1) := by exact_mod_cast Nat.lt_log2_self
  exact_mod_cast h

/-- The bit length of a quotient, found from those of its parts, is its binary logarithm. -/
theorem floorLog2_eq_log (hn : 0 < n) (hd : 0 < d) : floorLog2 n d = Int.log 2 ((n : ℚ) / d) := by
  have hnq : (0 : ℚ) < n := by exact_mod_cast hn
  have hdq : (0 : ℚ) < d := by exact_mod_cast hd
  have hq : (0 : ℚ) < (n : ℚ) / d := div_pos hnq hdq
  have hn1 := zpow_log2_le hn.ne'
  have hn2 := lt_zpow_log2_succ n
  have hd1 := zpow_log2_le hd.ne'
  have hd2 := lt_zpow_log2_succ d
  obtain ⟨k, hk⟩ : ∃ k : Int, k = (n.log2 : Int) - d.log2 := ⟨_, rfl⟩
  have hlow : (2 : ℚ) ^ (k - 1) ≤ (n : ℚ) / d := by
    rw [le_div_iff₀ hdq]
    calc (2 : ℚ) ^ (k - 1) * d ≤ 2 ^ (k - 1) * 2 ^ ((d.log2 : Int) + 1) := by gcongr
      _ = 2 ^ (n.log2 : Int) := by
        rw [← zpow_add₀ (by decide), hk]
        congr 1
        omega
      _ ≤ n := hn1
  have hhigh : (n : ℚ) / d < 2 ^ (k + 1) := by
    rw [div_lt_iff₀ hdq]
    calc (n : ℚ) < 2 ^ ((n.log2 : Int) + 1) := hn2
      _ = 2 ^ (k + 1) * 2 ^ (d.log2 : Int) := by
        rw [← zpow_add₀ (by decide), hk]
        congr 1
        omega
      _ ≤ 2 ^ (k + 1) * d := by gcongr
  have hlow' : k - 1 ≤ Int.log 2 ((n : ℚ) / d) :=
    (Int.zpow_le_iff_le_log (by decide) hq).mp (by exact_mod_cast hlow)
  have hhigh' : Int.log 2 ((n : ℚ) / d) < k + 1 :=
    (Int.lt_zpow_iff_log_lt (by decide) hq).mp (by exact_mod_cast hhigh)
  have hfits : (if 0 ≤ k then d * pow2 k.toNat ≤ n else d ≤ n * pow2 (-k).toNat) ↔
      k ≤ Int.log 2 ((n : ℚ) / d) := by
    rw [← Int.zpow_le_iff_le_log (by decide) hq, Nat.cast_ofNat, le_div_iff₀ hdq]
    split
    · rename_i hk0
      rw [zpow_two_of_nonneg hk0, mul_comm]
      exact_mod_cast Iff.rfl
    · rename_i hk0
      have hp : (0 : ℚ) < pow2 (-k).toNat := by exact_mod_cast pow2_pos _
      rw [zpow_two_of_neg hk0, inv_mul_le_iff₀ hp, mul_comm]
      exact_mod_cast Iff.rfl
  rw [floorLog2, ← hk]
  by_cases h : if 0 ≤ k then d * pow2 k.toNat ≤ n else d ≤ n * pow2 (-k).toNat
  · have := hfits.mp h
    rw [if_pos h]
    omega
  · have := mt hfits.mpr h
    rw [if_neg h]
    omega

theorem divHalfEven_mul_right (n d : Nat) {k : Nat} (hk : 0 < k) :
    divHalfEven (n * k) (d * k) = divHalfEven n d := by
  have hless : d * k < 2 * (n % d * k) ↔ d < 2 * (n % d) := by
    rw [← Nat.mul_assoc]
    exact Nat.mul_lt_mul_right hk
  have hhalf : 2 * (n % d * k) = d * k ↔ 2 * (n % d) = d := by
    rw [← Nat.mul_assoc]
    exact Nat.mul_left_inj hk.ne'
  simp only [divHalfEven, Nat.mul_div_mul_right n d hk, Nat.mul_mod_mul_right, hless, hhalf]

theorem divHalfEven_mul_self (q : Nat) (hd : 0 < d) : divHalfEven (q * d) d = q := by
  simp [divHalfEven, Nat.mul_div_cancel q hd, hd.ne]

theorem divHalfEven_le_of_lt {q : Nat} (hd : 0 < d) (h : n < q * d) : divHalfEven n d ≤ q := by
  have hdiv : n / d < q := (Nat.div_lt_iff_lt_mul hd).mpr h
  unfold divHalfEven
  dsimp only
  split <;> omega

/-- The integer nearest to `n / d · 2 ^ -e`. -/
def quotientAt (n d : Nat) (e : Int) : Nat :=
  if 0 ≤ e then divHalfEven n (d * pow2 e.toNat) else divHalfEven (n * pow2 (-e).toNat) d

theorem divHalfEven_congr {n' d' : Nat} (hd : 0 < d) (hd' : 0 < d') (h : n * d' = n' * d) :
    divHalfEven n d = divHalfEven n' d' := by
  rw [← divHalfEven_mul_right n d hd', ← divHalfEven_mul_right n' d' hd, h, Nat.mul_comm d d']

theorem quotientAt_congr {n' d' : Nat} (hd : 0 < d) (hd' : 0 < d') (h : n * d' = n' * d) (e : Int) :
    quotientAt n d e = quotientAt n' d' e := by
  unfold quotientAt
  split
  · apply divHalfEven_congr (Nat.mul_pos hd (pow2_pos _)) (Nat.mul_pos hd' (pow2_pos _))
    rw [← Nat.mul_assoc, ← Nat.mul_assoc, h]
  · apply divHalfEven_congr hd hd'
    rw [Nat.mul_right_comm, h, Nat.mul_right_comm]

theorem quotientAt_eq {q : Nat} {e : Int} (hd : 0 < d) (h : (n : ℚ) / d = q * 2 ^ e) :
    quotientAt n d e = q := by
  have hdq : (d : ℚ) ≠ 0 := by exact_mod_cast hd.ne'
  unfold quotientAt
  split
  · rename_i he
    rw [zpow_two_of_nonneg he, div_eq_iff hdq, mul_right_comm, mul_assoc] at h
    have hn : n = q * (d * pow2 e.toNat) := by exact_mod_cast h
    rw [hn]
    exact divHalfEven_mul_self q (Nat.mul_pos hd (pow2_pos _))
  · rename_i he
    have hp : (pow2 (-e).toNat : ℚ) ≠ 0 := by exact_mod_cast (pow2_pos _).ne'
    rw [zpow_two_of_neg he, ← div_eq_mul_inv, div_eq_div_iff hdq hp] at h
    have hn : n * pow2 (-e).toNat = q * d := by exact_mod_cast h
    rw [hn]
    exact divHalfEven_mul_self q hd

theorem quotientAt_le {p : Nat} {e : Int} (hd : 0 < d) (h : (n : ℚ) / d < 2 ^ (p + e)) :
    quotientAt n d e ≤ pow2 p := by
  have hdq : (0 : ℚ) < d := by exact_mod_cast hd
  rw [zpow_add₀ (by decide), zpow_natCast, ← cast_pow2, div_lt_iff₀ hdq] at h
  unfold quotientAt
  split
  · rename_i he
    rw [zpow_two_of_nonneg he, mul_right_comm, mul_assoc] at h
    apply divHalfEven_le_of_lt (Nat.mul_pos hd (pow2_pos _))
    exact_mod_cast h
  · rename_i he
    have hp : (0 : ℚ) < pow2 (-e).toNat := by exact_mod_cast pow2_pos _
    rw [zpow_two_of_neg he, mul_right_comm, ← div_eq_mul_inv, lt_div_iff₀ hp] at h
    apply divHalfEven_le_of_lt hd
    exact_mod_cast h

end Quotients

section OddPart

theorem oddPart_of_odd {m : Nat} (hm : m % 2 = 1) (e : Int) : oddPart m e = (m, e) := by
  rw [oddPart, dif_neg (by omega), if_neg (by omega)]

theorem oddPart_mul_two (m : Nat) (hm : m ≠ 0) (e : Int) :
    oddPart (m * 2) e = oddPart m (e + 1) := by
  rw [oddPart, dif_neg (by omega), if_pos (by omega), Nat.mul_div_cancel m (by decide)]

theorem oddPart_mul_pow2 {m : Nat} (hm : m % 2 = 1) (k : Nat) (e : Int) :
    oddPart (m * pow2 k) e = (m, e + k) := by
  induction k generalizing e with
  | zero =>
      rw [show m * pow2 0 = m from Nat.mul_one m, oddPart_of_odd hm]
      simp
  | succ k ih =>
      have hne : m * pow2 k ≠ 0 := Nat.mul_ne_zero (by omega) (pow2_pos k).ne'
      rw [show m * pow2 (k + 1) = m * pow2 k * 2 from (Nat.mul_assoc m _ 2).symm,
        oddPart_mul_two _ hne, ih]
      congr 1
      push_cast
      ring

theorem exists_oddPart_eq {m : Nat} (hm : m ≠ 0) (e : Int) :
    ∃ q k : Nat, q % 2 = 1 ∧ m = q * pow2 k ∧ oddPart m e = (q, e + k) := by
  induction m, e using oddPart.induct with
  | case1 e => exact absurd rfl hm
  | case2 m e hne heven ih =>
      obtain ⟨q, k, hq, hm', hodd⟩ := ih (by omega)
      refine ⟨q, k + 1, hq, ?_, ?_⟩
      · rw [show q * pow2 (k + 1) = q * pow2 k * 2 from (Nat.mul_assoc q _ 2).symm, ← hm']
        omega
      · rw [oddPart, dif_neg hne, if_pos heven, hodd]
        congr 1
        push_cast
        ring
  | case3 m e hne hodd =>
      have hodd' : m % 2 = 1 := by omega
      exact ⟨m, 0, hodd', (Nat.mul_one m).symm, by rw [oddPart_of_odd hodd']; simp⟩

end OddPart

namespace Format

/-- Whether a finite binary value is one of the format. -/
def Holds (f : Format) : Binary → Prop
  | .finite _ m e => (m = 0 ∧ e = 0) ∨
      (m % 2 = 1 ∧ f.minExponent ≤ e ∧ m < pow2 f.precision ∧
        (m.log2 : Int) + e ≤ f.maxExponent + f.precision - 1)
  | _ => False

/-- Whether a format has values besides zero. -/
def Proper (f : Format) : Prop :=
  0 < f.precision ∧ f.minExponent ≤ f.maxExponent

theorem proper_double : double.Proper := ⟨by decide, by decide⟩

theorem proper_single : single.Proper := ⟨by decide, by decide⟩

/-- The exponent of the last bit that a quotient keeps. -/
def lastExponent (f : Format) (n d : Nat) : Int :=
  max f.minExponent (floorLog2 n d - (f.precision - 1))

variable {f : Format} {negative : Bool} {n d : Nat}

theorem round_zero : f.round negative 0 d = .zero negative := by
  rw [round, if_pos rfl]

theorem round_of_ne_zero (hn : n ≠ 0) :
    f.round negative n d =
      if f.maxExponent < f.lastExponent n d ∨ (f.lastExponent n d = f.maxExponent ∧
          pow2 f.precision ≤ quotientAt n d (f.lastExponent n d)) then
        .infinite negative
      else
        .ofParts negative (quotientAt n d (f.lastExponent n d)) (f.lastExponent n d) := by
  rw [round, if_neg hn]
  rfl

theorem round_congr {n' d' : Nat} (hd : 0 < d) (hd' : 0 < d') (h : n * d' = n' * d) :
    f.round negative n d = f.round negative n' d' := by
  by_cases hn : n = 0
  · have hn' : n' = 0 := by
      rw [hn, Nat.zero_mul] at h
      exact (Nat.mul_eq_zero.mp h.symm).resolve_right hd.ne'
    rw [hn, hn', round_zero, round_zero]
  · have hn' : n' ≠ 0 := by
      rintro rfl
      rw [Nat.zero_mul] at h
      exact (Nat.mul_eq_zero.mp h).elim hn hd'.ne'
    have hdq : (d : ℚ) ≠ 0 := by exact_mod_cast hd.ne'
    have hdq' : (d' : ℚ) ≠ 0 := by exact_mod_cast hd'.ne'
    have hq : (n : ℚ) / d = n' / d' := by
      rw [div_eq_div_iff hdq hdq']
      exact_mod_cast h
    have hlast : f.lastExponent n d = f.lastExponent n' d' := by
      rw [lastExponent, lastExponent, floorLog2_eq_log (Nat.pos_of_ne_zero hn) hd,
        floorLog2_eq_log (Nat.pos_of_ne_zero hn') hd', hq]
    rw [round_of_ne_zero hn, round_of_ne_zero hn', hlast, quotientAt_congr hd hd' h]

theorem log2_mul_pow2 {m : Nat} (hm : m ≠ 0) (k : Nat) : (m * pow2 k).log2 = m.log2 + k := by
  rw [Nat.log2_eq_iff (Nat.mul_ne_zero hm (pow2_pos k).ne'), pow_add, add_right_comm, pow_add]
  exact ⟨Nat.mul_le_mul_right _ (Nat.log2_self_le hm),
    Nat.mul_lt_mul_of_pos_right Nat.lt_log2_self (pow2_pos k)⟩

theorem log_mul_zpow {m : Nat} (hm : m ≠ 0) (e : Int) :
    Int.log 2 ((m : ℚ) * 2 ^ e) = m.log2 + e := by
  have hmq : (0 : ℚ) < m := by exact_mod_cast Nat.pos_of_ne_zero hm
  have hpos : (0 : ℚ) < m * 2 ^ e := by positivity
  have hlow : (2 : ℚ) ^ ((m.log2 : Int) + e) ≤ m * 2 ^ e := by
    rw [zpow_add₀ (by decide)]
    gcongr
    exact zpow_log2_le hm
  have hhigh : (m : ℚ) * 2 ^ e < 2 ^ ((m.log2 : Int) + e + 1) := by
    rw [add_right_comm, zpow_add₀ (by decide)]
    gcongr
    exact lt_zpow_log2_succ m
  have hlow' : (m.log2 : Int) + e ≤ Int.log 2 ((m : ℚ) * 2 ^ e) :=
    (Int.zpow_le_iff_le_log (by decide) hpos).mp (by exact_mod_cast hlow)
  have hhigh' : Int.log 2 ((m : ℚ) * 2 ^ e) < (m.log2 : Int) + e + 1 :=
    (Int.lt_zpow_iff_log_lt (by decide) hpos).mp (by exact_mod_cast hhigh)
  omega

theorem round_of_holds (hf : f.Proper) {m : Nat} {e : Int}
    (hx : f.Holds (.finite negative m e)) (hd : 0 < d) (h : (n : ℚ) / d = m * 2 ^ e) :
    f.round negative n d = .finite negative m e := by
  obtain ⟨-, hrange⟩ := hf
  have hdq : (0 : ℚ) < d := by exact_mod_cast hd
  rcases hx with ⟨rfl, rfl⟩ | ⟨hodd, hmin, hm, hmax⟩
  · have hn : n = 0 := by
      rw [Nat.cast_zero, zero_mul, div_eq_zero_iff] at h
      exact_mod_cast h.resolve_right hdq.ne'
    rw [hn]
    exact round_zero
  · have hmne : m ≠ 0 := by omega
    have hmq : (0 : ℚ) < m := by exact_mod_cast Nat.pos_of_ne_zero hmne
    have hn : n ≠ 0 := by
      rintro rfl
      rw [Nat.cast_zero, zero_div] at h
      exact absurd h.symm (by positivity)
    have hlog : floorLog2 n d = m.log2 + e := by
      rw [floorLog2_eq_log (Nat.pos_of_ne_zero hn) hd, h, log_mul_zpow hmne]
    have hbits : m.log2 < f.precision := (Nat.log2_lt hmne).mpr hm
    -- The last bit kept is not above the last bit of the value, which makes the quotient exact.
    obtain ⟨k, hk⟩ : ∃ k : Nat, e = f.lastExponent n d + k := by
      have hle : f.lastExponent n d ≤ e := by
        rw [lastExponent, hlog]
        omega
      exact Int.le.dest hle |>.imp fun _ => Eq.symm
    have hquotient : quotientAt n d (f.lastExponent n d) = m * pow2 k := by
      apply quotientAt_eq hd
      rw [h, hk, zpow_add₀ (by decide), zpow_natCast]
      push_cast
      rw [cast_pow2]
      ring
    have hlog' := log2_mul_pow2 hmne k
    have hfits : ¬ (f.maxExponent < f.lastExponent n d ∨ (f.lastExponent n d = f.maxExponent ∧
        pow2 f.precision ≤ quotientAt n d (f.lastExponent n d))) := by
      rw [hquotient]
      rintro (hlt | ⟨heq, hle⟩)
      · rw [lastExponent, hlog] at hlt
        omega
      · have hlarge : f.precision ≤ (m * pow2 k).log2 :=
          (Nat.le_log2 (Nat.mul_ne_zero hmne (pow2_pos k).ne')).mpr hle
        omega
    rw [round_of_ne_zero hn, if_neg hfits, hquotient, Binary.ofParts, oddPart_mul_pow2 hodd, ← hk]

theorem holds_round (hf : f.Proper) (hd : 0 < d)
    (hfinite : (f.round negative n d).isFinite = true) : f.Holds (f.round negative n d) := by
  obtain ⟨hprecision, hrange⟩ := hf
  by_cases hn : n = 0
  · rw [hn, round_zero]
    exact .inl ⟨rfl, rfl⟩
  · rw [round_of_ne_zero hn] at hfinite ⊢
    split at hfinite
    · cases hfinite
    · rename_i hfits
      rw [if_neg hfits]
      obtain ⟨e, he⟩ : ∃ e, e = f.lastExponent n d := ⟨_, rfl⟩
      rw [← he] at hfits ⊢
      have hmin : f.minExponent ≤ e := by
        rw [he, lastExponent]
        omega
      have hbound : quotientAt n d e ≤ pow2 f.precision := by
        apply quotientAt_le hd
        have hlt := Int.lt_zpow_succ_log_self (show 1 < 2 by decide) ((n : ℚ) / d)
        rw [← floorLog2_eq_log (Nat.pos_of_ne_zero hn) hd, Nat.cast_ofNat] at hlt
        refine lt_of_lt_of_le hlt (zpow_le_zpow_right₀ (by decide) ?_)
        rw [he, lastExponent]
        omega
      by_cases hq : quotientAt n d e = 0
      · rw [hq, Binary.ofParts, oddPart_zero]
        exact .inl ⟨rfl, rfl⟩
      · obtain ⟨m, k, hodd, hm, hpart⟩ := exists_oddPart_eq hq e
        have hmne : m ≠ 0 := by omega
        rw [Binary.ofParts, hpart]
        have hle : m ≤ pow2 f.precision := by
          have : m * 1 ≤ m * pow2 k := Nat.mul_le_mul_left m (pow2_pos k)
          omega
        have heven : pow2 f.precision % 2 = 0 := by
          obtain ⟨p, hp⟩ := Nat.exists_eq_add_of_lt hprecision
          rw [hp, Nat.zero_add]
          exact Nat.mul_mod_left (pow2 p) 2
        have hlog : (quotientAt n d e).log2 = m.log2 + k := by
          rw [hm]
          exact log2_mul_pow2 hmne k
        refine .inr ⟨hodd, ?_, ?_, ?_⟩
        · omega
        · omega
        · -- At the greatest exponent the quotient has one bit less.
          have hbits : (quotientAt n d e).log2 ≤ f.precision := by
            have := (Nat.log2_lt hq).mpr (show quotientAt n d e < 2 ^ (f.precision + 1) by
              rw [Nat.pow_succ]
              have := pow2_pos f.precision
              change quotientAt n d e < pow2 f.precision * 2
              omega)
            omega
          by_cases htop : e = f.maxExponent
          · have hlt : quotientAt n d e < 2 ^ f.precision := by
              by_contra hge
              exact hfits (.inr ⟨htop, Nat.le_of_not_lt hge⟩)
            have := (Nat.log2_lt hq).mpr hlt
            omega
          · have : ¬ f.maxExponent < e := fun h => hfits (.inl h)
            omega

end Format

end HostedLisp.Number
