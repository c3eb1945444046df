import HostedLisp.Proofs.Number.Reading

namespace HostedLisp.Number

/-- The exact value of a number: a rational number, or an infinity. -/
inductive Magnitude where
  | finite (value : ℚ)
  | infinite (negative : Bool)

/-- A rational number with a sign in front. -/
def signed (negative : Bool) (q : ℚ) : ℚ := if negative then -q else q

/-- The exact value of a decimal; not a number has none. -/
def Decimal.magnitude? : Decimal → Option Magnitude
  | finite negative c e => some (.finite (signed negative (c * 10 ^ e)))
  | infinite negative => some (.infinite negative)
  | nan _ => none

/-- The exact value of a binary number; not a number has none. -/
def Binary.magnitude? : Binary → Option Magnitude
  | finite negative m e => some (.finite (signed negative (m * 2 ^ e)))
  | infinite negative => some (.infinite negative)
  | nan => none

section TenFree

variable (c : Nat) (e : Int)

theorem tenFreePart_value :
    ((tenFreePart c e).1 : ℚ) * 10 ^ (tenFreePart c e).2 = c * 10 ^ e := by
  induction c, e using tenFreePart.induct with
  | case1 e => simp [tenFreePart]
  | case2 c e hc hten ih =>
      rw [tenFreePart, dif_neg hc, if_pos hten, ih, zpow_add₀ (by decide), zpow_one]
      have hdiv : (c : ℚ) = (c / 10 : Nat) * 10 := by
        exact_mod_cast (Nat.div_mul_cancel (Nat.dvd_of_mod_eq_zero hten)).symm
      rw [hdiv]
      ring
  | case3 c e hc hten => rw [tenFreePart, dif_neg hc, if_neg hten]

theorem tenFreePart_reduced :
    tenFreePart c e = (0, 0) ∨ ¬ 10 ∣ (tenFreePart c e).1 := by
  induction c, e using tenFreePart.induct with
  | case1 e => exact .inl (by simp [tenFreePart])
  | case2 c e hc hten ih => rwa [tenFreePart, dif_neg hc, if_pos hten]
  | case3 c e hc hten =>
      rw [tenFreePart, dif_neg hc, if_neg hten]
      exact .inr fun h => hten (Nat.mod_eq_zero_of_dvd h)

end TenFree

namespace Exact

/-- The number that a representation stands for. -/
def magnitude : Exact → Magnitude
  | finite c e => .finite (c * 10 ^ e)
  | infinite negative => .infinite negative

/-- Whether a representation is the one without trailing zeros in the coefficient. -/
def Reduced : Exact → Prop
  | finite c e => (c = 0 ∧ e = 0) ∨ ¬ 10 ∣ c
  | infinite _ => True

theorem magnitude_ofScaled (negative : Bool) (c : Nat) (e : Int) :
    (ofScaled negative c e).magnitude = .finite (signed negative (c * 10 ^ e)) := by
  rw [ofScaled, magnitude, ← tenFreePart_value c e]
  cases negative <;> simp [signed]

theorem reduced_ofScaled (negative : Bool) (c : Nat) (e : Int) :
    (ofScaled negative c e).Reduced := by
  rw [ofScaled]
  rcases tenFreePart_reduced c e with h | h
  · rw [h]
    cases negative <;> exact .inl ⟨rfl, rfl⟩
  · have hint : ¬ (10 : Int) ∣ (tenFreePart c e).1 := by exact_mod_cast h
    cases negative
    · exact .inr hint
    · exact .inr (mt Int.dvd_neg.mp hint)

theorem le_of_mul_zpow_eq {c d : Int} {e f : Int} (hc : ¬ 10 ∣ c)
    (h : (c : ℚ) * 10 ^ e = d * 10 ^ f) : f ≤ e := by
  by_contra hlt
  obtain ⟨k, hk⟩ := Int.eq_ofNat_of_zero_le (show 0 ≤ f - e - 1 by omega)
  have hf : f = e + (k + 1 : Nat) := by
    push_cast
    omega
  have hcd : c = d * 10 ^ (k + 1) := by
    have hten : (10 : ℚ) ^ e ≠ 0 := zpow_ne_zero _ (by decide)
    have hq : (c : ℚ) = d * 10 ^ (k + 1) := by
      apply mul_right_cancel₀ hten
      rw [h, hf, zpow_add₀ (by decide), zpow_natCast]
      ring
    exact_mod_cast hq
  exact hc (hcd ▸ Dvd.dvd.mul_left (dvd_pow_self 10 (Nat.succ_ne_zero k)) d)

theorem eq_of_magnitude_eq {x y : Exact} (hx : x.Reduced) (hy : y.Reduced)
    (h : x.magnitude = y.magnitude) : x = y := by
  cases x with
  | infinite s =>
      cases y with
      | infinite t =>
          injection h with hst
          rw [hst]
      | finite d f => cases h
  | finite c e =>
      cases y with
      | infinite t => cases h
      | finite d f =>
          injection h with hq
          have hten (k : Int) : (10 : ℚ) ^ k ≠ 0 := zpow_ne_zero _ (by decide)
          rcases hx with ⟨rfl, rfl⟩ | hc
          · have hd : d = 0 := by simpa [hten] using hq.symm
            rcases hy with ⟨rfl, rfl⟩ | hd'
            · rfl
            · exact absurd (hd ▸ dvd_zero 10) hd'
          · rcases hy with ⟨rfl, rfl⟩ | hd
            · have hc' : c = 0 := by simpa [hten] using hq
              exact absurd (hc' ▸ dvd_zero 10) hc
            · have hef : e = f :=
                le_antisymm (le_of_mul_zpow_eq hd hq.symm) (le_of_mul_zpow_eq hc hq)
              subst hef
              have hcd : (c : ℚ) = d := mul_right_cancel₀ (hten e) hq
              rw [Int.cast_injective hcd]

/-- Whether a representation is the reduced one of a number, or there is neither. -/
structure Represents (x : Option Exact) (q : Option Magnitude) : Prop where
  magnitude : x.map Exact.magnitude = q
  reduced : ∀ r ∈ x, r.Reduced

theorem represents_ofScaled (negative : Bool) (c : Nat) (e : Int) :
    Represents (some (ofScaled negative c e)) (some (.finite (signed negative (c * 10 ^ e)))) where
  magnitude := congrArg some (magnitude_ofScaled negative c e)
  reduced := by
    rintro r ⟨⟩
    exact reduced_ofScaled negative c e

theorem represents_infinite (negative : Bool) :
    Represents (some (infinite negative)) (some (.infinite negative)) :=
  ⟨rfl, by rintro r ⟨⟩; trivial⟩

theorem represents_none : Represents none none := ⟨rfl, nofun⟩

theorem represents_ofInt (n : Int) : Represents (some (ofInt n)) (some (.finite n)) := by
  have hn : signed (decide (n < 0)) ((n.natAbs : ℚ) * 10 ^ (0 : Int)) = n := by
    rw [zpow_zero, mul_one, Nat.cast_natAbs, signed]
    by_cases h : n < 0
    · simp [h, abs_of_neg h]
    · simp [h, abs_of_nonneg (not_lt.mp h)]
  rw [← hn]
  exact represents_ofScaled _ _ _

theorem represents_ofDecimal? (d : Decimal) : Represents (ofDecimal? d) d.magnitude? := by
  cases d with
  | finite negative c e => exact represents_ofScaled negative c e
  | infinite negative => exact represents_infinite negative
  | nan => exact represents_none

theorem represents_ofBinary? (x : Binary) : Represents (ofBinary? x) x.magnitude? := by
  cases x with
  | infinite negative => exact represents_infinite negative
  | nan => exact represents_none
  | finite negative m e =>
      have hexact : ofBinary? (.finite negative m e) =
          some (ofScaled negative (exactCandidate m e).coefficient
            (exactCandidate m e).exponent) := by
        unfold ofBinary? exactCandidate
        by_cases he : 0 ≤ e <;> simp only [he, if_true, if_false]
      rw [hexact, Binary.magnitude?, ← exactCandidate_eq]
      exact represents_ofScaled _ _ _

/-- Numbers are the same exactly if they have one exact value. -/
theorem same_iff {x y : Option Exact} {q r : Option Magnitude} (hx : Represents x q)
    (hy : Represents y r) : same x y = true ↔ q ≠ none ∧ q = r := by
  obtain ⟨rfl, hx⟩ := hx
  obtain ⟨rfl, hy⟩ := hy
  cases x with
  | none => simp [same]
  | some x =>
      cases y with
      | none => simp [same]
      | some y =>
          have hinjective : x.magnitude = y.magnitude → x = y :=
            eq_of_magnitude_eq (hx x rfl) (hy y rfl)
          simp only [same, beq_iff_eq, Option.map_some, ne_eq, reduceCtorEq, not_false_eq_true,
            true_and, Option.some.injEq]
          exact ⟨fun h => h ▸ rfl, hinjective⟩

end Exact

end HostedLisp.Number
