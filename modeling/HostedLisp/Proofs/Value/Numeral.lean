import HostedLisp.Host.Sample
import HostedLisp.Failure
import HostedLisp.Proofs.Number.Reading

namespace HostedLisp

namespace Number

/-- Whether a text is a point with digits behind it, or nothing. -/
def IsFraction (s : List Char) : Prop :=
  s = [] ∨ ∃ ds, ds ≠ [] ∧ (∀ x ∈ ds, isDigit x = true) ∧ s = '.' :: ds

/-- Whether a text is the mark of an exponent with digits behind it, which can have a sign, or
nothing. -/
def IsExponent (s : List Char) : Prop :=
  s = [] ∨ ∃ mark sign ds, (mark = 'e' ∨ mark = 'E') ∧ (sign = [] ∨ sign = ['-'] ∨ sign = ['+']) ∧
    ds ≠ [] ∧ (∀ x ∈ ds, isDigit x = true) ∧ s = mark :: (sign ++ ds)

/-- Whether a text is a number as one writes it: digits with an optional minus sign, an optional
fraction and an optional exponent. -/
def IsPlainNumeral (s : List Char) : Prop :=
  ∃ negative whole fraction exponent, s = signText negative ++ (whole ++ (fraction ++ exponent)) ∧
    whole ≠ [] ∧ (∀ x ∈ whole, isDigit x = true) ∧ IsFraction fraction ∧ IsExponent exponent

section Plain

variable {ds : List Char} (negative : Bool)

theorem isPlainNumeral_digits (hne : ds ≠ []) (hds : ∀ x ∈ ds, isDigit x = true) :
    IsPlainNumeral (signText negative ++ ds) :=
  ⟨negative, ds, [], [], by simp, hne, hds, .inl rfl, .inl rfl⟩

theorem isPlainNumeral_withPoint (hne : ds ≠ []) (hds : ∀ x ∈ ds, isDigit x = true) (places : Nat)
    {exponent : List Char} (hexponent : IsExponent exponent) :
    IsPlainNumeral (signText negative ++ (withPoint ds places ++ exponent)) := by
  by_cases hplaces : places = 0
  · rw [withPoint, if_pos hplaces]
    exact ⟨negative, ds, [], exponent, rfl, hne, hds, .inl rfl, hexponent⟩
  · obtain ⟨whole, fraction, htext, hwhole, hlength, hdigits, -⟩ :=
      exists_withPoint_eq ds hds (Nat.pos_of_ne_zero hplaces)
    refine ⟨negative, whole, '.' :: fraction, exponent, ?_, hwhole,
      fun x hx => hdigits x (List.mem_append_left _ hx), .inr ⟨fraction, ?_,
        fun x hx => hdigits x (List.mem_append_right _ hx), rfl⟩, hexponent⟩
    · rw [htext, List.append_assoc]
    · rintro rfl
      exact hplaces hlength.symm

theorem isPlainNumeral_wholeText (hne : ds ≠ []) (hds : ∀ x ∈ ds, isDigit x = true) :
    IsPlainNumeral (signText negative ++ wholeText ds) := by
  refine ⟨negative, ds, ".0".toList, [], by simp [wholeText], hne, hds,
    .inr ⟨['0'], by simp, ?_, rfl⟩, .inl rfl⟩
  intro x hx
  rw [List.mem_singleton.mp hx]
  rfl

theorem isPlainNumeral_positional (c : Nat) (e : Int) :
    IsPlainNumeral (Decimal.finite negative c e).positional := by
  have hdigits (k : Nat) : ∀ x ∈ digits k, isDigit x = true := fun x hx => isDigit_of_mem_digits hx
  by_cases he : 0 ≤ e
  · rw [Decimal.positional_of_nonneg negative c he]
    exact isPlainNumeral_digits negative (digits_ne_nil _) (hdigits _)
  · rw [Decimal.positional_of_neg negative c (not_le.mp he)]
    have hplain := isPlainNumeral_withPoint negative (digits_ne_nil c) (hdigits c) e.natAbs
      (.inl rfl)
    rwa [List.append_nil] at hplain

end Plain

theorem exists_read?_positional {d : Decimal} (hd : d.isFinite = true) :
    ∃ d', Decimal.read? d.positional = some d' ∧ Exact.ofDecimal? d' = Exact.ofDecimal? d := by
  cases d with
  | finite negative c e =>
      by_cases he : 0 ≤ e
      · rw [Decimal.positional_of_nonneg negative c he]
        refine ⟨_, Decimal.read?_of_isSpelling (isSpelling_digits negative _), ?_⟩
        have hzeros := ofDecimal?_mul_pow10 negative c e e.toNat
        rwa [Int.toNat_of_nonneg he, sub_self] at hzeros
      · rw [Decimal.positional_of_neg negative c (not_le.mp he)]
        exact ⟨_, Decimal.read?_of_isSpelling (isSpelling_withPoint negative c (not_le.mp he)), rfl⟩
  | infinite => cases hd
  | nan => cases hd

section Exponents

theorem digits_paddedExponent (width : Nat) (e : Int) :
    ∃ ds, ds ≠ [] ∧ (∀ x ∈ ds, isDigit x = true) ∧ digitsValue ds = e.natAbs ∧
      paddedExponent width e = (if e < 0 then '-' else '+') :: ds := by
  refine ⟨_, ?_, ?_, ?_, rfl⟩
  · simp [digits_ne_nil]
  · intro x hx
    rcases List.mem_append.mp hx with hx | hx
    · exact isDigit_of_mem_replicate hx
    · exact isDigit_of_mem_digits hx
  · rw [digitsValue_append, digitsValue_replicate_zero, digitsValue_digits, Nat.zero_mul,
      Nat.zero_add]

theorem isExponent_paddedExponent (width : Nat) (e : Int) :
    IsExponent ('e' :: paddedExponent width e) := by
  obtain ⟨ds, hne, hds, -, htext⟩ := digits_paddedExponent width e
  refine .inr ⟨'e', [if e < 0 then '-' else '+'], ds, .inl rfl, ?_, hne, hds, by rw [htext]; rfl⟩
  by_cases he : e < 0
  · exact .inr (.inl (by rw [if_pos he]))
  · exact .inr (.inr (by rw [if_neg he]))

theorem readExponent_paddedExponent (width : Nat) (e : Int) :
    Decimal.readExponent ('e' :: paddedExponent width e) = some e := by
  obtain ⟨ds, hne, hds, hvalue, htext⟩ := digits_paddedExponent width e
  have hempty : ds.isEmpty = false := by simpa using hne
  have hall : ds.all isDigit = true := List.all_eq_true.mpr hds
  have hsign : Decimal.readSign ((if e < 0 then '-' else '+') :: ds) = (decide (e < 0), ds) := by
    by_cases he : e < 0 <;> simp [he, Decimal.readSign]
  have hvalue' : (if decide (e < 0) = true then -(e.natAbs : Int) else e.natAbs) = e := by
    by_cases he : e < 0
    · rw [if_pos (decide_eq_true he)]
      omega
    · rw [if_neg (by simpa using he)]
      omega
  rw [htext, Decimal.readExponent, if_pos (by decide)]
  simp only [hsign, hempty, hall, hvalue, hvalue']
  rfl

end Exponents

section Doubles

variable {negative : Bool} {m : Nat} {e : Int}

theorem Binary.text_cases (negative : Bool) (m : Nat) (e : Int) :
    text (finite negative m e) = positionalText (finite negative m e) ∧
        IsPlainNumeral (text (finite negative m e)) ∨
      text (finite negative m e) =
        signText negative ++ exponentDigits doubleLayout (shortestDecimal negative m e) := by
  rw [text, positionalText]
  generalize shortestDecimal negative m e = c
  by_cases hlayout : isPositional doubleLayout c = true
  · rw [if_pos hlayout, if_pos hlayout]
    refine .inl ⟨rfl, ?_⟩
    have hdigits : ∀ x ∈ digits c.coefficient, isDigit x = true :=
      fun x hx => isDigit_of_mem_digits hx
    unfold positionalDigits
    by_cases he : 0 ≤ c.exponent
    · simp only [he, if_true]
      refine isPlainNumeral_wholeText negative (by simp [digits_ne_nil]) fun x hx => ?_
      rcases List.mem_append.mp hx with hx | hx
      · exact hdigits x hx
      · exact isDigit_of_mem_replicate hx
    · simp only [he, if_false]
      have hplain := isPlainNumeral_withPoint negative (digits_ne_nil _) hdigits
        c.exponent.natAbs (.inl rfl)
      rwa [List.append_nil] at hplain
  · exact .inr (by rw [if_neg hlayout])

theorem isPlainNumeral_text (negative : Bool) (m : Nat) (e : Int) :
    IsPlainNumeral (Binary.text (.finite negative m e)) := by
  rcases Binary.text_cases negative m e with ⟨-, hplain⟩ | htext
  · exact hplain
  · rw [htext]
    exact isPlainNumeral_withPoint negative (digits_ne_nil _)
      (fun x hx => isDigit_of_mem_digits hx) _ (isExponent_paddedExponent _ _)

theorem exists_numeral_withPoint {ds : List Char} (negative : Bool) (hne : ds ≠ [])
    (hds : ∀ x ∈ ds, isDigit x = true) (places : Nat) :
    ∃ n : Numeral, n.SpelledBy (signText negative ++ withPoint ds places) ∧
      ∀ e, n.decimal e = .finite negative (digitsValue ds) (e - places) := by
  by_cases hplaces : places = 0
  · refine ⟨⟨negative, ds, [], by simpa using hds, by simpa using hne⟩, .inr ⟨rfl, ?_⟩, fun e => ?_⟩
    · rw [withPoint, if_pos hplaces]
    · simp [Numeral.decimal, hplaces]
  · obtain ⟨whole, fraction, htext, hwhole, hlength, hdigits, hvalue⟩ :=
      exists_withPoint_eq ds hds (Nat.pos_of_ne_zero hplaces)
    refine ⟨⟨negative, whole, fraction, hdigits, by simp [hwhole]⟩, .inl ?_, fun e => ?_⟩
    · rw [htext]
    · rw [Numeral.decimal, hvalue, hlength]

theorem read?_exponentDigits (negative : Bool) (layout : Layout) (c : Candidate) :
    Decimal.read? (signText negative ++ Binary.exponentDigits layout c) =
      some (.finite negative c.coefficient c.exponent) := by
  have hlength := List.length_pos_iff.mpr (digits_ne_nil c.coefficient)
  obtain ⟨n, hn, hdecimal⟩ := exists_numeral_withPoint negative (digits_ne_nil c.coefficient)
    (fun x hx => isDigit_of_mem_digits hx) ((digits c.coefficient).length - 1)
  have hmark : ∀ x ∈ ('e' :: paddedExponent layout.exponentDigits (Binary.leadingPower c)).head?,
      isDigit x = false ∧ x ≠ '.' := by
    rintro x ⟨⟩
    exact ⟨rfl, by decide⟩
  rw [Binary.exponentDigits, ← List.append_assoc, Numeral.read?_append hn hmark,
    readExponent_paddedExponent, Option.map_some, hdecimal, digitsValue_digits,
    Binary.leadingPower]
  congr 2
  omega

/-- The shortest spelling of a double reads back as the double. -/
theorem readDouble?_text {x : Binary} (hx : Format.double.Holds x) :
    readDouble? x.text = some x := by
  cases x with
  | finite negative m e =>
      rcases Binary.text_cases negative m e with ⟨htext, -⟩ | htext
      · rw [htext]
        exact readDouble?_positionalText hx
      · rw [htext, readDouble?, read?_exponentDigits, Option.map_some, Format.ofDecimal,
          roundDecimal_shortestDecimal hx]
  | infinite => cases hx
  | nan => cases hx

end Doubles

end Number

open Number

namespace Value

/-- Whether a value is a finite number of its type, an integer one that can be written in full. -/
def IsFiniteNumber : Value → Prop
  | int n => n.natAbs < pow10 digitLimit
  | decimal d => d.isFinite = true
  | double x => Format.double.Holds x
  | float x => Format.single.Holds x
  | _ => False

/-- Whether a text reads as a number in the way of its type, a decimal one up to zeros at its
end. -/
def ReadsFrom (s : List Char) : Value → Prop
  | int n => readInteger? s = some n
  | decimal d => ∃ d', Decimal.read? s = some d' ∧
      Exact.same (Exact.ofDecimal? d') (Exact.ofDecimal? d) = true
  | double x => readDouble? s = some x
  | float x => readSingle? s = some x
  | _ => False

/-- The text of a number when no type name is put around it. -/
def numeral : Value → List Char
  | int n => integerText n
  | decimal d => d.positional
  | double x => x.text
  | float x => x.text
  | _ => []

theorem isPlainNumeral_numeral {v : Value} (h : v.IsFiniteNumber) : IsPlainNumeral v.numeral := by
  cases v with
  | int n =>
      rw [numeral, integerText_eq]
      exact isPlainNumeral_digits _ (digits_ne_nil _) fun x hx => isDigit_of_mem_digits hx
  | decimal d =>
      cases d with
      | finite negative c e => exact isPlainNumeral_positional negative c e
      | infinite => cases h
      | nan => cases h
  | double x | float x =>
      cases x with
      | finite negative m e => exact isPlainNumeral_text negative m e
      | infinite => cases h
      | nan => cases h
  | _ => cases h

theorem readsFrom_numeral {v : Value} (h : v.IsFiniteNumber) : v.ReadsFrom v.numeral := by
  cases v with
  | int n => exact readInteger?_integerText h
  | decimal d =>
      obtain ⟨d', hread, hsame⟩ := exists_read?_positional h
      refine ⟨d', hread, ?_⟩
      rw [hsame]
      cases d with
      | finite => simp [Exact.ofDecimal?, Exact.same]
      | infinite => cases h
      | nan => cases h
  | double x => exact readDouble?_text h
  | float x =>
      have hdouble : Format.double.Holds x := Format.holds_double_of_single h
      exact readSingle?_of_readDouble? h (readDouble?_text hdouble)
  | _ => cases h

theorem not_isPlainNumeral_named (s : List Char) : ¬ IsPlainNumeral ("Float32(".toList ++ s) := by
  rintro ⟨negative, whole, fraction, exponent, htext, hwhole, hdigits, -⟩
  obtain ⟨c, cs, rfl⟩ := List.exists_cons_of_ne_nil hwhole
  have hc := hdigits c (by simp)
  cases negative with
  | true => cases (List.cons.inj htext).1
  | false =>
      obtain rfl : 'F' = c := (List.cons.inj htext).1
      cases hc

end Value

/-- The text of a finite number in string building is a plain numeral that reads back as the number,
unless it is a single. The text of a single is such a numeral in parentheses with the name of its
type in front, which is no plain numeral. -/
theorem toText_of_number [HostClasses] {v : Value} (h : v.IsFiniteNumber) :
    ∃ s, IsPlainNumeral s ∧ v.ReadsFrom s ∧
      if v.type = .float then
        v.toText? = .ok ("Float32(" ++ String.ofList s ++ ")") ∧
          ¬ IsPlainNumeral ("Float32(" ++ String.ofList s ++ ")").toList
      else v.toText? = .ok (String.ofList s) := by
  refine ⟨v.numeral, Value.isPlainNumeral_numeral h, Value.readsFrom_numeral h, ?_⟩
  cases v with
  | int n =>
      have hdigits : n.natAbs < pow10 digitLimit := h
      have hwritten : exceedsDigitLimit n = false := decide_eq_false (Nat.not_le.mpr hdigits)
      have htext : (Value.int n).toText? = intText? n := rfl
      rw [if_neg (show (Value.int n).type ≠ .float from nofun), htext, intText?_eq hwritten]
      rfl
  | decimal d => rfl
  | double x => rfl
  | float x =>
      refine ⟨rfl, ?_⟩
      rw [String.append_assoc, String.toList_append]
      exact Value.not_isPlainNumeral_named _
  | _ => cases h

open scoped Sample

/-- The text of the decimal `1E+3` is `1000`. -/
theorem toText_of_thousand :
    ∃ s, IsPlainNumeral s ∧ (Value.decimal (.finite false 1 3)).ReadsFrom s ∧
      (Value.decimal (.finite false 1 3)).toText? = .ok (String.ofList s) :=
  toText_of_number (v := .decimal (.finite false 1 3)) rfl

/-- The text of the single `1.5` has the name of its type around it. -/
theorem toText_of_single :
    (Value.float (.finite false 3 (-1))).IsFiniteNumber ∧
      (Value.float (.finite false 3 (-1))).toText = "Float32(1.5)" ∧
      ¬ IsPlainNumeral "Float32(1.5)".toList ∧ readSingle? "Float32(1.5)".toList = none := by
  refine ⟨.inr ⟨rfl, by decide, by decide, by decide⟩, by decide +kernel, ?_, by decide +kernel⟩
  exact Value.not_isPlainNumeral_named "1.5)".toList

end HostedLisp
