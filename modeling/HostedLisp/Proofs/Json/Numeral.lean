import HostedLisp.Json.Parser
import HostedLisp.Proofs.Value.Numeral

namespace HostedLisp

namespace Number

/-- Whether digits stand for a whole number, with no zero in front of other digits. -/
structure IsWhole (ds : List Char) : Prop where
  ne_nil : ds ≠ []
  isDigit : ∀ x ∈ ds, isDigit x = true
  noZero : ds.head? = some '0' → ds = ['0']

section Whole

variable {ds : List Char}

theorem isWhole_zero : IsWhole ['0'] where
  ne_nil := List.cons_ne_nil _ _
  isDigit := List.forall_mem_singleton.mpr rfl
  noZero _ := rfl

theorem head?_digits {n : Nat} (hn : n ≠ 0) : (digits n).head? ≠ some '0' := by
  induction n using digits.induct with
  | case1 n h =>
      rw [digits_of_lt h, List.head?_cons]
      intro hzero
      have hvalue := congrArg digitValue (Option.some.inj hzero)
      rw [digitValue_digitChar h] at hvalue
      exact hn hvalue
  | case2 n h ih =>
      rw [digits_of_not_lt h, List.head?_append_of_ne_nil _ (digits_ne_nil _)]
      exact ih (by omega)

theorem isWhole_digits (n : Nat) : IsWhole (digits n) where
  ne_nil := digits_ne_nil n
  isDigit _ hx := isDigit_of_mem_digits hx
  noZero h := by
    by_cases hn : n = 0
    · rw [hn, digits_of_lt (by decide)]
      rfl
    · exact absurd h (head?_digits hn)

theorem isWhole_append_zeros {n : Nat} (k : Nat) (h : n = 0 → k = 0) :
    IsWhole (digits n ++ List.replicate k '0') := by
  by_cases hn : n = 0
  · rw [h hn, List.replicate_zero, List.append_nil]
    exact isWhole_digits n
  · rw [← digits_mul_pow10 hn]
    exact isWhole_digits _

theorem exists_withPoint_isWhole (h : IsWhole ds) {places : Nat} (hplaces : 0 < places) :
    ∃ whole fraction, withPoint ds places = whole ++ '.' :: fraction ∧ IsWhole whole ∧
      fraction ≠ [] ∧ ∀ x ∈ fraction, Number.isDigit x = true := by
  have hne : ∀ {padded : List Char} (k : Nat), places = k → k ≤ padded.length →
      padded.drop (padded.length - k) ≠ [] := by
    rintro padded k rfl hk hnil
    have hlength := congrArg List.length hnil
    rw [List.length_drop, List.length_nil] at hlength
    omega
  rw [withPoint, if_neg (Nat.ne_of_gt hplaces)]
  by_cases hfew : ds.length ≤ places
  · obtain ⟨k, hk⟩ : ∃ k, places + 1 - ds.length = k + 1 := ⟨places - ds.length, by omega⟩
    have hlength : (List.replicate (k + 1) '0' ++ ds).length = places + 1 := by
      rw [List.length_append, List.length_replicate]
      omega
    refine ⟨_, _, rfl, ?_, ?_, ?_⟩
    · rw [hk, hlength, Nat.add_sub_cancel_left, List.replicate_succ, List.cons_append,
        List.take_succ_cons, List.take_zero]
      exact isWhole_zero
    · rw [hk]
      exact hne places rfl (by omega)
    · intro x hx
      rcases List.mem_append.mp (List.mem_of_mem_drop hx) with hx | hx
      · exact isDigit_of_mem_replicate hx
      · exact h.isDigit x hx
  · have hzeros : places + 1 - ds.length = 0 := by omega
    rw [hzeros, List.replicate_zero, List.nil_append]
    obtain ⟨k, hk⟩ : ∃ k, ds.length - places = k + 1 := ⟨ds.length - places - 1, by omega⟩
    refine ⟨_, _, rfl, ⟨?_, fun x hx => h.isDigit x (List.mem_of_mem_take hx), ?_⟩,
      hne places rfl (by omega), fun x hx => h.isDigit x (List.mem_of_mem_drop hx)⟩
    · rw [hk]
      obtain ⟨c, cs, rfl⟩ := List.exists_cons_of_ne_nil h.ne_nil
      exact List.cons_ne_nil _ _
    · rw [hk, List.head?_take, if_neg (Nat.succ_ne_zero k)]
      intro hzero
      have hlength := congrArg List.length (h.noZero hzero)
      rw [List.length_singleton] at hlength
      omega

end Whole

/-- A shortest decimal that is zero has no exponent, which would bring zeros behind it. -/
theorem exponent_shortestDecimal {negative : Bool} {m : Nat} {e : Int}
    (hx : Format.double.Holds (.finite negative m e))
    (hzero : (Binary.shortestDecimal negative m e).coefficient = 0) :
    (Binary.shortestDecimal negative m e).exponent = 0 := by
  have hround := roundDecimal_shortestDecimal hx
  rw [Format.roundDecimal_of_small (.inl hzero)] at hround
  obtain ⟨-, rfl, -⟩ := Binary.finite.inj hround
  rfl

end Number

open Number

namespace Json

/-- The parts of a number as JSON has it. -/
structure Numeral where
  negative : Bool
  whole : List Char
  fraction : List Char
  exponent : List Char
  isWhole : IsWhole whole
  isFraction : IsFraction fraction
  isExponent : IsExponent exponent

/-- Whether a text does not go on with a number before it. -/
def Closes (s : List Char) : Prop :=
  ∀ c ∈ s.head?, isDigit c = false ∧ c ≠ '.' ∧ c ≠ 'e' ∧ c ≠ 'E'

instance : (s : List Char) → Decidable (Closes s)
  | [] => .isTrue fun _ hc => by cases hc
  | c :: _ =>
      decidable_of_iff (isDigit c = false ∧ c ≠ '.' ∧ c ≠ 'e' ∧ c ≠ 'E')
        ⟨fun h d hd => by cases hd; exact h, fun h => h c rfl⟩

section Digits

variable {rest : List Char}

theorem takeWhile_isDigit {ds : List Char} (hds : ∀ x ∈ ds, isDigit x = true)
    (hrest : ∀ c ∈ rest.head?, isDigit c = false) :
    (ds ++ rest).takeWhile isDigit = ds ∧ (ds ++ rest).dropWhile isDigit = rest := by
  rw [List.takeWhile_append_of_pos hds, List.dropWhile_append_of_pos hds]
  cases rest with
  | nil => simp
  | cons c rest => simp [hrest c rfl]

theorem wholeDigits_append {whole : List Char} (h : IsWhole whole)
    (hrest : ∀ c ∈ rest.head?, isDigit c = false) :
    wholeDigits (whole ++ rest) = (whole, rest) := by
  obtain ⟨htake, hdrop⟩ := takeWhile_isDigit h.isDigit hrest
  obtain ⟨c, cs, rfl⟩ := List.exists_cons_of_ne_nil h.ne_nil
  by_cases hc : c = '0'
  · subst hc
    obtain ⟨-, rfl⟩ := List.cons.inj (h.noZero rfl)
    rfl
  · rw [wholeDigits, htake, hdrop]
    intro rest' heq
    exact hc (List.cons.inj heq).1

theorem fractionDigits_append {fraction : List Char} (h : IsFraction fraction)
    (hrest : ∀ c ∈ rest.head?, isDigit c = false ∧ c ≠ '.') :
    fractionDigits (fraction ++ rest) = (fraction, rest) := by
  rcases h with rfl | ⟨ds, hne, hds, rfl⟩
  · rw [List.nil_append, fractionDigits]
    rintro rest' rfl
    exact (hrest '.' rfl).2 rfl
  · obtain ⟨htake, hdrop⟩ := takeWhile_isDigit hds fun c hc => (hrest c hc).1
    have hempty : ds.isEmpty = false := by simpa using hne
    rw [List.cons_append, fractionDigits]
    simp only [htake, hdrop, hempty]
    rfl

theorem exponentDigits_append {exponent : List Char} (h : IsExponent exponent)
    (hrest : Closes rest) : exponentDigits (exponent ++ rest) = (exponent, rest) := by
  rcases h with rfl | ⟨mark, sign, ds, hmark, hsign, hne, hds, rfl⟩
  · cases rest with
    | nil => rfl
    | cons c rest =>
        obtain ⟨-, -, hlower, hupper⟩ := hrest c rfl
        unfold exponentDigits
        exact if_neg (not_or.mpr ⟨hlower, hupper⟩)
  · obtain ⟨htake, hdrop⟩ := takeWhile_isDigit hds fun c hc => (hrest c hc).1
    have hempty : ds.isEmpty = false := by simpa using hne
    unfold exponentDigits
    rw [List.cons_append]
    dsimp only
    rw [if_pos hmark]
    rcases hsign with rfl | rfl | rfl
    · -- Without a sign the digits come first, and none of them is one.
      obtain ⟨d, ds', rfl⟩ := List.exists_cons_of_ne_nil hne
      have hd := hds d List.mem_cons_self
      split
      · rename_i heq
        cases heq
        cases hd
      · rename_i heq
        cases heq
        cases hd
      · simp only [List.nil_append, htake, hdrop]
        rfl
    · simp only [List.cons_append, List.nil_append, htake, hdrop, hempty]
      rfl
    · simp only [List.cons_append, List.nil_append, htake, hdrop, hempty]
      rfl

end Digits

theorem afterWord?_eq_none {word : String} {s : List Char}
    (h : word.toList.isPrefixOf s = false) : afterWord? word s = none :=
  if_neg (by rw [h]; decide)

theorem scalar_of_noWord (negative : Bool) {s : List Char} (hs : s.head? ≠ some '-')
    (h : ∀ word ∈ ["null", "true", "false", "NaN", "Infinity", "-Infinity"],
      word.toList.isPrefixOf (signText negative ++ s) = false) :
    scalar (signText negative ++ s) = number negative s := by
  simp only [List.forall_mem_cons] at h
  obtain ⟨hnull, htrue, hfalse, hnan, hinfinity, hnegative, -⟩ := h
  simp only [scalar, List.findSome?_cons, List.findSome?_nil, Option.map_none,
    afterWord?_eq_none hnull, afterWord?_eq_none htrue, afterWord?_eq_none hfalse,
    afterWord?_eq_none hnan, afterWord?_eq_none hinfinity, afterWord?_eq_none hnegative]
  cases negative with
  | true => rfl
  | false =>
      split
      · rename_i heq
        exact absurd (congrArg List.head? heq) hs
      · rfl

namespace Numeral

def text (n : Numeral) : List Char := signText n.negative ++ n.whole ++ n.fraction ++ n.exponent

variable (n : Numeral) {rest : List Char}

theorem text_append (rest : List Char) :
    n.text ++ rest =
      signText n.negative ++ (n.whole ++ (n.fraction ++ (n.exponent ++ rest))) := by
  simp only [text, List.append_assoc]

theorem exists_whole_eq_cons : ∃ d ds, n.whole = d :: ds ∧ isDigit d = true := by
  obtain ⟨d, ds, hwhole⟩ := List.exists_cons_of_ne_nil n.isWhole.ne_nil
  exact ⟨d, ds, hwhole, n.isWhole.isDigit d (hwhole ▸ List.mem_cons_self)⟩

theorem exists_text_eq_cons : ∃ c cs, n.text = c :: cs ∧ (c = '-' ∨ isDigit c = true) := by
  obtain ⟨d, ds, hwhole, hd⟩ := n.exists_whole_eq_cons
  rw [text, hwhole]
  cases n.negative with
  | true => exact ⟨_, _, rfl, .inl rfl⟩
  | false => exact ⟨_, _, rfl, .inr hd⟩

theorem head?_exponent_append (hrest : Closes rest) :
    ∀ c ∈ (n.exponent ++ rest).head?, isDigit c = false ∧ c ≠ '.' := by
  rcases n.isExponent with hnil | ⟨mark, sign, ds, hmark, -, -, -, htext⟩
  · rw [hnil]
    exact fun c hc => ⟨(hrest c hc).1, (hrest c hc).2.1⟩
  · rw [htext]
    rintro c ⟨⟩
    rcases hmark with rfl | rfl <;> exact ⟨rfl, by decide⟩

theorem head?_fraction_append (hrest : Closes rest) :
    ∀ c ∈ (n.fraction ++ (n.exponent ++ rest)).head?, isDigit c = false := by
  rcases n.isFraction with hnil | ⟨ds, -, -, htext⟩
  · rw [hnil]
    exact fun c hc => (n.head?_exponent_append hrest c hc).1
  · rw [htext]
    rintro c ⟨⟩
    rfl

theorem number_append (hrest : Closes rest) :
    number n.negative (n.whole ++ (n.fraction ++ (n.exponent ++ rest))) =
      if n.fraction.isEmpty && n.exponent.isEmpty then
        if digitLimit < n.whole.length then .error (.tooManyDigits n.whole.length)
        else
          let k : Int := digitsValue n.whole
          .ok (.int (if n.negative then -k else k), rest)
      else
        match readDouble? n.text with
        | some x => .ok (.double x, rest)
        | none => .error .malformed := by
  have hne : n.whole.isEmpty = false := by simpa using n.isWhole.ne_nil
  unfold number
  rw [wholeDigits_append n.isWhole (n.head?_fraction_append hrest)]
  dsimp only
  rw [fractionDigits_append n.isFraction (n.head?_exponent_append hrest)]
  dsimp only
  rw [exponentDigits_append n.isExponent hrest, hne]
  rfl

theorem scalar_text_append (rest : List Char) :
    scalar (n.text ++ rest) =
      number n.negative (n.whole ++ (n.fraction ++ (n.exponent ++ rest))) := by
  obtain ⟨d, ds, hwhole, hd⟩ := n.exists_whole_eq_cons
  have hne : ∀ c, isDigit c = false → (c == d) = false := by
    intro c hc
    refine beq_eq_false_iff_ne.mpr ?_
    rintro rfl
    rw [hd] at hc
    cases hc
  have hhead : ∀ s, (d :: ds ++ s).head? ≠ some '-' := by
    rintro s ⟨⟩
    cases hd
  rw [text_append, hwhole]
  refine scalar_of_noWord _ (hhead _) ?_
  cases n.negative with
  | true =>
      change ∀ word ∈ _, (String.toList word).isPrefixOf ('-' :: d :: _) = false
      simp only [List.forall_mem_cons, String.reduceToList, List.isPrefixOf, hne 'I' rfl,
        Bool.false_and, Bool.and_false, List.not_mem_nil, false_imp_iff, implies_true, and_true]
      exact ⟨rfl, rfl, rfl, rfl, rfl⟩
  | false =>
      change ∀ word ∈ _, (String.toList word).isPrefixOf (d :: _) = false
      simp only [List.forall_mem_cons, String.reduceToList, List.isPrefixOf, hne 'n' rfl,
        hne 't' rfl, hne 'f' rfl, hne 'N' rfl, hne 'I' rfl, hne '-' rfl,
        Bool.false_and, List.not_mem_nil, false_imp_iff, implies_true, and_true]

end Numeral

/-- The number of an integer. -/
def Numeral.ofInt (n : Int) : Numeral :=
  ⟨decide (n < 0), digits n.natAbs, [], [], isWhole_digits _, .inl rfl, .inl rfl⟩

theorem text_ofInt (n : Int) : (Numeral.ofInt n).text = integerText n := by
  simp only [integerText_eq, Numeral.text, Numeral.ofInt, List.append_nil]

theorem scalar_integerText {n : Int} (hn : n.natAbs < pow10 digitLimit) {rest : List Char}
    (hrest : Closes rest) : scalar (integerText n ++ rest) = .ok (.int n, rest) := by
  have hlength : ¬ digitLimit < (digits n.natAbs).length :=
    Nat.not_lt.mpr (length_digits_le (by decide) hn)
  have hvalue : (if decide (n < 0) = true then -(n.natAbs : Int) else n.natAbs) = n := by
    by_cases hneg : n < 0
    · rw [if_pos (decide_eq_true hneg)]
      omega
    · rw [if_neg (by simpa using hneg)]
      omega
  rw [← text_ofInt, Numeral.scalar_text_append, Numeral.number_append _ hrest]
  let k : Int := digitsValue (digits n.natAbs)
  change (if digitLimit < (digits n.natAbs).length then _ else
    Except.ok (Value.int (if decide (n < 0) = true then -k else k), rest)) = _
  rw [if_neg hlength]
  dsimp only [k]
  rw [digitsValue_digits, hvalue]

/-- Whether a text is a number that is read as a double. -/
def IsFractional (s : List Char) : Prop :=
  ∃ n : Numeral, s = n.text ∧ (n.fraction.isEmpty && n.exponent.isEmpty) = false

theorem isFractional_withPoint (negative : Bool) {ds exponent : List Char} (hds : IsWhole ds)
    (hexponent : IsExponent exponent) (places : Nat) (h : 0 < places ∨ exponent.isEmpty = false) :
    IsFractional (signText negative ++ (withPoint ds places ++ exponent)) := by
  rcases Nat.eq_zero_or_pos places with rfl | hplaces
  · refine ⟨⟨negative, ds, [], exponent, hds, .inl rfl, hexponent⟩, ?_, ?_⟩
    · simp only [withPoint, if_true, Numeral.text, List.append_assoc, List.nil_append]
    · exact h.resolve_left (Nat.lt_irrefl 0)
  · obtain ⟨whole, fraction, htext, hwhole, hne, hfraction⟩ := exists_withPoint_isWhole hds hplaces
    refine ⟨⟨negative, whole, '.' :: fraction, exponent, hwhole,
      .inr ⟨fraction, hne, hfraction, rfl⟩, hexponent⟩, ?_, rfl⟩
    simp only [htext, Numeral.text, List.append_assoc]

theorem isFractional_positionalDigits (negative : Bool) {c : Candidate}
    (hzero : c.coefficient = 0 → c.exponent = 0) :
    IsFractional (signText negative ++ Binary.positionalDigits c) := by
  unfold Binary.positionalDigits
  by_cases he : 0 ≤ c.exponent
  · have hwhole := isWhole_append_zeros c.exponent.toNat fun h => congrArg Int.toNat (hzero h)
    have hfraction : IsFraction ['.', '0'] :=
      .inr ⟨['0'], List.cons_ne_nil _ _, List.forall_mem_singleton.mpr rfl, rfl⟩
    refine ⟨⟨negative, _, _, [], hwhole, hfraction, .inl rfl⟩, ?_, rfl⟩
    simp [Numeral.text, he, wholeText]
  · have hpoint := isFractional_withPoint negative (isWhole_digits c.coefficient) (.inl rfl)
      c.exponent.natAbs (.inl (by omega))
    simpa only [he, if_false, List.append_nil] using hpoint

theorem isFractional_text {x : Binary} (hx : Format.double.Holds x) : IsFractional x.text := by
  cases x with
  | infinite => cases hx
  | nan => cases hx
  | finite negative m e =>
      have hzero := exponent_shortestDecimal hx
      rw [Binary.text]
      generalize Binary.shortestDecimal negative m e = c at hzero
      by_cases hlayout : Binary.isPositional doubleLayout c = true
      · rw [if_pos hlayout]
        exact isFractional_positionalDigits negative hzero
      · rw [if_neg hlayout]
        exact isFractional_withPoint negative (isWhole_digits _) (isExponent_paddedExponent _ _) _
          (.inr rfl)

theorem scalar_doubleText {x : Binary} (hx : Format.double.Holds x) {rest : List Char}
    (hrest : Closes rest) : scalar (x.text ++ rest) = .ok (.double x, rest) := by
  obtain ⟨n, htext, hfraction⟩ := isFractional_text hx
  have hread := readDouble?_text hx
  rw [htext] at hread ⊢
  rw [Numeral.scalar_text_append, Numeral.number_append n hrest, hfraction, hread]
  rfl

end Json

end HostedLisp
