import HostedLisp.Proofs.Number.Digits
import HostedLisp.Source.Printer
import Mathlib.Data.List.TakeWhile

namespace HostedLisp.Number

theorem toLower_of_isDigit {c : Char} (h : isDigit c = true) : c.toLower = c := by
  unfold isDigit at h
  simp only [Bool.and_eq_true, decide_eq_true_eq] at h
  unfold Char.toLower
  split
  · rename_i hupper
    have hnine := Char.le_def.mp h.2
    have hletter : (65 : UInt32) ≤ c.val := hupper.1
    exact absurd (UInt32.le_trans hletter hnine) (by decide)
  · rfl

theorem isDigit_of_mem_replicate {k : Nat} {c : Char} (h : c ∈ List.replicate k '0') :
    isDigit c = true := by
  rw [List.eq_of_mem_replicate h]
  rfl

/-- Whether a text spells `± c · 10 ^ e` by its sign and digits, the last `-e` of which stand
after a point. -/
def IsSpelling (text : List Char) (negative : Bool) (c : Nat) (e : Int) : Prop :=
  ∃ whole fraction, whole ≠ [] ∧ (∀ x ∈ whole ++ fraction, isDigit x = true) ∧
    digitsValue (whole ++ fraction) = c ∧ e = -(fraction.length : Int) ∧
    (text = signText negative ++ (whole ++ '.' :: fraction) ∨
      fraction = [] ∧ text = signText negative ++ whole)

/-- A number as it is written without an exponent: its sign, the digits before its point and those
behind it, at least one in all. -/
structure Numeral where
  negative : Bool
  whole : List Char
  fraction : List Char
  digits : ∀ x ∈ whole ++ fraction, isDigit x = true
  nonempty : whole ++ fraction ≠ []

namespace Numeral

/-- Whether a text is the numeral. A point with no digits behind it can be left out. -/
def SpelledBy (n : Numeral) (text : List Char) : Prop :=
  text = signText n.negative ++ (n.whole ++ '.' :: n.fraction) ∨
    n.fraction = [] ∧ text = signText n.negative ++ n.whole

/-- The decimal with the digits of the numeral, moved by a power of ten. -/
def decimal (n : Numeral) (e : Int) : Decimal :=
  .finite n.negative (digitsValue (n.whole ++ n.fraction)) (e - n.fraction.length)

end Numeral

namespace Decimal

theorem readSign_signText {negative : Bool} {c : Char} (hminus : c ≠ '-') (hplus : c ≠ '+')
    (s : List Char) : readSign (signText negative ++ c :: s) = (negative, c :: s) := by
  cases negative <;> simp [signText, readSign, hminus, hplus]

theorem read?_signText {negative : Bool} {c : Char} (hc : isDigit c = true ∨ c = '.')
    (s : List Char) :
    read? (signText negative ++ c :: s) =
      match readMantissa (c :: s) with
      | none => none
      | some (m, rest) =>
          (readExponent rest).map fun e =>
            finite negative (digitsValue (m.whole ++ m.fraction)) (e - m.fraction.length) := by
  have hother : ∀ d, isDigit d = false → d ≠ '.' → c ≠ d := by
    rintro d hd hpoint rfl
    rcases hc with hc | hc
    · exact absurd (hd ▸ hc) (by decide)
    · exact hpoint hc
  have hlower : c.toLower = c := by
    rcases hc with hc | rfl
    · exact toLower_of_isDigit hc
    · rfl
  have hword : ∀ d w, isDigit d = false → d ≠ '.' → (c :: s).map Char.toLower ≠ d :: w := by
    intro d w hd hpoint h
    rw [List.map_cons, hlower] at h
    exact hother d hd hpoint (List.cons.inj h).1
  have hinf : ¬ ((c :: s).map Char.toLower = "inf".toList ∨
      (c :: s).map Char.toLower = "infinity".toList) := by
    rintro (h | h)
    · exact hword 'i' ['n', 'f'] rfl (by decide) h
    · exact hword 'i' ['n', 'f', 'i', 'n', 'i', 't', 'y'] rfl (by decide) h
  have hnan : (c :: s).map Char.toLower ≠ "nan".toList := hword 'n' ['a', 'n'] rfl (by decide)
  unfold read?
  rw [readSign_signText (hother '-' rfl (by decide)) (hother '+' rfl (by decide))]
  dsimp only
  rw [if_neg hinf]
  exact if_neg hnan

section Mantissa

variable {whole fraction rest : List Char}

theorem readMantissa_point (hw : ∀ x ∈ whole, isDigit x = true)
    (hf : ∀ x ∈ fraction, isDigit x = true) (hne : whole ++ fraction ≠ [])
    (hrest : ∀ x ∈ rest.head?, isDigit x = false) :
    readMantissa (whole ++ '.' :: (fraction ++ rest)) = some (⟨whole, fraction⟩, rest) := by
  have hempty : (whole.isEmpty && fraction.isEmpty) = false := by
    cases whole <;> cases fraction <;> simp_all
  unfold readMantissa
  rw [List.takeWhile_append_of_pos hw, List.dropWhile_append_of_pos hw]
  have htake : (fraction ++ rest).takeWhile isDigit = fraction := by
    rw [List.takeWhile_append_of_pos hf]
    cases rest with
    | nil => simp
    | cons x rest => simp [hrest x (by simp)]
  have hdrop : (fraction ++ rest).dropWhile isDigit = rest := by
    rw [List.dropWhile_append_of_pos hf]
    cases rest with
    | nil => rfl
    | cons x rest => simp [hrest x (by simp)]
  simpa [htake, hdrop, isDigit] using hempty

theorem readMantissa_whole (hw : ∀ x ∈ whole, isDigit x = true) (hne : whole ≠ [])
    (hrest : ∀ x ∈ rest.head?, isDigit x = false ∧ x ≠ '.') :
    readMantissa (whole ++ rest) = some (⟨whole, []⟩, rest) := by
  have hempty : whole.isEmpty = false := by simpa using hne
  unfold readMantissa
  rw [List.takeWhile_append_of_pos hw, List.dropWhile_append_of_pos hw]
  cases rest with
  | nil => simp [hempty]
  | cons x rest =>
      obtain ⟨hdigit, hpoint⟩ := hrest x (by simp)
      simp [hdigit, hpoint, hempty]

theorem eq_of_readMantissa {body : List Char} {m : Mantissa}
    (h : readMantissa body = some (m, rest)) :
    (∀ x ∈ m.whole ++ m.fraction, isDigit x = true) ∧ m.whole ++ m.fraction ≠ [] ∧
      (body = m.whole ++ '.' :: (m.fraction ++ rest) ∨
        m.fraction = [] ∧ body = m.whole ++ rest) := by
  have hall (s : List Char) : ∀ x ∈ s.takeWhile isDigit, isDigit x = true :=
    List.all_eq_true.mp List.all_takeWhile
  have hsplit := List.takeWhile_append_dropWhile (p := isDigit) (l := body)
  unfold readMantissa at h
  dsimp only at h
  split at h
  · rename_i hrest
    rw [hrest, List.append_nil] at hsplit
    split at h
    · cases h
    · rename_i hne
      cases h
      refine ⟨by simpa using hall body, by simpa using hne, .inr ⟨rfl, ?_⟩⟩
      rw [List.append_nil, hsplit]
  · rename_i c after hrest
    rw [hrest] at hsplit
    split at h
    · rename_i hc
      split at h
      · cases h
      · rename_i hne
        cases h
        refine ⟨fun x hx => ?_, ?_, .inl ?_⟩
        · rcases List.mem_append.mp hx with hx | hx
          · exact hall body x hx
          · exact hall after x hx
        · simpa using hne
        · rw [List.takeWhile_append_dropWhile, ← hc, hsplit]
    · split at h
      · cases h
      · rename_i hne
        cases h
        exact ⟨by simpa using hall body, by simpa using hne, .inr ⟨rfl, hsplit.symm⟩⟩

end Mantissa

end Decimal

namespace Numeral

variable {n : Numeral} {text rest : List Char}

theorem read?_append (h : n.SpelledBy text)
    (hrest : ∀ x ∈ rest.head?, isDigit x = false ∧ x ≠ '.') :
    Decimal.read? (text ++ rest) = (Decimal.readExponent rest).map n.decimal := by
  obtain ⟨negative, whole, fraction, hdigits, hne⟩ := n
  have hw : ∀ x ∈ whole, isDigit x = true := fun x hx => hdigits x (List.mem_append_left _ hx)
  have hf : ∀ x ∈ fraction, isDigit x = true := fun x hx => hdigits x (List.mem_append_right _ hx)
  obtain ⟨body, rfl, c, cs, hbody, hc, hmantissa⟩ : ∃ body, text = signText negative ++ body ∧
      ∃ c cs, body ++ rest = c :: cs ∧ (isDigit c = true ∨ c = '.') ∧
        Decimal.readMantissa (body ++ rest) = some (⟨whole, fraction⟩, rest) := by
    rcases h with rfl | ⟨hnil, rfl⟩
    · refine ⟨_, rfl, ?_⟩
      have hread := Decimal.readMantissa_point hw hf hne fun x hx => (hrest x hx).1
      cases whole with
      | nil => exact ⟨_, _, rfl, .inr rfl, by simpa using hread⟩
      | cons c cs => exact ⟨_, _, rfl, .inl (hw c (by simp)), by simpa using hread⟩
    · obtain rfl : fraction = [] := hnil
      rw [List.append_nil] at hne
      refine ⟨_, rfl, ?_⟩
      have hread := Decimal.readMantissa_whole hw hne hrest
      obtain ⟨c, cs, rfl⟩ := List.exists_cons_of_ne_nil hne
      exact ⟨_, _, rfl, .inl (hw c (by simp)), hread⟩
  rw [hbody] at hmantissa
  rw [List.append_assoc, hbody, Decimal.read?_signText hc, hmantissa]
  rfl

theorem read?_eq (h : n.SpelledBy text) : Decimal.read? text = some (n.decimal 0) := by
  have hread : Decimal.read? (text ++ []) = (Decimal.readExponent []).map n.decimal :=
    read?_append h (by simp)
  rwa [List.append_nil] at hread

end Numeral

theorem Decimal.read?_of_isSpelling {text : List Char} {negative : Bool} {c : Nat} {e : Int}
    (h : IsSpelling text negative c e) : read? text = some (finite negative c e) := by
  obtain ⟨whole, fraction, hwhole, hdigits, rfl, rfl, htext⟩ := h
  let n : Numeral := ⟨negative, whole, fraction, hdigits, by simp [hwhole]⟩
  have hread := Numeral.read?_eq (n := n) htext
  rwa [Numeral.decimal, Int.zero_sub] at hread

section Layout

variable (negative : Bool)

theorem exists_withPoint_eq (ds : List Char) (hds : ∀ x ∈ ds, isDigit x = true) {places : Nat}
    (hplaces : 0 < places) :
    ∃ whole fraction, withPoint ds places = whole ++ '.' :: fraction ∧ whole ≠ [] ∧
      fraction.length = places ∧ (∀ x ∈ whole ++ fraction, isDigit x = true) ∧
      digitsValue (whole ++ fraction) = digitsValue ds := by
  obtain ⟨zeros, hzeros⟩ : ∃ zeros, zeros = List.replicate (places + 1 - ds.length) '0' := ⟨_, rfl⟩
  have hlength : places < (zeros ++ ds).length := by
    rw [List.length_append, hzeros, List.length_replicate]
    omega
  refine ⟨(zeros ++ ds).take ((zeros ++ ds).length - places),
    (zeros ++ ds).drop ((zeros ++ ds).length - places), ?_, ?_, ?_, ?_, ?_⟩
  · rw [withPoint, if_neg (by omega), hzeros]
  · intro hnil
    have := congrArg List.length hnil
    rw [List.length_take, List.length_nil] at this
    omega
  · rw [List.length_drop]
    omega
  · rw [List.take_append_drop]
    intro x hx
    rcases List.mem_append.mp hx with hx | hx
    · exact isDigit_of_mem_replicate (hzeros ▸ hx)
    · exact hds x hx
  · rw [List.take_append_drop, digitsValue_append, hzeros, digitsValue_replicate_zero, Nat.zero_mul,
      Nat.zero_add]

theorem isSpelling_withPoint (c : Nat) {e : Int} (he : e < 0) :
    IsSpelling (signText negative ++ withPoint (digits c) e.natAbs) negative c e := by
  obtain ⟨whole, fraction, htext, hwhole, hlength, hdigits, hvalue⟩ :=
    exists_withPoint_eq (digits c) (fun x hx => isDigit_of_mem_digits hx)
      (show 0 < e.natAbs by omega)
  refine ⟨whole, fraction, hwhole, hdigits, ?_, ?_, .inl ?_⟩
  · rw [hvalue, digitsValue_digits]
  · omega
  · rw [htext]

theorem isSpelling_digits (c : Nat) : IsSpelling (signText negative ++ digits c) negative c 0 := by
  refine ⟨digits c, [], digits_ne_nil c, ?_, ?_, rfl, .inr ⟨rfl, rfl⟩⟩
  · intro x hx
    rw [List.append_nil] at hx
    exact isDigit_of_mem_digits hx
  · rw [List.append_nil, digitsValue_digits]

theorem isSpelling_wholeText {ds : List Char} (hne : ds ≠ [])
    (hds : ∀ x ∈ ds, isDigit x = true) :
    IsSpelling (signText negative ++ wholeText ds) negative (digitsValue ds * 10) (-1) := by
  refine ⟨ds, ['0'], hne, ?_, ?_, rfl, .inl rfl⟩
  · intro x hx
    rcases List.mem_append.mp hx with hx | hx
    · exact hds x hx
    · rw [List.mem_singleton.mp hx]
      rfl
  · rw [digitsValue_append]
    rfl

theorem withPoint_digits_mul_ten (n : Nat) :
    withPoint (digits (n * 10)) 1 = wholeText (digits n) := by
  by_cases hn : n = 0
  · rw [hn, digits_of_lt (by decide)]
    rfl
  · have hlength := List.length_pos_iff.mpr (digits_ne_nil n)
    have hzeros : 1 + 1 - (digits n ++ ['0']).length = 0 := by
      rw [List.length_append, List.length_singleton]
      omega
    rw [digits_mul_ten hn, withPoint, if_neg (by decide), hzeros]
    simp [wholeText]

end Layout

namespace Decimal

theorem positional_of_nonneg (negative : Bool) (c : Nat) {e : Int} (he : 0 ≤ e) :
    positional (finite negative c e) = signText negative ++ digits (c * pow10 e.toNat) := by
  rw [positional]
  by_cases hzero : e ≤ 0
  · obtain rfl : e = 0 := by omega
    simp [withPoint, pow10]
  · rw [if_neg hzero]
    by_cases hc : c = 0
    · rw [if_pos hc, hc, Nat.zero_mul, digits_of_lt (by decide)]
      rfl
    · rw [if_neg hc, digits_mul_pow10 hc]

theorem positional_of_neg (negative : Bool) (c : Nat) {e : Int} (he : e < 0) :
    positional (finite negative c e) = signText negative ++ withPoint (digits c) e.natAbs := by
  rw [positional, if_pos (by omega)]

end Decimal

namespace Binary

theorem isSpelling_positionalText (negative : Bool) (m : Nat) (e : Int) :
    ∃ k : Nat, IsSpelling (positionalText (finite negative m e)) negative
      ((shortestDecimal negative m e).coefficient * pow10 k)
      ((shortestDecimal negative m e).exponent - k) := by
  obtain ⟨c, hc⟩ : ∃ c, c = shortestDecimal negative m e := ⟨_, rfl⟩
  rw [positionalText, ← hc]
  by_cases he : 0 ≤ c.exponent
  · have hdigits : ∀ x ∈ digits c.coefficient ++ List.replicate c.exponent.toNat '0',
        isDigit x = true := by
      intro x hx
      rcases List.mem_append.mp hx with hx | hx
      · exact isDigit_of_mem_digits hx
      · exact isDigit_of_mem_replicate hx
    have hvalue : digitsValue (digits c.coefficient ++ List.replicate c.exponent.toNat '0') =
        c.coefficient * pow10 c.exponent.toNat := by
      rw [digitsValue_append, digitsValue_digits, digitsValue_replicate_zero, Nat.add_zero,
        List.length_replicate]
    split
    · refine ⟨c.exponent.toNat + 1, ?_⟩
      have h := isSpelling_wholeText negative (by simp [digits_ne_nil]) hdigits
      rw [hvalue, Nat.mul_assoc, ← pow10_succ] at h
      rw [positionalDigits, if_pos he, show c.exponent - ↑(c.exponent.toNat + 1) = -1 by omega]
      exact h
    · refine ⟨c.exponent.toNat, ?_⟩
      rw [Decimal.positional_of_nonneg negative _ he,
        show c.exponent - ↑c.exponent.toNat = 0 by omega]
      exact isSpelling_digits negative _
  · have hneg : c.exponent < 0 := by omega
    refine ⟨0, ?_⟩
    have h := isSpelling_withPoint negative c.coefficient hneg
    rw [show c.coefficient * pow10 0 = c.coefficient from Nat.mul_one _,
      show c.exponent - ↑(0 : Nat) = c.exponent by omega]
    split
    · rw [positionalDigits, if_neg he]
      exact h
    · rw [Decimal.positional_of_neg negative _ hneg]
      exact h

end Binary

end HostedLisp.Number

namespace HostedLisp

open Number

theorem point_notMem_digits (negative : Bool) (c : Nat) : '.' ∉ signText negative ++ digits c := by
  rw [List.mem_append]
  rintro (h | h)
  · cases negative <;> simp [signText] at h
  · exact absurd (isDigit_of_mem_digits h) (by decide)

theorem integerText_eq (n : Int) :
    integerText n = signText (decide (n < 0)) ++ digits n.natAbs := by
  cases n with
  | ofNat m => simp [integerText, signText]
  | negSucc m => simp [integerText, signText]

theorem decimalText_of_nonneg (negative : Bool) (c : Nat) {e : Int} (he : 0 ≤ e) :
    decimalText (.finite negative c e) =
      String.ofList (signText negative ++ wholeText (digits (c * pow10 e.toNat))) := by
  have hpoint : (signText negative ++ digits (c * pow10 e.toNat)).contains '.' = false := by
    rw [List.contains_eq_mem, decide_eq_false_iff_not]
    exact point_notMem_digits negative _
  rw [decimalText, Decimal.positional_of_nonneg negative c he]
  rw [hpoint, if_neg (by decide), List.append_assoc, wholeText]

theorem decimalText_of_neg (negative : Bool) (c : Nat) {e : Int} (he : e < 0) :
    decimalText (.finite negative c e) =
      String.ofList (signText negative ++ withPoint (digits c) e.natAbs) := by
  obtain ⟨whole, fraction, htext, -⟩ :=
    exists_withPoint_eq (digits c) (fun x hx => isDigit_of_mem_digits hx)
      (show 0 < e.natAbs by omega)
  rw [decimalText, Decimal.positional_of_neg negative c he]
  rw [if_pos (by rw [htext]; simp)]

/-- The literal of a finite decimal spells it, and so does that of the decimal it reads as. -/
theorem isSpelling_decimalText (negative : Bool) (c : Nat) (e : Int) :
    ∃ k : Nat,
      IsSpelling (decimalText (.finite negative c e)).toList negative (c * pow10 k) (e - k) ∧
      '.' ∈ (decimalText (.finite negative c e)).toList ∧
      decimalText (.finite negative (c * pow10 k) (e - k)) =
        decimalText (.finite negative c e) := by
  by_cases he : 0 ≤ e
  · refine ⟨e.toNat + 1, ?_⟩
    rw [show e - ↑(e.toNat + 1) = -1 by omega, pow10_succ, ← Nat.mul_assoc,
      decimalText_of_neg negative _ (show (-1 : Int) < 0 by decide),
      decimalText_of_nonneg negative c he, show (-1 : Int).natAbs = 1 from rfl,
      withPoint_digits_mul_ten, String.toList_ofList]
    have h := isSpelling_wholeText negative (digits_ne_nil (c * pow10 e.toNat))
      (fun x hx => isDigit_of_mem_digits hx)
    rw [digitsValue_digits] at h
    exact ⟨h, by simp [wholeText], rfl⟩
  · have hneg : e < 0 := by omega
    obtain ⟨whole, fraction, htext, -⟩ :=
      exists_withPoint_eq (digits c) (fun x hx => isDigit_of_mem_digits hx)
        (show 0 < e.natAbs by omega)
    refine ⟨0, ?_⟩
    rw [show c * pow10 0 = c from Nat.mul_one _, show e - ↑(0 : Nat) = e by omega,
      decimalText_of_neg negative c hneg, String.toList_ofList]
    exact ⟨isSpelling_withPoint negative c hneg, by simp [htext], rfl⟩

end HostedLisp
