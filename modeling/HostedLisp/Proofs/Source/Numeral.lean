import HostedLisp.Proofs.Number.Rounded
import HostedLisp.Proofs.Source.RoundTrip

namespace HostedLisp

namespace Number

/-- The rational number that a numeral stands for. -/
def Numeral.value (n : Numeral) : ℚ :=
  signed n.negative (digitsValue (n.whole ++ n.fraction) * 10 ^ (-(n.fraction.length : Int)))

/-- Whether a binary number is what a rational number is rounded to when it is made a single by way
of a double. A finite double that is too large for a single is made none, an infinite one stays. -/
inductive RoundsTwice (q : ℚ) : Binary → Prop
  | finite {s t : Bool} {m k : Nat} {e i : Int} (double : Format.double.Rounds q (.finite s m e))
      (single : Format.single.Rounds (signed s (m * 2 ^ e)) (.finite t k i)) :
      RoundsTwice q (.finite t k i)
  | infinite {s : Bool} (double : Format.double.Rounds q (.infinite s)) :
      RoundsTwice q (.infinite s)

section Reading

variable {n : Numeral} {text : List Char}

theorem rounds_of_readDouble? (h : n.SpelledBy text) {x : Binary} (hx : readDouble? text = some x) :
    Format.double.Rounds n.value x := by
  rw [readDouble?, Numeral.read?_eq h, Option.map_some, Numeral.decimal, Int.zero_sub] at hx
  obtain rfl := Option.some.inj hx
  exact Format.rounds_roundDecimal _ _ _

theorem roundsTwice_of_readSingle? (h : n.SpelledBy text) {x : Binary}
    (hx : readSingle? text = some x) : RoundsTwice n.value x := by
  obtain ⟨y, hy, hconvert, hfinite⟩ := exists_double_of_readSingle? hx
  have hdouble := rounds_of_readDouble? h hy
  cases y with
  | finite s m e =>
      have hsingle := Format.rounds_convert Format.proper_single (by decide) s m e
      rw [hconvert] at hsingle
      cases x with
      | finite t k i => exact .finite hdouble hsingle
      | infinite t => cases hfinite rfl
      | nan => exact hsingle.elim
  | infinite s =>
      obtain rfl : Binary.infinite s = x := hconvert
      exact .infinite hdouble
  | nan => exact hdouble.elim

theorem readSingle?_eq_none (h : n.SpelledBy text) {s : Bool} {m : Nat} {e : Int}
    (hdouble : Format.double.Rounds n.value (.finite s m e))
    (hlarge : Format.single.overflow ≤ |signed s ((m : ℚ) * 2 ^ e)|) : readSingle? text = none := by
  cases hread : readSingle? text with
  | none => rfl
  | some x =>
      cases roundsTwice_of_readSingle? h hread with
      | infinite hdouble' => exact absurd hdouble'.1 (not_le.mpr hdouble.1)
      | finite hdouble' hsingle =>
          have hvalue := hdouble'.2.unique (by decide) hdouble.2
          rw [hvalue] at hsingle
          exact absurd hsingle.1 (not_lt.mpr hlarge)

end Reading

end Number

open Number Derivation

section Literals

variable {t : Token} {v : Literal} {span : Span} {source : String}

theorem Token.eq_of_atom?_literal (h : t.atom? = some (.literal v span)) :
    t.literal? = some v ∧ span = .ofToken t := by
  unfold atom? at h
  split at h
  · cases h
  · obtain ⟨v', hv, heq⟩ := Option.map_eq_some_iff.mp h
    cases heq
    exact ⟨hv, rfl⟩

theorem Derivation.exists_atom_of_tree {d : Derivation} (hd : d.Valid)
    (h : d.tree = .literal v span) :
    ∃ t, d = .atom t ∧ t.literal? = some v ∧ span = .ofToken t := by
  cases d with
  | atom t =>
      obtain ⟨x, hx⟩ := hd
      rw [tree, hx, Option.getD_some] at h
      exact ⟨t, rfl, Token.eq_of_atom?_literal (h ▸ hx)⟩
  | quote => cases h
  | list => cases h
  | invocation => cases h

theorem Lexer.head?_tokens (lx : Lexer) : lx.tokens.head? = some lx.next.1 := by
  cases h : lx.next.1.isFinal with
  | true => rw [tokens_of_final h, List.head?_cons]
  | false => rw [tokens_of_not_final h, List.head?_cons]

theorem literal?_of_parse (h : parse source = .ok (.literal v span)) :
    (Lexer.ofText source).next.1.literal? = some v := by
  obtain ⟨d, hd, hspells, htree⟩ := parse_eq_ok_iff.mp h
  obtain ⟨t, rfl, hv, -⟩ := exists_atom_of_tree hd htree
  obtain ⟨eof, -, htokens⟩ := spells_iff.mp hspells
  have hhead := (Lexer.ofText source).head?_tokens
  change (tokenize source).head? = _ at hhead
  rw [htokens] at hhead
  obtain rfl := Option.some.inj hhead
  exact hv

theorem parse_eq_literal {lx : Lexer} (hnext : (Lexer.ofText source).next = (t, lx))
    (hrest : lx.rest = []) (hv : t.literal? = some v) :
    parse source = .ok (.literal v (.ofToken t)) := by
  have hkind : t.kind ≠ .identifier := by
    intro hkind
    rw [Token.literal?, hkind] at hv
    cases hv
  have hatom : t.atom? = some (.literal v (.ofToken t)) := by
    rw [Token.atom?, if_neg hkind, hv, Option.map_some]
  have hend : lx.next.1.kind = .endOfInput := by
    simp [Lexer.next, Lexer.skipGap, Lexer.lexeme, hrest]
  have hfinal : t.isFinal = false := by
    rcases Token.kind_of_atom? hatom with h | h | h | h | h | h | h | h <;> simp [Token.isFinal, h]
  have htokens : tokenize source = [t] ++ [lx.next.1] := by
    rw [tokenize, Lexer.tokens_of_not_final (by rw [hnext]; exact hfinal), hnext,
      Lexer.tokens_of_final (by simp [Token.isFinal, hend])]
    rfl
  exact parse_eq_ok_iff.mpr
    ⟨.atom t, ⟨_, hatom⟩, spells_iff.mpr ⟨_, hend, htokens⟩, by rw [tree, hatom]; rfl⟩

variable {n : Numeral} {text : List Char} {x : Binary}

theorem rest_ofText (s : List Char) : (Lexer.ofText (String.ofList s)).rest = s := by
  rw [Lexer.ofText, String.toList_ofList]

theorem parse_double (htext : IsNumeral text) (hread : readDouble? text = some x) :
    parse (String.ofList (text ++ ['d'])) =
      .ok (.literal (.double x) (.ofToken ⟨0, .double, some (String.ofList text)⟩)) := by
  refine parse_eq_literal (Lexer.next_suffixed (.inl ⟨rfl, rfl⟩) (rest_ofText _) htext) rfl ?_
  simp only [Token.literal?, Token.textOrEmpty, Option.getD_some, String.toList_ofList, hread,
    Option.map_some]

theorem readSingle?_of_parse (htext : n.SpelledBy text)
    (h : parse (String.ofList (text ++ ['f'])) = .ok (.literal (.float x) span)) :
    readSingle? text = some x := by
  have hv := literal?_of_parse h
  have hrest := rest_ofText (text ++ ['f'])
  by_cases hstart : n.negative = true ∨ n.whole ≠ []
  · rw [Lexer.next_suffixed (.inr ⟨rfl, rfl⟩) hrest (Numeral.isNumeral htext hstart)] at hv
    obtain ⟨y, hy, heq⟩ := Option.map_eq_some_iff.mp hv
    cases heq
    rwa [Token.textOrEmpty, Option.getD_some, String.toList_ofList] at hy
  · -- A numeral that begins with its point is not read as one number.
    obtain ⟨hnegative, hwhole⟩ : n.negative = false ∧ n.whole = [] := by simpa using hstart
    have hne := n.nonempty
    rw [hwhole, List.nil_append] at hne
    have hpoint : text = '.' :: n.fraction := by
      rcases htext with htext | ⟨hnil, -⟩
      · rw [htext, hnegative, hwhole]
        rfl
      · exact absurd hnil hne
    rw [hpoint, List.cons_append] at hrest
    rw [hpoint, List.cons_append,
      Lexer.next_punctuation hrest (show punctuation? '.' = some .dot from rfl)] at hv
    cases hv

/-- The literal of a single is rounded twice. If it is infinite, the double nearest to its numeral
is. Else it is the single nearest to that double. It is the single nearest to the numeral itself,
or else the double is not the numeral and is half-way between it and another single, which is the
nearest to the numeral then, while this one is even. -/
theorem float_literal_rounded {n : Numeral} {text : List Char} (htext : n.SpelledBy text)
    {x : Binary} {span : Span}
    (h : parse (String.ofList (text ++ ['f'])) = .ok (.literal (.float x) span)) :
    (∃ negative, x = .infinite negative ∧ Format.double.overflow ≤ |n.value| ∧
      (negative = true ↔ n.value < 0)) ∨
    ∃ negative m e, x = .finite negative m e ∧ |n.value| < Format.double.overflow ∧
      ∃ y r, r = signed negative (m * 2 ^ e) ∧ Format.double.Nearest n.value y ∧
        |y| < Format.single.overflow ∧ Format.single.Nearest y r ∧
        (Format.single.Nearest n.value r ∨ y ≠ n.value ∧ Format.single.IsEven r ∧
          ∃ s, Format.single.Nearest n.value s ∧ s ≠ r ∧ 2 * y = r + s) := by
  cases roundsTwice_of_readSingle? htext (readSingle?_of_parse htext h) with
  | infinite hdouble => exact .inl ⟨_, rfl, hdouble⟩
  | finite hdouble hsingle =>
      exact .inr ⟨_, _, _, rfl, hdouble.1, _, _, rfl, hdouble.2, hsingle.1, hsingle.2,
        hdouble.2.of_finer Format.finer_single_double Format.proper_single (by decide) hsingle.1
          hsingle.2⟩

/-- The literal `1.5f` is one and a half. -/
theorem float_literal_rounded_of_fraction :
    ∃ y, Format.double.Nearest (3 / 2) y ∧ Format.single.Nearest y (3 / 2) := by
  let n : Numeral := ⟨false, ['1'], ['5'], List.all_eq_true.mp rfl, by decide⟩
  have hvalue : n.value = 15 * 10 ^ (-1 : Int) := rfl
  have hread : readSingle? "1.5".toList = some (.finite false 3 (-1)) := by decide +kernel
  have hparse : parse (String.ofList ("1.5".toList ++ ['f'])) = _ :=
    parse_eq_literal rfl rfl (congrArg (Option.map Literal.float) hread)
  rcases float_literal_rounded (n := n) (.inl rfl) hparse with ⟨negative, hx, -⟩ |
    ⟨negative, m, e, hx, -, y, r, hr, hy, -, hnearest, -⟩
  · cases hx
  · cases hx
    have hthree : r = 3 / 2 := by norm_num [hr, signed]
    have hvalue' : n.value = 3 / 2 := by norm_num [hvalue]
    exact ⟨y, hvalue' ▸ hy, hthree ▸ hnearest⟩

/-- A numeral just above the middle of two singles becomes the lower one, which is even. -/
theorem float_literal_not_nearest :
    ∃ n : Numeral, n.SpelledBy "1.0000000596046447753906251".toList ∧
      (∃ span, parse "1.0000000596046447753906251f" =
        .ok (.literal (.float (.finite false 1 0)) span)) ∧
      ¬ Format.single.Nearest n.value (signed false ((1 : Nat) * 2 ^ (0 : Int))) := by
  let n : Numeral := ⟨false, ['1'], "0000000596046447753906251".toList, List.all_eq_true.mp rfl,
    by decide⟩
  have hvalue : n.value = 10000000596046447753906251 * 10 ^ (-25 : Int) := rfl
  have hread : readSingle? "1.0000000596046447753906251".toList = some (.finite false 1 0) := by
    decide +kernel
  refine ⟨n, .inl rfl, ⟨_, parse_eq_literal rfl rfl ?_⟩, fun h => ?_⟩
  · exact congrArg (Option.map Literal.float) hread
  · have hcloser := h.closest (8388609 * 2 ^ (-23 : Int))
      ⟨8388609, -23, ⟨by decide, by decide, by decide⟩, by norm_num⟩
    rw [hvalue, signed, zpow_neg, zpow_neg] at hcloser
    norm_num [abs_of_pos, abs_of_neg] at hcloser

end Literals

end HostedLisp
