import HostedLisp.Proofs.Source.Extent
import HostedLisp.Proofs.Source.FirstFault
import HostedLisp.Proofs.Source.Numeral

namespace HostedLisp

open Number Derivation

/-- Whether a literal is a number. -/
def Literal.IsNumber : Literal → Prop
  | integer _ | decimal _ | double _ | float _ => True
  | _ => False

/-- Whether a literal is the number of its kind that a numeral is read as. -/
def Literal.IsValueOf (n : Numeral) : Literal → Prop
  | integer k => (k : ℚ) = n.value ∧ leastInt64 ≤ k ∧ k ≤ greatestInt64
  | decimal d => d.magnitude? = some (.finite n.value)
  | double x => Format.double.Rounds n.value x
  | float x => RoundsTwice n.value x
  | _ => False

/-- Whether a token spells an integer that has more than 64 bits, or a single that its double is too
large for. -/
def Token.OutOfRange (t : Token) : Prop :=
  ∃ n : Numeral, n.SpelledBy t.textOrEmpty.toList ∧
    (t.kind = .integer ∧ (n.value < leastInt64 ∨ greatestInt64 < n.value) ∨
      t.kind = .float ∧ ∃ s m e, Format.double.Rounds n.value (.finite s m e) ∧
        Format.single.overflow ≤ |signed s ((m : ℚ) * 2 ^ e)|)

section Numerals

variable {n n' : Numeral} {text : List Char} {t : Token} {v : Literal}

theorem Number.Numeral.magnitude?_decimal (n : Numeral) :
    (n.decimal 0).magnitude? = some (.finite n.value) := by
  rw [Numeral.decimal, Int.zero_sub]
  rfl

theorem Number.Numeral.value_eq (h : n.SpelledBy text) (h' : n'.SpelledBy text) :
    n.value = n'.value := by
  have hread := Option.some.inj ((Numeral.read?_eq h).symm.trans (Numeral.read?_eq h'))
  have hvalue := n.magnitude?_decimal.symm.trans (hread ▸ n'.magnitude?_decimal)
  injection Option.some.inj hvalue

theorem exists_numeral_of_readInteger? {k : Int} (h : readInteger? text = some k) :
    ∃ n : Numeral, n.SpelledBy text ∧ (k : ℚ) = n.value := by
  obtain ⟨negative, ds, htext, hread⟩ : ∃ negative ds, text = signText negative ++ ds ∧
      (if ds.isEmpty || !ds.all isDigit || decide (digitLimit < ds.length) then none
        else some (if negative then -(digitsValue ds : Int) else digitsValue ds)) = some k := by
    unfold readInteger? at h
    split at h
    rename_i negative ds hsplit
    split at hsplit
    · cases hsplit
      exact ⟨true, _, rfl, h⟩
    · cases hsplit
      exact ⟨false, _, rfl, h⟩
  split at hread
  · cases hread
  · rename_i hdigits
    simp only [Bool.or_eq_true, Bool.not_eq_true', decide_eq_true_eq, not_or] at hdigits
    obtain ⟨⟨hne, hall⟩, -⟩ := hdigits
    refine ⟨⟨negative, ds, [], by simpa using hall, by simpa using hne⟩, .inr ⟨rfl, htext⟩, ?_⟩
    rw [← Option.some.inj hread, Numeral.value]
    cases negative <;> simp [signed]

theorem exists_numeral_of_readInt64 {k : Int} (h : readInt64 text = .ok k) :
    ∃ n : Numeral, n.SpelledBy text ∧ (k : ℚ) = n.value := by
  unfold readInt64 at h
  split at h
  · cases h
  · rename_i k' hk'
    split at h
    · obtain rfl := Except.ok.inj h
      exact exists_numeral_of_readInteger? hk'
    · cases h

theorem Token.WellSpelled.exists_numeral (ht : t.WellSpelled) (h : t.literal? = some v)
    (hv : v.IsNumber) : ∃ n : Numeral, n.SpelledBy t.textOrEmpty.toList ∧ v.IsValueOf n := by
  have hreads := denotes_of_literal? h
  rw [Token.WellSpelled] at ht
  cases v with
  | integer k =>
      obtain ⟨n, hn, hvalue⟩ := exists_numeral_of_readInt64 hreads.2
      exact ⟨n, hn, hvalue, range_of_readInt64 hreads.2⟩
  | decimal d =>
      rw [hreads.1] at ht
      obtain ⟨n, hn, rfl⟩ := IsNumeral.exists_numeral ht hreads.2
      exact ⟨n, hn, n.magnitude?_decimal⟩
  | double x =>
      rw [hreads.1] at ht
      obtain ⟨d, hd, -⟩ := Option.map_eq_some_iff.mp hreads.2
      obtain ⟨n, hn, -⟩ := IsNumeral.exists_numeral ht hd
      exact ⟨n, hn, rounds_of_readDouble? hn hreads.2⟩
  | float x =>
      rw [hreads.1] at ht
      obtain ⟨y, hy, -⟩ := exists_double_of_readSingle? hreads.2
      obtain ⟨d, hd, -⟩ := Option.map_eq_some_iff.mp hy
      obtain ⟨n, hn, -⟩ := IsNumeral.exists_numeral ht hd
      exact ⟨n, hn, roundsTwice_of_readSingle? hn hreads.2⟩
  | string s | boolean b | null => exact hv.elim

theorem Token.OutOfRange.literal?_eq_none (h : t.OutOfRange) : t.literal? = none := by
  obtain ⟨n, hn, ⟨hkind, hrange⟩ | ⟨hkind, s, m, e, hdouble, hlarge⟩⟩ := h
  · rw [literal?, hkind]
    cases hread : readInt64 t.textOrEmpty.toList with
    | error fault => rfl
    | ok k =>
        obtain ⟨n', hn', hvalue⟩ := exists_numeral_of_readInt64 hread
        obtain ⟨hleast, hgreatest⟩ := range_of_readInt64 hread
        rw [Numeral.value_eq hn hn', ← hvalue] at hrange
        rcases hrange with hlt | hlt
        · exact absurd hleast (not_le.mpr (by exact_mod_cast hlt))
        · exact absurd hgreatest (not_le.mpr (by exact_mod_cast hlt))
  · rw [literal?, hkind]
    simp only [readSingle?_eq_none hn hdouble hlarge, Option.map_none]

end Numerals

section Derivations

theorem HeadDerivation.kind_of_mem_yield {h : HeadDerivation} (hv : h.Valid) {t : Token}
    (ht : t ∈ h.yield) : t.kind = .dot ∨ t.kind = .identifier ∨ t.kind = .slash := by
  cases h with
  | instanceMember dot name =>
      obtain ⟨hdot, hname⟩ := hv
      simp only [yield, List.mem_cons, List.not_mem_nil, or_false] at ht
      rcases ht with rfl | rfl <;> simp_all
  | identifier name =>
      rw [yield, List.mem_singleton] at ht
      exact .inr (.inl (ht ▸ hv))
  | staticMember first more slash member =>
      obtain ⟨hfirst, hmore, hslash, hmember⟩ := hv
      simp only [yield, segments, List.mem_cons, List.mem_append, List.mem_flatMap,
        List.not_mem_nil, or_false] at ht
      rcases ht with rfl | ⟨s, hs, rfl | rfl⟩ | rfl | rfl
      · simp [hfirst]
      · simp [(hmore s hs).1]
      · simp [(hmore s hs).2]
      · simp [hslash]
      · simp [hmember]

mutual

theorem Derivation.literal?_ne_none : (d : Derivation) → d.Valid → ∀ t ∈ d.yield,
    t.kind = .integer ∨ t.kind = .float → t.literal? ≠ none
  | .atom t, ⟨x, hx⟩, u, hu, hkind => by
      rw [yield, List.mem_singleton] at hu
      subst hu
      rw [Token.atom?, if_neg (by rcases hkind with h | h <;> simp [h])] at hx
      obtain ⟨v, hv, -⟩ := Option.map_eq_some_iff.mp hx
      simp [hv]
  | .quote mark inner, hd, u, hu, hkind => by
      rcases List.mem_cons.mp hu with rfl | hu
      · rcases hkind with h | h <;> exact absurd (hd.1.symm.trans h) (by decide)
      · exact literal?_ne_none inner hd.2 u hu hkind
  | .list opening items closing, hd, u, hu, hkind => by
      simp only [yield, List.mem_cons, List.mem_append, List.not_mem_nil, or_false] at hu
      rcases hu with rfl | hu | rfl
      · rcases hkind with h | h <;> exact absurd (hd.1.symm.trans h) (by decide)
      · exact literal?_ne_none_of_all items hd.2.1 u hu hkind
      · rcases hkind with h | h <;> exact absurd (hd.2.2.symm.trans h) (by decide)
  | .invocation opening head parameters closing, hd, u, hu, hkind => by
      simp only [yield, List.mem_cons, List.mem_append, List.not_mem_nil, or_false] at hu
      rcases hu with rfl | hu | hu | rfl
      · rcases hkind with h | h <;> exact absurd (hd.1.symm.trans h) (by decide)
      · rcases HeadDerivation.kind_of_mem_yield hd.2.1 hu with h' | h' | h' <;>
          simp [h'] at hkind
      · exact literal?_ne_none_of_all parameters hd.2.2.1 u hu hkind
      · rcases hkind with h | h <;> exact absurd (hd.2.2.2.symm.trans h) (by decide)

theorem Derivation.literal?_ne_none_of_all : (ds : List Derivation) → ValidAll ds →
    ∀ t ∈ yieldAll ds, t.kind = .integer ∨ t.kind = .float → t.literal? ≠ none
  | [], _, u, hu, _ => absurd hu List.not_mem_nil
  | d :: ds, hds, u, hu, hkind => by
      rcases List.mem_append.mp hu with hu | hu
      · exact literal?_ne_none d hds.1 u hu hkind
      · exact literal?_ne_none_of_all ds hds.2 u hu hkind

end

mutual

theorem Node.floatsFinite_of_literals : (x : Node) →
    (∀ v span, (Node.literal v span).Within x → v.FloatsFinite) → x.FloatsFinite
  | .quote inner _, h => floatsFinite_of_literals inner fun v span hv => h v span (.quote hv)
  | .invocation head parameters _, h =>
      ⟨floatsFinite_of_literals head fun v span hv => h v span (.head hv),
        allFloatsFinite_of_literals parameters fun _ hy v span hv => h v span (.parameter hy hv)⟩
  | .list items _, h =>
      allFloatsFinite_of_literals items fun _ hy v span hv => h v span (.item hy hv)
  | .literal v span, h => h v span .refl
  | .error .., _ => trivial
  | .identifier .., _ => trivial
  | .instanceMember .., _ => trivial
  | .staticMember .., _ => trivial

theorem Node.allFloatsFinite_of_literals : (xs : List Node) →
    (∀ y ∈ xs, ∀ v span, (Node.literal v span).Within y → v.FloatsFinite) →
    Node.AllFloatsFinite xs
  | [], _ => trivial
  | x :: xs, h =>
      ⟨floatsFinite_of_literals x (h x List.mem_cons_self),
        allFloatsFinite_of_literals xs fun y hy => h y (List.mem_cons_of_mem _ hy)⟩

end

theorem Node.ReadFrom.exists_token {v : Literal} {span : Span} {ts : List Token}
    (h : (Node.literal v span).ReadFrom ts) :
    ∃ t, ts = [t] ∧ t.literal? = some v ∧ span = .ofToken t := by
  generalize hx : Node.literal v span = x at h
  cases h with
  | expression hd =>
      obtain ⟨t, rfl, hv, hspan⟩ := exists_atom_of_tree hd hx.symm
      exact ⟨t, rfl, hv, hspan⟩
  | @head h hv => cases h <;> cases hx

end Derivations

section Texts

variable {source : String} {root : Node}

theorem exists_token_of_literal (h : parse source = .ok root) {v : Literal} {span : Span}
    (hv : (Node.literal v span).Within root) :
    ∃ t ∈ tokenize source, t.literal? = some v ∧ span = .ofToken t := by
  obtain ⟨ts, eof, us, -, htokens, hroot, hus⟩ := exists_readFrom (.inl h)
  obtain ⟨vs, hread, hvs⟩ := hroot.exists_of_within hv
  obtain ⟨t, rfl, ht, hspan⟩ := hread.exists_token
  have hmem : t ∈ ts := (hvs.trans hus).subset List.mem_cons_self
  exact ⟨t, by simp [htokens, hmem], ht, hspan⟩

theorem exists_numeral_of_literal (h : parse source = .ok root) {v : Literal} {span : Span}
    (hv : (Node.literal v span).Within root) (hnumber : v.IsNumber) :
    ∃ t ∈ tokenize source, t.literal? = some v ∧ ∃ n : Numeral, span = .ofToken t ∧
      n.SpelledBy t.textOrEmpty.toList ∧ v.IsValueOf n := by
  obtain ⟨t, ht, hliteral, hspan⟩ := exists_token_of_literal h hv
  have hspelled := (Lexer.ofText source).wellSpelled_of_mem_tokens t ht
  obtain ⟨n, hn, hvalue⟩ := hspelled.exists_numeral hliteral hnumber
  exact ⟨t, ht, hliteral, n, hspan, hn, hvalue⟩

/-- Whether all doubles and singles of a text are small enough for a double. -/
def FitsDoubles (source : String) : Prop :=
  ∀ t ∈ tokenize source, t.kind = .double ∨ t.kind = .float →
    ∀ n : Numeral, n.SpelledBy t.textOrEmpty.toList → |n.value| < Format.double.overflow

theorem floatsFinite_of_parse (h : parse source = .ok root) (hfits : FitsDoubles source) :
    root.FloatsFinite := by
  refine root.floatsFinite_of_literals fun v span hv => ?_
  cases v with
  | double x =>
      obtain ⟨t, ht, hliteral, n, -, hn, hvalue⟩ := exists_numeral_of_literal h hv trivial
      have hsmall := hfits t ht (.inl (Token.denotes_of_literal? hliteral).1) n hn
      cases x with
      | finite => rfl
      | infinite => exact absurd hsmall (not_lt.mpr hvalue.1)
      | nan => exact hvalue.elim
  | float x =>
      obtain ⟨t, ht, hliteral, n, -, hn, hvalue⟩ := exists_numeral_of_literal h hv trivial
      have hsmall := hfits t ht (.inr (Token.denotes_of_literal? hliteral).1) n hn
      cases hvalue with
      | finite => rfl
      | infinite hdouble => exact absurd hsmall (not_lt.mpr hdouble.1)
  | _ => trivial

theorem Token.OutOfRange.kind_eq {t : Token} (h : t.OutOfRange) :
    t.kind = .integer ∨ t.kind = .float := by
  obtain ⟨-, -, ⟨hkind, -⟩ | ⟨hkind, -⟩⟩ := h
  · exact .inl hkind
  · exact .inr hkind

theorem Token.OutOfRange.not_mem_yield {t : Token} (h : t.OutOfRange) {d : Derivation}
    (hd : d.Valid) : t ∉ d.yield :=
  fun ht => d.literal?_ne_none hd t ht h.kind_eq h.literal?_eq_none

theorem Token.OutOfRange.not_parse {t : Token} (h : t.OutOfRange) (ht : t ∈ tokenize source) :
    parse source ≠ .ok root := by
  intro hparse
  obtain ⟨d, hd, hspells, -⟩ := parse_eq_ok_iff.mp hparse
  obtain ⟨eof, heof, htokens⟩ := spells_iff.mp hspells
  rw [htokens] at ht
  rcases List.mem_append.mp ht with ht | ht
  · exact h.not_mem_yield hd ht
  · rw [List.mem_singleton.mp ht] at h
    rcases h.kind_eq with hkind | hkind <;> exact absurd (heof.symm.trans hkind) (by decide)

theorem Token.OutOfRange.firstOffending {t : Token} (h : t.OutOfRange) {ts us : List Token}
    (htokens : tokenize source = ts ++ t :: us) (hviable : Language.expression.Viable ts) :
    Language.expression.FirstOffending source ts t := by
  refine ⟨⟨us, htokens⟩, hviable, ?_⟩
  rintro ⟨rest, d, hd, hyield⟩
  exact h.not_mem_yield hd (by simp [hyield])

theorem firstOffending_of_parse {e : SyntaxError} (h : parse source = .error e) :
    ∃ ts, Language.expression.FirstOffending source ts e.stop ∧
      (e.start = e.stop ∨ e.message = "Scoped identifier must have only one part") := by
  have houtcome := Parser.outcome_whole (p := Parser.ofText source) rfl
  unfold parse at h
  cases hrule : Parser.whole (Parser.ofText source) with
  | mk result q =>
      rw [hrule] at houtcome h
      obtain rfl : result = .error e := h
      obtain ⟨ts, hts, -, -, hstart⟩ := Parser.LocatedFrom.atFirstOffending houtcome
      refine ⟨ts, hts, ?_⟩
      split at hstart
      · rename_i hmessage
        exact .inr hmessage
      · exact .inl hstart

/-- Every number in what a text is read as is the one that its token spells, in the way of its kind.
If no double and no single is too large for a double, none is infinite, and the text of what is read
reads back as the same. An integer or a single that is too large for its kind is where the error of
the text is, which is about this token or about a dotted name in front of it. -/
theorem numbers_of_text (source : String) :
    (∀ root, parse source = .ok root →
      (∀ v span, (Node.literal v span).Within root → v.IsNumber →
        ∃ t ∈ tokenize source, ∃ n : Numeral, span = .ofToken t ∧
          n.SpelledBy t.textOrEmpty.toList ∧ v.IsValueOf n) ∧
      (FitsDoubles source → root.FloatsFinite ∧
        ∃ y, parse root.text = .ok y ∧ root.same y = true ∧ y.text = root.text)) ∧
    ∀ ts t us, tokenize source = ts ++ t :: us → Language.expression.Viable ts → t.OutOfRange →
      ∃ e, parse source = .error e ∧ e.stop = t ∧
        (e.start = t ∨ e.message = "Scoped identifier must have only one part") := by
  refine ⟨fun root h => ⟨fun v span hv hnumber => ?_, fun hfits => ?_⟩, ?_⟩
  · obtain ⟨t, ht, -, hn⟩ := exists_numeral_of_literal h hv hnumber
    exact ⟨t, ht, hn⟩
  · have hfinite := floatsFinite_of_parse h hfits
    exact ⟨hfinite, parse_text (wellFormed_of_parse h hfinite)⟩
  · intro ts t us htokens hviable hrange
    cases hparse : parse source with
    | ok root => exact absurd hparse (hrange.not_parse (by simp [htokens]))
    | error e =>
        obtain ⟨ts', hoffending, hstart⟩ := firstOffending_of_parse hparse
        obtain ⟨-, rfl⟩ := (hrange.firstOffending htokens hviable).unique hoffending
        exact ⟨e, rfl, rfl, hstart⟩

/-- The text `1.5d` is a finite double and reads back; `9223372036854775808` has one bit too
many. -/
theorem numbers_of_text_of_fraction :
    let x : Node := .literal (.double (.finite false 3 (-1))) (.ofToken ⟨0, .double, some "1.5"⟩)
    (x.FloatsFinite ∧ ∃ y, parse x.text = .ok y ∧ x.same y = true ∧ y.text = x.text) ∧
      ∃ e, parse "9223372036854775808" = .error e ∧
        e.stop = ⟨0, .integer, some "9223372036854775808"⟩ := by
  intro x
  have htokens : tokenize "1.5d" = [⟨0, .double, some "1.5"⟩, ⟨4, .endOfInput, none⟩] := by
    unfold tokenize
    rw [Lexer.tokens_of_not_final rfl, Lexer.tokens_of_final rfl]
    rfl
  have htokens' : tokenize "9223372036854775808" =
      [] ++ ⟨0, .integer, some "9223372036854775808"⟩ :: [⟨19, .endOfInput, none⟩] := by
    unfold tokenize
    rw [Lexer.tokens_of_not_final rfl, Lexer.tokens_of_final rfl]
    rfl
  have hread : readDouble? "1.5".toList = some (.finite false 3 (-1)) := by decide +kernel
  have hparse : parse "1.5d" = .ok x :=
    parse_eq_literal rfl rfl (congrArg (Option.map Literal.double) hread)
  have hfits : FitsDoubles "1.5d" := by
    intro t ht hkind n hn
    rw [htokens] at ht
    simp only [List.mem_cons, List.not_mem_nil, or_false] at ht
    rcases ht with rfl | rfl
    · let half : Numeral := ⟨false, ['1'], ['5'], List.all_eq_true.mp rfl, by decide⟩
      have hhalf : half.SpelledBy "1.5".toList := .inl rfl
      have hvalue : n.value = 15 * 10 ^ (-1 : Int) := Numeral.value_eq hn hhalf
      have hpow : (1 : ℚ) ≤ 2 ^ Format.double.maxExponent := one_le_zpow₀ (by decide) (by decide)
      rw [hvalue]
      calc |(15 : ℚ) * 10 ^ (-1 : Int)| < (2 ^ Format.double.precision - 1 / 2) * 1 := by
            norm_num [Format.double]
        _ ≤ Format.double.overflow := mul_le_mul_of_nonneg_left hpow (by norm_num [Format.double])
    · rcases hkind with h | h <;> cases h
  have hrange : Token.OutOfRange ⟨0, .integer, some "9223372036854775808"⟩ := by
    let n : Numeral := ⟨false, "9223372036854775808".toList, [], List.all_eq_true.mp rfl, by decide⟩
    have hvalue : n.value = 9223372036854775808 * 10 ^ (0 : Int) := rfl
    refine ⟨n, .inr ⟨rfl, rfl⟩, .inl ⟨rfl, .inr ?_⟩⟩
    rw [hvalue, greatestInt64]
    norm_num
  have hviable : Language.expression.Viable [] :=
    ⟨[⟨0, .null, none⟩], .atom ⟨0, .null, none⟩, ⟨_, rfl⟩, rfl⟩
  obtain ⟨e, he, hstop, -⟩ :=
    (numbers_of_text "9223372036854775808").2 _ _ _ htokens' hviable hrange
  exact ⟨((numbers_of_text "1.5d").1 x hparse).2 hfits, e, he, hstop⟩

/-- A double with three hundred and ten digits is read as an infinity, whose text is a name. -/
theorem double_literal_infinite :
    ∃ x y, parse (String.ofList ('1' :: List.replicate 309 '0' ++ ['d'])) = .ok x ∧
      ¬ x.FloatsFinite ∧ parse x.text = .ok y ∧ x.same y = false := by
  have hnumeral : IsNumeral ('1' :: List.replicate 309 '0') := by
    refine ⟨'1', _, rfl, rfl, fun x hx => ?_⟩
    rw [List.eq_of_mem_replicate hx]
    rfl
  have hread : readDouble? ('1' :: List.replicate 309 '0') = some (.infinite false) := by
    decide +kernel
  exact ⟨_, .identifier "inf" (.ofToken ⟨0, .identifier, some "inf"⟩),
    parse_double hnumeral hread, Bool.false_ne_true, rfl, rfl⟩

end Texts

end HostedLisp
