import HostedLisp.Proofs.Source.Stream
import HostedLisp.Source.Printer
import Mathlib.Data.List.TakeWhile

namespace HostedLisp

/-- Whether a text is a name: it is neither empty nor one of the words for literals. -/
def IsName (s : String) : Prop :=
  ∃ c cs, s.toList = c :: cs ∧ isNameStart c = true ∧ (∀ x ∈ cs, isNamePart x = true) ∧
    wordKind (c :: cs) = .identifier

/-- Whether characters are those of a number. -/
def IsNumeral (s : List Char) : Prop :=
  ∃ c cs, s = c :: cs ∧ isNumeralStart c = true ∧ ∀ x ∈ cs, isNumeralPart x = true

/-- Whether the text of a token is one that its kind allows. -/
def Token.WellSpelled (t : Token) : Prop :=
  match t.kind with
  | .fault => ∃ f : LexicalFault, t.text = some f.message
  | .identifier => IsName t.textOrEmpty
  | .integer | .decimal | .double | .float => IsNumeral t.textOrEmpty.toList
  | _ => True

theorem wordKind_cases (w : List Char) :
    wordKind w = .identifier ∨ wordKind w = .boolean ∨ wordKind w = .null := by
  unfold wordKind
  split
  · exact .inr (.inl rfl)
  · split
    · exact .inr (.inr rfl)
    · exact .inl rfl

theorem punctuation?_cases {c : Char} {kind : TokenKind} (h : punctuation? c = some kind) :
    kind = .parenOpen ∨ kind = .parenClose ∨ kind = .bracketOpen ∨ kind = .bracketClose ∨
      kind = .quote ∨ kind = .dot ∨ kind = .slash := by
  unfold punctuation? at h
  split at h <;> simp_all

namespace Lexer

theorem wellSpelled_word (lx : Lexer) {c : Char} (hc : isNameStart c = true) (rest : List Char) :
    (lx.word c rest).1.WellSpelled := by
  have hrest := List.all_eq_true.mp (List.all_takeWhile (p := isNamePart) (l := rest))
  rcases wordKind_cases (c :: rest.takeWhile isNamePart) with h | h | h
  · have hname : IsName (String.ofList (c :: rest.takeWhile isNamePart)) :=
      ⟨c, _, by simp, hc, hrest, h⟩
    simp only [Token.WellSpelled, word, h]
    exact hname
  · simp only [Token.WellSpelled, word, h]
  · simp only [Token.WellSpelled, word, h]

theorem wellSpelled_numeral (lx : Lexer) {c : Char} (hc : isNumeralStart c = true)
    (rest : List Char) : (lx.numeral c rest).1.WellSpelled := by
  have hrest := List.all_eq_true.mp (List.all_takeWhile (p := isNumeralPart) (l := rest))
  have hnumeral : IsNumeral (String.ofList (c :: rest.takeWhile isNumeralPart)).toList :=
    ⟨c, _, by simp, hc, hrest⟩
  unfold numeral
  split
  · exact hnumeral
  · exact hnumeral
  · dsimp only
    split
    · exact hnumeral
    · exact hnumeral

theorem wellSpelled_ofScan (lx : Lexer) (s : Scan) : (lx.ofScan s).1.WellSpelled := by
  cases s with
  | closed text length rest => trivial
  | stopped fault length rest => exact ⟨fault, rfl⟩

theorem wellSpelled_lexeme (lx : Lexer) : lx.lexeme.1.WellSpelled := by
  unfold lexeme
  split
  · trivial
  · rename_i c rest hrest
    split
    · rename_i kind hkind
      rcases punctuation?_cases hkind with rfl | rfl | rfl | rfl | rfl | rfl | rfl <;> trivial
    · split
      · rename_i hc
        exact lx.wellSpelled_word hc rest
      · split
        · rename_i hc
          exact lx.wellSpelled_numeral hc rest
        · split
          · exact lx.wellSpelled_ofScan _
          · split
            · exact lx.wellSpelled_ofScan _
            · exact ⟨_, rfl⟩

theorem wellSpelled_of_mem_tokens (lx : Lexer) : ∀ t ∈ lx.tokens, t.WellSpelled := by
  induction lx using tokens.induct with
  | case1 lx hfinal =>
      intro t ht
      rw [tokens_of_final hfinal, List.mem_singleton] at ht
      exact ht ▸ lx.skipGap.wellSpelled_lexeme
  | case2 lx hfinal ih =>
      intro t ht
      rw [tokens_of_not_final (by simpa using hfinal)] at ht
      rcases List.mem_cons.mp ht with rfl | ht
      · exact lx.skipGap.wellSpelled_lexeme
      · exact ih t ht

end Lexer

section Characters

variable {c : Char}

theorem isGap_of_ne (h : c ≠ ' ' ∧ c ≠ '\t' ∧ c ≠ ',' ∧ c ≠ '\r' ∧ c ≠ '\n') : isGap c = false := by
  simp [isGap, h]

theorem isGap_of_isNameStart (h : isNameStart c = true) : isGap c = false := by
  apply isGap_of_ne
  refine ⟨?_, ?_, ?_, ?_, ?_⟩ <;> rintro rfl <;> exact absurd h (by decide)

theorem isGap_of_isNumeralStart (h : isNumeralStart c = true) : isGap c = false := by
  apply isGap_of_ne
  refine ⟨?_, ?_, ?_, ?_, ?_⟩ <;> rintro rfl <;> exact absurd h (by decide)

theorem punctuation?_of_isNameStart (h : isNameStart c = true) : punctuation? c = none := by
  unfold punctuation?
  split <;> first | rfl | exact absurd h (by decide)

theorem punctuation?_of_isNumeralStart (h : isNumeralStart c = true) : punctuation? c = none := by
  unfold punctuation?
  split <;> first | rfl | exact absurd h (by decide)

theorem isNameStart_of_isNumeralStart (h : isNumeralStart c = true) : isNameStart c = false := by
  by_contra hname
  simp only [isNameStart, isNumeralStart, Bool.not_eq_false, Bool.or_eq_true, Bool.and_eq_true,
    decide_eq_true_eq, beq_iff_eq, Char.le_def, UInt32.le_iff_toNat_le] at hname h
  rcases h with h | rfl
  · rcases hname with (hname | hname) | rfl
    · exact absurd (Nat.le_trans hname.1 h.2) (by decide)
    · exact absurd (Nat.le_trans hname.1 h.2) (by decide)
    · exact absurd h.2 (by decide)
  · exact absurd hname (by decide)

end Characters

theorem takeWhile_append_of_head? {p : Char → Bool} {s r : List Char} (hs : ∀ x ∈ s, p x = true)
    (hr : ∀ x ∈ r.head?, p x = false) : (s ++ r).takeWhile p = s := by
  rw [List.takeWhile_append_of_pos hs]
  cases r with
  | nil => simp
  | cons x r => simp [hr x (by simp)]

theorem dropWhile_append_of_head? {p : Char → Bool} {s r : List Char} (hs : ∀ x ∈ s, p x = true)
    (hr : ∀ x ∈ r.head?, p x = false) : (s ++ r).dropWhile p = r := by
  rw [List.dropWhile_append_of_pos hs]
  cases r with
  | nil => rfl
  | cons x r => simp [hr x (by simp)]

theorem escapeChar_cases (c : Char) :
    (∃ e, escapeChar c = ['\\', e] ∧ unescape? e = some c) ∨
      escapeChar c = [c] ∧ c ≠ '\\' ∧ c ≠ '\'' := by
  by_cases hbackslash : c = '\\'
  · subst hbackslash
    exact .inl ⟨'\\', rfl, rfl⟩
  by_cases hquote : c = '\''
  · subst hquote
    exact .inl ⟨'\'', rfl, rfl⟩
  by_cases hnewline : c = '\n'
  · subst hnewline
    exact .inl ⟨'n', rfl, rfl⟩
  by_cases hreturn : c = '\r'
  · subst hreturn
    exact .inl ⟨'r', rfl, rfl⟩
  by_cases htab : c = '\t'
  · subst htab
    exact .inl ⟨'t', rfl, rfl⟩
  · exact .inr ⟨by simp [escapeChar, hbackslash, hquote, hnewline, hreturn, htab], hbackslash,
      hquote⟩

theorem exists_scanString_eq (s r : List Char) :
    ∃ n, scanString (s.flatMap escapeChar ++ '\'' :: r) = .closed s n r := by
  induction s with
  | nil =>
      refine ⟨1, ?_⟩
      rw [List.flatMap_nil, List.nil_append, scanString.eq_def]
      exact if_pos rfl
  | cons c s ih =>
      obtain ⟨n, hn⟩ := ih
      rw [List.flatMap_cons, List.append_assoc]
      rcases escapeChar_cases c with ⟨e, he, hunescape⟩ | ⟨hself, hbackslash, hquote⟩
      · refine ⟨n + 2, ?_⟩
        rw [he, List.cons_append, scanString.eq_def]
        simp [hunescape, hn, Scan.cons]
      · refine ⟨n + 1, ?_⟩
        rw [hself, List.cons_append, scanString.eq_def]
        simp [hbackslash, hquote, hn, Scan.cons]

namespace Lexer

variable {lx : Lexer} {r : List Char}

theorem skipGap_of_cons {c : Char} {s : List Char} (h : lx.rest = c :: s) (hc : isGap c = false) :
    lx.skipGap = lx := by
  rw [skipGap, h, List.dropWhile_cons_of_neg (by simp [hc]),
    List.takeWhile_cons_of_neg (by simp [hc]), ← h]
  rfl

theorem next_of_gap {s : List Char} (h : lx.rest = ' ' :: s) :
    lx.next = (⟨s, lx.position + 1, lx.lastStart⟩ : Lexer).next := by
  have hskip : lx.skipGap = (⟨s, lx.position + 1, lx.lastStart⟩ : Lexer).skipGap := by
    simp [skipGap, h, isGap]
    omega
  rw [next, next, hskip]

theorem next_punctuation {c : Char} {kind : TokenKind} (h : lx.rest = c :: r)
    (hc : punctuation? c = some kind) :
    lx.next = (⟨lx.position, kind, some c.toString⟩, lx.advance 1 r) := by
  have hgap : isGap c = false := by
    apply isGap_of_ne
    refine ⟨?_, ?_, ?_, ?_, ?_⟩ <;> rintro rfl <;> cases hc
  rw [next, skipGap_of_cons h hgap, lexeme, h]
  simp only [hc]

theorem next_word {c : Char} {cs : List Char} (h : lx.rest = c :: cs ++ r)
    (hc : isNameStart c = true) (hcs : ∀ x ∈ cs, isNamePart x = true)
    (hr : ∀ x ∈ r.head?, isNamePart x = false) :
    lx.next = (⟨lx.position, wordKind (c :: cs), some (String.ofList (c :: cs))⟩,
      lx.advance (c :: cs).length r) := by
  rw [next, skipGap_of_cons h (isGap_of_isNameStart hc), lexeme, h, List.cons_append]
  simp only [punctuation?_of_isNameStart hc, hc, if_true, word, takeWhile_append_of_head? hcs hr,
    dropWhile_append_of_head? hcs hr]

theorem next_numeral {c : Char} {cs : List Char} (h : lx.rest = c :: cs ++ r)
    (hc : isNumeralStart c = true) : lx.next = lx.numeral c (cs ++ r) := by
  rw [next, skipGap_of_cons h (isGap_of_isNumeralStart hc), lexeme, h, List.cons_append]
  simp [punctuation?_of_isNumeralStart hc, isNameStart_of_isNumeralStart hc, hc]

theorem next_suffixed {body : List Char} {suffix : Char} {kind : TokenKind}
    (hkind : suffix = 'd' ∧ kind = .double ∨ suffix = 'f' ∧ kind = .float)
    (h : lx.rest = body ++ suffix :: r) (hbody : IsNumeral body) :
    lx.next = (⟨lx.position, kind, some (String.ofList body)⟩, lx.advance (body.length + 1) r) := by
  obtain ⟨c, cs, rfl, hc, hcs⟩ := hbody
  have hr : ∀ x ∈ (suffix :: r).head?, isNumeralPart x = false := by
    intro x hx
    obtain rfl : suffix = x := by simpa using hx
    rcases hkind with ⟨rfl, -⟩ | ⟨rfl, -⟩ <;> decide
  rw [next_numeral h hc, numeral, takeWhile_append_of_head? hcs hr,
    dropWhile_append_of_head? hcs hr]
  rcases hkind with ⟨rfl, rfl⟩ | ⟨rfl, rfl⟩ <;> rfl

theorem next_unsuffixed {body : List Char} (h : lx.rest = body ++ r) (hbody : IsNumeral body)
    (hr : ∀ x ∈ r.head?, isNumeralPart x = false ∧ x ≠ 'd' ∧ x ≠ 'f') :
    lx.next = (⟨lx.position, if '.' ∈ body then .decimal else .integer, some (String.ofList body)⟩,
      lx.advance body.length r) := by
  obtain ⟨c, cs, rfl, hc, hcs⟩ := hbody
  have hr' : ∀ x ∈ r.head?, isNumeralPart x = false := fun x hx => (hr x hx).1
  rw [next_numeral h hc, numeral, takeWhile_append_of_head? hcs hr',
    dropWhile_append_of_head? hcs hr']
  dsimp only
  split
  · exact absurd rfl (hr 'd' (by simp)).2.1
  · exact absurd rfl (hr 'f' (by simp)).2.2
  · simp

theorem next_string {s : String} (h : lx.rest = (stringText s).toList ++ r) :
    ∃ n, lx.next = (⟨lx.position, .string, some s⟩, lx.advance n r) := by
  obtain ⟨n, hn⟩ := exists_scanString_eq s.toList r
  rw [stringText, String.toList_ofList, List.append_assoc, List.singleton_append,
    List.cons_append] at h
  refine ⟨n + 1, ?_⟩
  rw [next, skipGap_of_cons h (by decide), lexeme, h]
  simp [punctuation?, isNameStart, isNumeralStart, hn, ofScan]

end Lexer

end HostedLisp
