import HostedLisp.Proofs.Source.Lexeme

/-!
Texts as gaps and lexemes in turn. Main statement: the tokens of a text are those of the only way to
divide it into gaps and lexemes, each as long as it can be, up to the end of the text or to where no
lexeme can be completed, and every token stands where its lexeme begins.
-/

namespace HostedLisp

/-- Whether characters between quotes spell a text: a backslash stands in front of the letter of an
escape, and no other character is a backslash or a quote. -/
inductive IsQuoted : (inner text : List Char) → Prop
  | nil : IsQuoted [] []
  | plain {c : Char} {inner text : List Char} (hquote : c ≠ '\'') (hbackslash : c ≠ '\\')
      (h : IsQuoted inner text) : IsQuoted (c :: inner) (c :: text)
  | escape {e c : Char} {inner text : List Char} (he : unescape? e = some c)
      (h : IsQuoted inner text) : IsQuoted ('\\' :: e :: inner) (c :: text)

/-- Whether characters are the lexeme of a token, where `after` follows them. Names and numbers end
only where the next character cannot continue them. -/
inductive IsLexeme (after : List Char) : Token → (lexeme : List Char) → Prop
  | punctuation {position : Nat} {c : Char} {kind : TokenKind} (h : punctuation? c = some kind) :
      IsLexeme after ⟨position, kind, some c.toString⟩ [c]
  | word {position : Nat} {c : Char} {cs : List Char} (hc : isNameStart c = true)
      (hcs : ∀ x ∈ cs, isNamePart x = true) (hafter : ∀ x ∈ after.head?, isNamePart x = false) :
      IsLexeme after ⟨position, wordKind (c :: cs), some (String.ofList (c :: cs))⟩ (c :: cs)
  | numeral {position : Nat} {body : List Char} (hbody : IsNumeral body)
      (hafter : ∀ x ∈ after.head?, isNumeralPart x = false ∧ x ≠ 'd' ∧ x ≠ 'f') :
      IsLexeme after ⟨position, if '.' ∈ body then .decimal else .integer,
        some (String.ofList body)⟩ body
  | double {position : Nat} {body : List Char} (hbody : IsNumeral body) :
      IsLexeme after ⟨position, .double, some (String.ofList body)⟩ (body ++ ['d'])
  | float {position : Nat} {body : List Char} (hbody : IsNumeral body) :
      IsLexeme after ⟨position, .float, some (String.ofList body)⟩ (body ++ ['f'])
  | string {position : Nat} {inner text : List Char} (h : IsQuoted inner text) :
      IsLexeme after ⟨position, .string, some (String.ofList text)⟩ ('\'' :: inner ++ ['\''])
  | rawString {position : Nat} {body : List Char} (h : '\x60' ∉ body) :
      IsLexeme after ⟨position, .string, some (String.ofList body)⟩ ('\x60' :: body ++ ['\x60'])

/-- Whether no lexeme begins with characters which stand between the offsets `start` and `stop`, at
the end of a text, and a fault is found at a position. The position is that of the unexpected
character, that of the letter after the backslash, or the end of the text. -/
inductive IsBroken (start stop : Nat) : LexicalFault → (position : Nat) → List Char → Prop
  | unexpected {c : Char} {rest : List Char} (hgap : isGap c = false)
      (hpunctuation : punctuation? c = none) (hname : isNameStart c = false)
      (hnumeral : isNumeralStart c = false) (hquote : c ≠ '\'') (hmark : c ≠ '\x60') :
      IsBroken start stop (.unexpectedCharacter c start) start (c :: rest)
  | unknownEscape {inner text rest : List Char} {e : Char} (h : IsQuoted inner text)
      (he : unescape? e = none) :
      IsBroken start stop (.unknownEscape e) (start + ('\'' :: inner ++ ['\\']).length)
        ('\'' :: inner ++ ['\\'] ++ e :: rest)
  | unterminatedString {inner text tail : List Char} (h : IsQuoted inner text)
      (htail : tail = [] ∨ tail = ['\\']) :
      IsBroken start stop .unterminatedString stop ('\'' :: inner ++ tail)
  | unterminatedRawString {body : List Char} (h : '\x60' ∉ body) :
      IsBroken start stop .unterminatedRawString stop ('\x60' :: body)

/-- A lexeme and the gap in front of it. -/
structure Segment where
  gap : List Char
  lexeme : List Char

namespace Segment

/-- The characters of segments one after the other. -/
def charsOf : List Segment → List Char
  | [] => []
  | s :: ss => s.gap ++ s.lexeme ++ charsOf ss

/-- Whether segments are the gaps and lexemes of tokens, where the first segment begins at an offset
and `rest` follows the last one. -/
def Spell (offset : Nat) : List Segment → List Token → (rest : List Char) → Prop
  | [], [], _ => True
  | s :: ss, t :: ts, rest =>
      (∀ c ∈ s.gap, isGap c = true) ∧ t.position = offset + s.gap.length ∧
        IsLexeme (charsOf ss ++ rest) t s.lexeme ∧
        Spell (offset + (s.gap ++ s.lexeme).length) ss ts rest
  | _, _, _ => False

end Segment

/-- A text as gaps and lexemes in turn: the lexemes with the gaps in front of them, the gap after
the last one, and the characters from where no lexeme can be completed on. -/
structure Partition where
  segments : List Segment
  last : List Char
  broken : List Char

namespace Partition

/-- Whether a partition divides a text that begins at an offset into the lexemes of tokens, where
the last token stands for the end of the text or for what is wrong where no lexeme can be
completed. -/
structure Divides (p : Partition) (offset : Nat) (source : List Char) (ts : List Token)
    (final : Token) : Prop where
  chars_eq : source = Segment.charsOf p.segments ++ p.last ++ p.broken
  spell : Segment.Spell offset p.segments ts (p.last ++ p.broken)
  last_gap : ∀ c ∈ p.last, isGap c = true
  final_eq : p.broken = [] ∧ final = ⟨offset + source.length, .endOfInput, none⟩ ∨
    ∃ f position, final = f.token position ∧
      IsBroken (offset + (Segment.charsOf p.segments ++ p.last).length) (offset + source.length) f
        position p.broken

end Partition

section Scans

variable {inner text body r : List Char}

theorem scanString_of_isQuoted (h : IsQuoted inner text) (r : List Char) :
    scanString (inner ++ '\'' :: r) = .closed text (inner.length + 1) r := by
  induction h with
  | nil =>
      rw [List.nil_append, scanString.eq_def]
      exact if_pos rfl
  | plain hquote hbackslash _ ih =>
      rw [List.cons_append, scanString.eq_def]
      simp [hquote, hbackslash, ih, Scan.cons]
  | escape he _ ih =>
      rw [List.cons_append, List.cons_append, scanString.eq_def]
      simp [he, ih, Scan.cons]

theorem scanString_unknownEscape (h : IsQuoted inner text) {e : Char} (he : unescape? e = none)
    (r : List Char) : scanString (inner ++ '\\' :: e :: r) =
      .stopped (.unknownEscape e) (inner.length + 1) (e :: r) := by
  induction h with
  | nil =>
      rw [List.nil_append, scanString.eq_def]
      simp [he]
  | plain hquote hbackslash _ ih =>
      rw [List.cons_append, scanString.eq_def]
      simp [hquote, hbackslash, ih, Scan.cons]
  | escape he' _ ih =>
      rw [List.cons_append, List.cons_append, scanString.eq_def]
      simp [he', ih, Scan.cons]

theorem scanString_unterminated (h : IsQuoted inner text) {tail : List Char}
    (htail : tail = [] ∨ tail = ['\\']) :
    scanString (inner ++ tail) = .stopped .unterminatedString (inner ++ tail).length [] := by
  induction h with
  | nil =>
      rcases htail with rfl | rfl
      · rfl
      · rw [List.nil_append, scanString.eq_def]
        rfl
  | plain hquote hbackslash _ ih =>
      rw [List.cons_append, scanString.eq_def]
      simp [hquote, hbackslash, ih, Scan.cons]
  | escape he _ ih =>
      rw [List.cons_append, List.cons_append, scanString.eq_def]
      simp [he, ih, Scan.cons]

theorem scanRawString_of_notMem (h : '\x60' ∉ body) (r : List Char) :
    scanRawString (body ++ '\x60' :: r) = .closed body (body.length + 1) r := by
  induction body with
  | nil =>
      rw [List.nil_append, scanRawString]
      exact if_pos rfl
  | cons c body ih =>
      obtain ⟨hc, hbody⟩ := not_or.mp (mt List.mem_cons.mpr h)
      rw [List.cons_append, scanRawString, if_neg (Ne.symm hc), ih hbody]
      rfl

theorem scanRawString_unterminated (h : '\x60' ∉ body) :
    scanRawString body = .stopped .unterminatedRawString body.length [] := by
  induction body with
  | nil => rfl
  | cons c body ih =>
      obtain ⟨hc, hbody⟩ := not_or.mp (mt List.mem_cons.mpr h)
      rw [scanRawString, if_neg (Ne.symm hc), ih hbody]
      rfl

theorem exists_isQuoted (s : List Char) :
    (∃ inner text r, IsQuoted inner text ∧ s = inner ++ '\'' :: r) ∨
    (∃ inner text e r, IsQuoted inner text ∧ unescape? e = none ∧ s = inner ++ '\\' :: e :: r) ∨
    ∃ inner text tail, IsQuoted inner text ∧ (tail = [] ∨ tail = ['\\']) ∧ s = inner ++ tail := by
  fun_induction scanString s with
  | case1 => exact .inr (.inr ⟨[], [], [], .nil, .inl rfl, rfl⟩)
  | case2 rest => exact .inl ⟨[], [], rest, .nil, rfl⟩
  | case3 => exact .inr (.inr ⟨[], [], ['\\'], .nil, .inr rfl, rfl⟩)
  | case4 e rest d he _ ih =>
      rcases ih with ⟨inner, text, r, h, rfl⟩ | ⟨inner, text, e', r, h, he', rfl⟩ |
        ⟨inner, text, tail, h, htail, rfl⟩
      · exact .inl ⟨_, _, r, h.escape he, rfl⟩
      · exact .inr (.inl ⟨_, _, e', r, h.escape he, he', rfl⟩)
      · exact .inr (.inr ⟨_, _, tail, h.escape he, htail, rfl⟩)
  | case5 e rest he => exact .inr (.inl ⟨[], [], e, rest, .nil, he, rfl⟩)
  | case6 c rest hquote hbackslash ih =>
      rcases ih with ⟨inner, text, r, h, rfl⟩ | ⟨inner, text, e', r, h, he', rfl⟩ |
        ⟨inner, text, tail, h, htail, rfl⟩
      · exact .inl ⟨_, _, r, h.plain hquote hbackslash, rfl⟩
      · exact .inr (.inl ⟨_, _, e', r, h.plain hquote hbackslash, he', rfl⟩)
      · exact .inr (.inr ⟨_, _, tail, h.plain hquote hbackslash, htail, rfl⟩)

end Scans

section Lexemes

variable {lx : Lexer} {t : Token} {x r after : List Char}

theorem isFinal_wordKind (w : List Char) (position : Nat) (text : Option String) :
    (Token.mk position (wordKind w) text).isFinal = false := by
  rcases wordKind_cases w with h | h | h <;> simp [Token.isFinal, h]

theorem IsLexeme.isFinal (h : IsLexeme after t x) : t.isFinal = false := by
  cases h with
  | punctuation h =>
      rcases punctuation?_cases h with rfl | rfl | rfl | rfl | rfl | rfl | rfl <;> rfl
  | word => exact isFinal_wordKind _ _ _
  | numeral =>
      dsimp only [Token.isFinal]
      split <;> rfl
  | _ => rfl

theorem IsLexeme.exists_cons (h : IsLexeme after t x) : ∃ c cs, x = c :: cs ∧ isGap c = false := by
  have hnumeral : ∀ {body : List Char} (tail : List Char), IsNumeral body →
      ∃ c cs, body ++ tail = c :: cs ∧ isGap c = false := by
    rintro _ tail ⟨c, cs, rfl, hc, -⟩
    exact ⟨c, cs ++ tail, rfl, isGap_of_isNumeralStart hc⟩
  cases h with
  | punctuation h =>
      refine ⟨_, _, rfl, isGap_of_ne ?_⟩
      refine ⟨?_, ?_, ?_, ?_, ?_⟩ <;> rintro rfl <;> cases h
  | word hc => exact ⟨_, _, rfl, isGap_of_isNameStart hc⟩
  | numeral hbody =>
      have := hnumeral [] hbody
      rwa [List.append_nil] at this
  | double hbody => exact hnumeral _ hbody
  | float hbody => exact hnumeral _ hbody
  | string => exact ⟨_, _, rfl, rfl⟩
  | rawString => exact ⟨_, _, rfl, rfl⟩

theorem IsBroken.exists_cons {start stop position : Nat} {f : LexicalFault}
    (h : IsBroken start stop f position x) : ∃ c cs, x = c :: cs ∧ isGap c = false := by
  cases h with
  | unexpected hgap => exact ⟨_, _, rfl, hgap⟩
  | _ => exact ⟨_, _, rfl, rfl⟩

namespace Lexer

theorem next_quote (h : lx.rest = '\'' :: r) : lx.next = lx.ofScan (scanString r) := by
  rw [next, skipGap_of_cons h (by decide), lexeme, h]
  simp [punctuation?, isNameStart, isNumeralStart]

theorem next_mark (h : lx.rest = '\x60' :: r) : lx.next = lx.ofScan (scanRawString r) := by
  rw [next, skipGap_of_cons h (by decide), lexeme, h]
  simp [punctuation?, isNameStart, isNumeralStart]

theorem next_of_isLexeme (h : IsLexeme after t x) (hrest : lx.rest = x ++ after)
    (hposition : t.position = lx.position) : lx.next = (t, lx.advance x.length after) := by
  cases h with
  | punctuation h =>
      obtain rfl := hposition
      exact next_punctuation hrest h
  | word hc hcs hafter =>
      obtain rfl := hposition
      exact next_word hrest hc hcs hafter
  | numeral hbody hafter =>
      obtain rfl := hposition
      exact next_unsuffixed hrest hbody hafter
  | double hbody =>
      obtain rfl := hposition
      rw [List.append_assoc, List.singleton_append] at hrest
      rw [next_suffixed (.inl ⟨rfl, rfl⟩) hrest hbody, List.length_append, List.length_singleton]
  | float hbody =>
      obtain rfl := hposition
      rw [List.append_assoc, List.singleton_append] at hrest
      rw [next_suffixed (.inr ⟨rfl, rfl⟩) hrest hbody, List.length_append, List.length_singleton]
  | string h =>
      obtain rfl := hposition
      rw [List.append_assoc, List.cons_append, List.singleton_append] at hrest
      rw [next_quote hrest, scanString_of_isQuoted h, ofScan]
      simp
  | rawString h =>
      obtain rfl := hposition
      rw [List.append_assoc, List.cons_append, List.singleton_append] at hrest
      rw [next_mark hrest, scanRawString_of_notMem h, ofScan]
      simp

theorem next_of_isBroken {f : LexicalFault} {position : Nat}
    (h : IsBroken lx.position (lx.position + lx.rest.length) f position lx.rest) :
    lx.next.1 = f.token position := by
  generalize hrest : lx.rest = s at h
  cases h with
  | unexpected hgap hpunctuation hname hnumeral hquote hmark =>
      rw [next, skipGap_of_cons hrest hgap, lexeme, hrest]
      simp [hpunctuation, hname, hnumeral, hquote, hmark]
  | unknownEscape h he =>
      rw [List.cons_append, List.cons_append, List.append_assoc, List.singleton_append] at hrest
      rw [next_quote hrest, scanString_unknownEscape h he]
      exact congrArg (LexicalFault.token _) (by simp; omega)
  | unterminatedString h htail =>
      rw [List.cons_append] at hrest
      rw [next_quote hrest, scanString_unterminated h htail]
      exact congrArg (LexicalFault.token _) (by simp; omega)
  | unterminatedRawString h =>
      rw [next_mark hrest, scanRawString_unterminated h]
      exact congrArg (LexicalFault.token _) (by simp; omega)

theorem next_of_nil (h : lx.rest = []) : lx.next.1 = ⟨lx.position, .endOfInput, none⟩ := by
  simp [next, skipGap, lexeme, h]

theorem next_of_gap_append {gap s : List Char} (hgap : ∀ c ∈ gap, isGap c = true)
    (hs : ∀ c ∈ s.head?, isGap c = false) (h : lx.rest = gap ++ s) :
    lx.next = (⟨s, lx.position + gap.length, lx.lastStart⟩ : Lexer).next := by
  have hskip : lx.skipGap = (⟨s, lx.position + gap.length, lx.lastStart⟩ : Lexer).skipGap := by
    have hdrop := dropWhile_append_of_head? (s := []) (r := s) (p := isGap) nofun hs
    have htake := takeWhile_append_of_head? (s := []) (r := s) (p := isGap) nofun hs
    rw [List.nil_append] at hdrop htake
    simp only [skipGap, h, dropWhile_append_of_head? hgap hs, takeWhile_append_of_head? hgap hs,
      hdrop, htake, List.length_nil, Nat.add_zero]
  rw [next, next, hskip]

end Lexer

theorem head?_dropWhile (p : Char → Bool) (s : List Char) :
    ∀ c ∈ (s.dropWhile p).head?, p c = false := by
  intro c hc
  have h := List.head?_dropWhile_not p s
  rw [Option.mem_def.mp hc] at h
  exact h

theorem exists_isLexeme_of_isNumeral (position : Nat) {body after : List Char}
    (hbody : IsNumeral body) (hafter : ∀ c ∈ after.head?, isNumeralPart c = false) :
    ∃ t x after', IsLexeme after' t x ∧ body ++ after = x ++ after' ∧ t.position = position := by
  by_cases hdouble : after.head? = some 'd'
  · obtain ⟨r, rfl⟩ := List.head?_eq_some_iff.mp hdouble
    exact ⟨_, _, r, .double hbody, by simp, rfl⟩
  by_cases hfloat : after.head? = some 'f'
  · obtain ⟨r, rfl⟩ := List.head?_eq_some_iff.mp hfloat
    exact ⟨_, _, r, .float hbody, by simp, rfl⟩
  refine ⟨_, body, after, .numeral hbody fun c hc => ⟨hafter c hc, ?_, ?_⟩, rfl, rfl⟩
  · rintro rfl
    exact hdouble hc
  · rintro rfl
    exact hfloat hc

theorem exists_isLexeme_or_isBroken (start stop : Nat) {c : Char} (cs : List Char)
    (hc : isGap c = false) :
    (∃ t x after, IsLexeme after t x ∧ c :: cs = x ++ after ∧ t.position = start) ∨
      ∃ f position, IsBroken start stop f position (c :: cs) := by
  cases hpunctuation : punctuation? c with
  | some kind => exact .inl ⟨_, [c], cs, .punctuation hpunctuation, rfl, rfl⟩
  | none =>
  cases hname : isNameStart c with
  | true =>
      have hparts := List.all_eq_true.mp (List.all_takeWhile (p := isNamePart) (l := cs))
      refine .inl ⟨_, _, _, .word hname hparts (head?_dropWhile isNamePart cs), ?_, rfl⟩
      rw [List.cons_append, List.takeWhile_append_dropWhile]
  | false =>
  cases hnumeral : isNumeralStart c with
  | true =>
      have hparts := List.all_eq_true.mp (List.all_takeWhile (p := isNumeralPart) (l := cs))
      have hlexeme := exists_isLexeme_of_isNumeral start ⟨c, _, rfl, hnumeral, hparts⟩
        (head?_dropWhile isNumeralPart cs)
      rw [List.cons_append, List.takeWhile_append_dropWhile] at hlexeme
      exact .inl hlexeme
  | false =>
  by_cases hquote : c = '\''
  · subst hquote
    rcases exists_isQuoted cs with ⟨inner, text, r, h, rfl⟩ | ⟨inner, text, e, r, h, he, rfl⟩ |
      ⟨inner, text, tail, h, htail, rfl⟩
    · exact .inl ⟨_, _, r, .string h, by simp, rfl⟩
    · have hbroken : IsBroken start stop _ _ ('\'' :: inner ++ ['\\'] ++ e :: r) :=
        .unknownEscape h he
      exact .inr ⟨_, _, by simpa using hbroken⟩
    · exact .inr ⟨_, _, .unterminatedString h htail⟩
  by_cases hmark : c = '\x60'
  · subst hmark
    by_cases h : '\x60' ∈ cs
    · obtain ⟨body, r, rfl, hbody⟩ := List.eq_append_cons_of_mem h
      exact .inl ⟨_, _, r, .rawString hbody, by simp, rfl⟩
    · exact .inr ⟨_, _, .unterminatedRawString h⟩
  exact .inr ⟨_, _, .unexpected hc hpunctuation hname hnumeral hquote hmark⟩

end Lexemes

namespace Segment

variable {lx : Lexer} {ss ss' : List Segment} {ts : List Token} {rest rest' : List Char}

theorem head_of_spell {s : Segment} {t : Token} (h : Spell lx.position (s :: ss) (t :: ts) rest)
    (hrest : lx.rest = charsOf (s :: ss) ++ rest) :
    lx.next = (t, ⟨charsOf ss ++ rest, lx.position + (s.gap ++ s.lexeme).length,
      lx.position + s.gap.length⟩) := by
  obtain ⟨hgap, hposition, hlexeme, -⟩ := h
  obtain ⟨c, cs, hc, hstart⟩ := hlexeme.exists_cons
  have hafter : lx.rest = s.gap ++ (s.lexeme ++ (charsOf ss ++ rest)) := by
    rw [hrest, charsOf]
    simp only [List.append_assoc]
  have hnext : (⟨s.lexeme ++ (charsOf ss ++ rest), lx.position + s.gap.length, lx.lastStart⟩ :
      Lexer).next = _ := Lexer.next_of_isLexeme hlexeme rfl hposition
  rw [Lexer.next_of_gap_append hgap (by simp [hc, hstart]) hafter, hnext, Lexer.advance,
    List.length_append, Nat.add_assoc]

/-- A lexer reads the tokens whose lexemes stand in front of it, and is then behind them. -/
theorem exists_tokens_eq_append (h : Spell lx.position ss ts rest)
    (hrest : lx.rest = charsOf ss ++ rest) :
    ∃ lx' : Lexer, lx.tokens = ts ++ lx'.tokens ∧ lx'.rest = rest ∧
      lx'.position = lx.position + (charsOf ss).length := by
  induction ss generalizing lx ts with
  | nil =>
      cases ts with
      | nil => exact ⟨lx, rfl, hrest, rfl⟩
      | cons t ts => cases h
  | cons s ss ih =>
      cases ts with
      | nil => cases h
      | cons t ts =>
          have hnext := head_of_spell h hrest
          obtain ⟨-, -, hlexeme, htail⟩ := h
          have hspell : Spell lx.next.2.position ss ts rest := by
            rw [hnext]
            exact htail
          have hchars : lx.next.2.rest = charsOf ss ++ rest := by rw [hnext]
          obtain ⟨lx', htokens, hrest', hposition⟩ := ih hspell hchars
          refine ⟨lx', ?_, hrest', ?_⟩
          · rw [Lexer.tokens_of_not_final (by rw [hnext]; exact hlexeme.isFinal), htokens, hnext]
            rfl
          · rw [hposition, hnext, charsOf, Nat.add_assoc, ← List.length_append]

/-- The lexemes of tokens, and what follows them, can be found in a text in one way only. -/
theorem spell_unique (h : Spell lx.position ss ts rest) (h' : Spell lx.position ss' ts rest')
    (hrest : lx.rest = charsOf ss ++ rest) (hrest' : lx.rest = charsOf ss' ++ rest') :
    ss = ss' ∧ rest = rest' := by
  induction ts generalizing lx ss ss' with
  | nil =>
      cases ss with
      | cons => cases h
      | nil =>
          cases ss' with
          | cons => cases h'
          | nil => exact ⟨rfl, hrest.symm.trans hrest'⟩
  | cons t ts ih =>
      cases ss with
      | nil => cases h
      | cons s ss =>
          cases ss' with
          | nil => cases h'
          | cons s' ss' =>
              have hnext := head_of_spell h hrest
              have hnext' := head_of_spell h' hrest'
              have hgap : s.gap.length = s'.gap.length := by
                have := h.2.1.symm.trans h'.2.1
                omega
              have hlexer := (Prod.mk.inj (hnext.symm.trans hnext')).2
              have hlength : (s.gap ++ s.lexeme).length = (s'.gap ++ s'.lexeme).length := by
                have := congrArg Lexer.position hlexer
                dsimp only at this
                omega
              have hchars : s.gap ++ s.lexeme ++ (charsOf ss ++ rest) =
                  s'.gap ++ s'.lexeme ++ (charsOf ss' ++ rest') := by
                rw [← List.append_assoc, ← List.append_assoc]
                exact hrest.symm.trans hrest'
              obtain ⟨hsegment, hafter⟩ := List.append_inj hchars hlength
              obtain ⟨hgaps, hlexemes⟩ := List.append_inj hsegment hgap
              have hspell : Spell lx.next.2.position ss ts rest := by
                rw [hnext]
                exact h.2.2.2
              have hspell' : Spell lx.next.2.position ss' ts rest' := by
                rw [hnext']
                exact h'.2.2.2
              obtain ⟨rfl, hrests⟩ := ih hspell hspell' (by rw [hnext]) (by rw [hnext'])
              exact ⟨congrArg (· :: ss) (by cases s; cases s'; simp_all), hrests⟩

end Segment

namespace Partition

open Segment

variable {offset : Nat} {source : List Char} {ts : List Token} {final final' : Token}
  {p q : Partition}

theorem Divides.head?_broken (h : p.Divides offset source ts final) :
    ∀ c ∈ p.broken.head?, isGap c = false := by
  intro c hc
  rcases h.final_eq with ⟨hnil, -⟩ | ⟨f, position, -, hbroken⟩
  · rw [hnil] at hc
    cases hc
  · obtain ⟨d, cs, hcons, hd⟩ := hbroken.exists_cons
    rw [hcons] at hc
    obtain rfl : d = c := by simpa using hc
    exact hd

theorem Divides.tokens_eq {lx : Lexer} (h : p.Divides lx.position lx.rest ts final) :
    lx.tokens = ts ++ [final] := by
  have hrest : lx.rest = charsOf p.segments ++ (p.last ++ p.broken) := by
    rw [h.chars_eq, List.append_assoc]
  obtain ⟨lx', htokens, hrest', hposition⟩ := exists_tokens_eq_append h.spell hrest
  have hnext := Lexer.next_of_gap_append h.last_gap h.head?_broken hrest'
  have hlength : (⟨p.broken, lx'.position + p.last.length, lx'.lastStart⟩ : Lexer).position =
      lx.position + (charsOf p.segments ++ p.last).length := by
    rw [hposition, List.length_append, Nat.add_assoc]
  have hstop : lx.position + lx.rest.length =
      lx.position + (charsOf p.segments ++ p.last).length + p.broken.length := by
    rw [Nat.add_assoc, ← List.length_append, ← h.chars_eq]
  have hfinal : lx'.next.1 = final := by
    rw [hnext]
    rcases h.final_eq with ⟨hnil, rfl⟩ | ⟨f, position, rfl, hbroken⟩
    · rw [Lexer.next_of_nil hnil, hlength, hstop, hnil]
      rfl
    · rw [hstop, ← hlength] at hbroken
      exact Lexer.next_of_isBroken hbroken
  have hisFinal : final.isFinal = true := by
    rcases h.final_eq with ⟨-, rfl⟩ | ⟨f, position, rfl, -⟩ <;> rfl
  rw [htokens, Lexer.tokens_of_final (by rw [hfinal, hisFinal]), hfinal]

theorem exists_divides (lx : Lexer) :
    ∃ (p : Partition) (ts : List Token) (final : Token),
      p.Divides lx.position lx.rest ts final := by
  -- On the characters left, for a lexeme takes at least one of them.
  induction hn : lx.rest.length using Nat.strongRecOn generalizing lx with
  | ind n ih =>
      have hsplit : lx.rest = lx.rest.takeWhile isGap ++ lx.rest.dropWhile isGap :=
        List.takeWhile_append_dropWhile.symm
      have hgap := List.all_eq_true.mp (List.all_takeWhile (p := isGap) (l := lx.rest))
      have hhead := head?_dropWhile isGap lx.rest
      generalize lx.rest.takeWhile isGap = gap at hsplit hgap
      generalize lx.rest.dropWhile isGap = s at hsplit hhead
      cases s with
      | nil =>
          exact ⟨⟨[], gap, []⟩, [], _, by simp [hsplit, charsOf], trivial, hgap, .inl ⟨rfl, rfl⟩⟩
      | cons c cs =>
          rcases exists_isLexeme_or_isBroken (lx.position + gap.length)
            (lx.position + lx.rest.length) cs (hhead c rfl) with
            ⟨t, x, after, hlexeme, hchars, hposition⟩ | ⟨f, position, hbroken⟩
          · obtain ⟨d, ds, rfl, -⟩ := hlexeme.exists_cons
            rw [hchars] at hsplit
            have hlength : lx.rest.length = (gap ++ d :: ds).length + after.length := by
              rw [hsplit, ← List.append_assoc, List.length_append]
            obtain ⟨p, ts, final, h⟩ := ih after.length
              (by rw [← hn, hlength, List.length_append, List.length_cons]; omega)
              ⟨after, lx.position + (gap ++ d :: ds).length, 0⟩ rfl
            have hafter : after = charsOf p.segments ++ (p.last ++ p.broken) := by
              rw [← List.append_assoc]
              exact h.chars_eq
            refine ⟨⟨⟨gap, d :: ds⟩ :: p.segments, p.last, p.broken⟩, t :: ts, final, ?_, ?_,
              h.last_gap, ?_⟩
            · rw [hsplit, hafter, charsOf]
              simp only [List.append_assoc]
            · exact ⟨hgap, hposition, hafter ▸ hlexeme, h.spell⟩
            · have hfinal := h.final_eq
              rw [hlength, ← Nat.add_assoc]
              dsimp only at hfinal ⊢
              have happend : (gap ++ d :: ds ++ (charsOf p.segments ++ p.last)).length =
                  (gap ++ d :: ds).length + (charsOf p.segments ++ p.last).length :=
                List.length_append
              rwa [charsOf, List.append_assoc (gap ++ d :: ds), happend, ← Nat.add_assoc]
          · refine ⟨⟨[], gap, c :: cs⟩, [], _, by rw [hsplit]; rfl, trivial, hgap,
              .inr ⟨f, position, rfl, hbroken⟩⟩

theorem Divides.unique (h : p.Divides offset source ts final)
    (h' : q.Divides offset source ts final') : p = q := by
  have hspell : Spell (⟨source, offset, 0⟩ : Lexer).position p.segments ts _ := h.spell
  obtain ⟨hsegments, hrest⟩ := spell_unique hspell h'.spell
    (by rw [← List.append_assoc]; exact h.chars_eq) (by rw [← List.append_assoc]; exact h'.chars_eq)
  have hlast : p.last = q.last := by
    rw [← takeWhile_append_of_head? h.last_gap h.head?_broken, hrest,
      takeWhile_append_of_head? h'.last_gap h'.head?_broken]
  have hbroken : p.broken = q.broken := by
    rw [← dropWhile_append_of_head? h.last_gap h.head?_broken, hrest,
      dropWhile_append_of_head? h'.last_gap h'.head?_broken]
  cases p
  cases q
  simp_all

end Partition

/-- The tokens of a text account for all its characters, each of them once: there is just one way to
divide the text into gaps and the lexemes of the tokens, with the last token at the end of the text
or at what is wrong with it. Whatever tokens the text is divided into in this way are its tokens. -/
theorem tokenize_divides (source : String) :
    (∀ ts final, tokenize source = ts ++ [final] →
      ∃! p : Partition, p.Divides 0 source.toList ts final) ∧
    ∀ ts final (p : Partition), p.Divides 0 source.toList ts final →
      tokenize source = ts ++ [final] := by
  have hforward : ∀ ts final (p : Partition), p.Divides 0 source.toList ts final →
      tokenize source = ts ++ [final] :=
    fun ts final p h =>
      show (Lexer.ofText source).tokens = ts ++ [final] from Partition.Divides.tokens_eq h
  refine ⟨fun ts final htokens => ?_, hforward⟩
  obtain ⟨p, us, last, h⟩ := Partition.exists_divides (Lexer.ofText source)
  obtain ⟨rfl, hfinal⟩ := List.append_inj' (htokens.symm.trans (hforward us last p h)) rfl
  obtain rfl := List.singleton_inj.mp hfinal
  exact ⟨p, h, fun q hq => hq.unique h⟩

/-- Two lexemes with no gap between them, and a string with an unknown escape. -/
theorem tokenize_divides_at_unknown_escape :
    ∃! p : Partition, p.Divides 0 "-1.5dx, 'a\\q'".toList
      [⟨0, .double, some "-1.5"⟩, ⟨5, .identifier, some "x"⟩]
      ((LexicalFault.unknownEscape 'q').token 11) := by
  apply (tokenize_divides "-1.5dx, 'a\\q'").1
  unfold tokenize
  rw [Lexer.tokens_of_not_final (by decide +kernel), Lexer.tokens_of_not_final (by decide +kernel),
    Lexer.tokens_of_final (by decide +kernel)]
  decide +kernel

end HostedLisp
