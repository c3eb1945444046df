import HostedLisp.Proofs.Source.Lookahead

/-!
Asking a lexer for tokens, also after faults and after the end. Main statement: the lexer never goes
back. What one request does to the characters left is said first; all that holds of any number of
requests follows from it.
-/

namespace HostedLisp

theorem take_toList_append {s : String} (t : String) {n : Nat} (h : n ≤ s.toList.length) :
    (s ++ t).toList.take n = s.toList.take n := by
  rw [String.toList_append, List.take_append_of_le_length h]

theorem LexicalFault.eq_unexpectedCharacter_of_message {f : LexicalFault} {c : Char} {p : Nat}
    (h : f.message = (unexpectedCharacter c p).message) :
    ∃ c' p', f = unexpectedCharacter c' p' := by
  -- The first twelve characters tell them apart.
  have hlead := congrArg (fun s : String => s.toList.take 12) h
  dsimp only [message] at hlead
  rw [String.append_assoc, String.append_assoc, take_toList_append _ (by decide)] at hlead
  cases f with
  | unexpectedCharacter c' p' => exact ⟨c', p', rfl⟩
  | unknownEscape c' =>
      dsimp only at hlead
      rw [String.append_assoc, take_toList_append _ (by decide)] at hlead
      exact absurd hlead (by decide)
  | unterminatedString => exact absurd hlead (by decide)
  | unterminatedRawString => exact absurd hlead (by decide)

namespace Lexer

/-- The answer of a lexer to a request for a token, after a number of earlier requests. -/
def answer (lx : Lexer) (n : Nat) : Token := (lx.after n).next.1

/-- What a request for a token does: it reads some characters, and the token stands among these or
right behind them. A token that is neither the end nor a fault stands on one of them. -/
structure Reading (lx : Lexer) (read : List Char) : Prop where
  rest_eq : lx.rest = read ++ lx.next.2.rest
  position_eq : lx.next.2.position = lx.position + read.length
  le_token : lx.position ≤ lx.next.1.position
  token_le : lx.next.1.position ≤ lx.next.2.position
  token_lt : lx.next.1.isFinal = false → lx.next.1.position < lx.next.2.position

section Request

variable {lx : Lexer} {t : Token} {x after : List Char}

theorem next_skipGap (lx : Lexer) : lx.skipGap.next = lx.next :=
  (next_of_gap_append (List.all_eq_true.mp List.all_takeWhile) (head?_dropWhile isGap lx.rest)
    List.takeWhile_append_dropWhile.symm).symm

/-- Behind a gap the text ends, or a lexeme begins, or none can be completed. -/
theorem skipGap_cases (lx : Lexer) : lx.skipGap.rest = [] ∨
    (∃ t x after, IsLexeme after t x ∧ lx.skipGap.rest = x ++ after ∧
      t.position = lx.skipGap.position) ∨
    ∃ f position, IsBroken lx.skipGap.position (lx.skipGap.position + lx.skipGap.rest.length) f
      position lx.skipGap.rest := by
  cases hrest : lx.skipGap.rest with
  | nil => exact .inl rfl
  | cons c cs =>
      have hc : isGap c = false := head?_dropWhile isGap lx.rest c (by
        rw [show lx.rest.dropWhile isGap = c :: cs from hrest]
        rfl)
      exact .inr (exists_isLexeme_or_isBroken _ _ cs hc)

theorem reading_of_nil (h : lx.rest = []) : lx.Reading [] where
  rest_eq := by simp [next, skipGap, lexeme, h]
  position_eq := by simp [next, skipGap, lexeme, h]
  le_token := by simp [next, skipGap, lexeme, h]
  token_le := by simp [next, skipGap, lexeme, h]
  token_lt := by simp [next, skipGap, lexeme, h, Token.isFinal]

theorem reading_of_isLexeme (h : IsLexeme after t x) (hrest : lx.rest = x ++ after)
    (hposition : t.position = lx.position) : lx.Reading x := by
  have hnext := next_of_isLexeme h hrest hposition
  obtain ⟨c, cs, rfl, -⟩ := h.exists_cons
  constructor <;> rw [hnext]
  · exact hrest
  · rfl
  · exact Nat.le_of_eq hposition.symm
  · exact hposition ▸ Nat.le_add_right _ _
  · exact fun _ => hposition ▸ Nat.lt_add_of_pos_right (Nat.succ_pos _)

theorem exists_rest_of_isBroken {f : LexicalFault} {position : Nat}
    (h : IsBroken lx.position (lx.position + lx.rest.length) f position lx.rest) :
    ∃ read, lx.rest = read ++ lx.next.2.rest ∧ position = lx.position + read.length ∧
      lx.next.2.position = position := by
  generalize hrest : lx.rest = s at h
  cases h with
  | unexpected hgap hpunctuation hname hnumeral hquote hmark =>
      refine ⟨[], ?_⟩
      rw [next, skipGap_of_cons hrest hgap, lexeme, hrest]
      simp [hpunctuation, hname, hnumeral, hquote, hmark, advance]
  | unknownEscape h he =>
      rw [List.cons_append, List.cons_append, List.append_assoc, List.singleton_append] at hrest
      rw [next_quote hrest, scanString_unknownEscape h he]
      exact ⟨_, rfl, rfl, by simp [ofScan, advance]⟩
  | unterminatedString h htail =>
      rw [List.cons_append] at hrest
      rw [next_quote hrest, scanString_unterminated h htail]
      exact ⟨_, (List.append_nil _).symm, rfl, by simp [ofScan, advance]⟩
  | unterminatedRawString h =>
      rw [next_mark hrest, scanRawString_unterminated h]
      exact ⟨_, (List.append_nil _).symm, rfl, by simp [ofScan, advance]⟩

theorem exists_reading_of_isBroken {f : LexicalFault} {position : Nat}
    (h : IsBroken lx.position (lx.position + lx.rest.length) f position lx.rest) :
    ∃ read, lx.Reading read := by
  obtain ⟨read, hrest, hposition, hafter⟩ := exists_rest_of_isBroken h
  have htoken := next_of_isBroken h
  refine ⟨read, hrest, hafter.trans hposition, ?_, ?_, ?_⟩ <;> rw [htoken]
  · exact hposition ▸ Nat.le_add_right _ _
  · exact Nat.le_of_eq hafter.symm
  · nofun

theorem Reading.of_skipGap {read : List Char} (h : lx.skipGap.Reading read) :
    lx.Reading (lx.rest.takeWhile isGap ++ read) := by
  have hnext := lx.next_skipGap
  constructor
  · rw [← hnext, List.append_assoc, ← h.rest_eq]
    exact List.takeWhile_append_dropWhile.symm
  · rw [← hnext, h.position_eq, List.length_append, ← Nat.add_assoc]
    rfl
  · rw [← hnext]
    exact Nat.le_trans (Nat.le_add_right _ _) h.le_token
  · rw [← hnext]
    exact h.token_le
  · rw [← hnext]
    exact h.token_lt

theorem exists_reading (lx : Lexer) : ∃ read, lx.Reading read := by
  rcases lx.skipGap_cases with hnil | ⟨t, x, after, hlexeme, hrest, hposition⟩ |
    ⟨f, position, hbroken⟩
  · exact ⟨_, (reading_of_nil hnil).of_skipGap⟩
  · exact ⟨_, (reading_of_isLexeme hlexeme hrest hposition).of_skipGap⟩
  · obtain ⟨read, hread⟩ := exists_reading_of_isBroken hbroken
    exact ⟨_, hread.of_skipGap⟩

theorem next_of_endOfInput (h : lx.next.1.kind = .endOfInput) :
    lx.next = (⟨lx.position + lx.rest.length, .endOfInput, none⟩, lx.skipGap) ∧
      lx.next.2.next = lx.next := by
  rw [← next_skipGap] at h
  rcases lx.skipGap_cases with hnil | ⟨t, x, after, hlexeme, hrest, hposition⟩ |
    ⟨f, position, hbroken⟩
  · have hlength : (lx.rest.takeWhile isGap).length = lx.rest.length := by
      have hrest := List.takeWhile_append_dropWhile (p := isGap) (l := lx.rest)
      rw [show lx.rest.dropWhile isGap = [] from hnil, List.append_nil] at hrest
      rw [hrest]
    have hnext : lx.next =
        (⟨lx.position + lx.rest.length, .endOfInput, none⟩, lx.skipGap) := by
      rw [next, lexeme, hnil, ← hlength]
      rfl
    exact ⟨hnext, by rw [hnext]; exact lx.next_skipGap.trans hnext⟩
  · rw [next_of_isLexeme hlexeme hrest hposition] at h
    have hfinal := hlexeme.isFinal
    rw [Token.isFinal, h] at hfinal
    cases hfinal
  · rw [next_of_isBroken hbroken] at h
    cases h

theorem next_next_of_unexpected {c : Char} {p position : Nat}
    (h : lx.next.1 = (LexicalFault.unexpectedCharacter c p).token position) :
    lx.next.2.next = lx.next := by
  have hskip := lx.next_skipGap
  rw [← hskip] at h ⊢
  rcases lx.skipGap_cases with hnil | ⟨t, x, after, hlexeme, hrest, hposition⟩ |
    ⟨f, position', hbroken⟩
  · rw [next_of_nil hnil] at h
    cases h
  · rw [next_of_isLexeme hlexeme hrest hposition] at h
    have hfinal := hlexeme.isFinal
    rw [show t = _ from h] at hfinal
    cases hfinal
  · rw [next_of_isBroken hbroken] at h
    have hmessage := Option.some.inj (congrArg Token.text h)
    obtain ⟨c', p', rfl⟩ := LexicalFault.eq_unexpectedCharacter_of_message hmessage
    generalize hrest : lx.skipGap.rest = s at hbroken
    cases hbroken with
    | unexpected hgap hpunctuation hname hnumeral hquote hmark =>
        rename_i rest
        have hnext : ∀ start, (⟨c' :: rest, lx.skipGap.position, start⟩ : Lexer).next =
            ((LexicalFault.unexpectedCharacter c' lx.skipGap.position).token lx.skipGap.position,
              ⟨c' :: rest, lx.skipGap.position, lx.skipGap.position⟩) := by
          intro start
          rw [next, skipGap_of_cons rfl hgap, lexeme]
          simp [hpunctuation, hname, hnumeral, hquote, hmark, advance]
        have hhere : lx.skipGap = ⟨c' :: rest, lx.skipGap.position, lx.skipGap.lastStart⟩ := by
          rw [← hrest]
        rw [hhere, hnext, hnext]

end Request

section Requests

variable {lx : Lexer}

theorem exists_read (lx : Lexer) (n : Nat) : ∃ read, lx.rest = read ++ (lx.after n).rest ∧
    (lx.after n).position = lx.position + read.length := by
  induction n with
  | zero => exact ⟨[], rfl, rfl⟩
  | succ n ih =>
      obtain ⟨before, hrest, hposition⟩ := ih
      obtain ⟨read, hread⟩ := exists_reading (lx.after n)
      refine ⟨before ++ read, ?_, ?_⟩
      · rw [after_succ, List.append_assoc, ← hread.rest_eq]
        exact hrest
      · rw [after_succ, hread.position_eq, hposition, List.length_append, Nat.add_assoc]

theorem answer_add (lx : Lexer) (n k : Nat) : lx.answer (n + k) = (lx.after n).answer k := by
  rw [answer, answer, after_add]

theorem position_after_le {i j : Nat} (h : i ≤ j) :
    (lx.after i).position ≤ (lx.after j).position := by
  obtain ⟨k, rfl⟩ := Nat.exists_eq_add_of_le h
  obtain ⟨read, -, hposition⟩ := exists_read (lx.after i) k
  rw [← after_add, hposition]
  exact Nat.le_add_right _ _

theorem position_answer_le (lx : Lexer) (n : Nat) :
    (lx.after n).position ≤ (lx.answer n).position ∧
      (lx.answer n).position ≤ (lx.after (n + 1)).position := by
  obtain ⟨read, hread⟩ := exists_reading (lx.after n)
  rw [after_succ]
  exact ⟨hread.le_token, hread.token_le⟩

theorem position_answer_lt {n : Nat} (h : (lx.answer n).isFinal = false) :
    (lx.answer n).position < (lx.after (n + 1)).position := by
  obtain ⟨read, hread⟩ := exists_reading (lx.after n)
  rw [after_succ]
  exact hread.token_lt h

theorem position_answer_mono {i j : Nat} (h : i ≤ j) :
    (lx.answer i).position ≤ (lx.answer j).position := by
  rcases Nat.lt_or_eq_of_le h with hlt | rfl
  · exact Nat.le_trans (lx.position_answer_le i).2
      (Nat.le_trans (position_after_le hlt) (lx.position_answer_le j).1)
  · exact Nat.le_refl _

theorem position_answer_strictMono {i j : Nat} (hij : i < j) (h : (lx.answer i).isFinal = false) :
    (lx.answer i).position < (lx.answer j).position :=
  Nat.lt_of_lt_of_le (position_answer_lt h)
    (Nat.le_trans (position_after_le hij) (lx.position_answer_le j).1)

theorem exists_read_of_not_final {n : Nat} (h : (lx.answer n).isFinal = false) :
    ∃ read, read ≠ [] ∧ (lx.after n).rest = read ++ (lx.after (n + 1)).rest := by
  obtain ⟨read, hread⟩ := exists_reading (lx.after n)
  rw [after_succ]
  refine ⟨read, ?_, hread.rest_eq⟩
  rintro rfl
  have hlt := Nat.lt_of_le_of_lt hread.le_token (hread.token_lt h)
  rw [hread.position_eq] at hlt
  exact Nat.lt_irrefl _ hlt

/-- If a request changes nothing for the next one, it changes nothing for all later ones. -/
theorem answer_of_next_eq (h : lx.next.2.next = lx.next) (k : Nat) : lx.answer k = lx.next.1 := by
  have hafter : ∀ k, lx.next.2.after k = lx.next.2 := by
    intro k
    induction k with
    | zero => rfl
    | succ k ih => rw [after, h, ih]
  cases k with
  | zero => rfl
  | succ k => rw [answer, after, hafter, h]

theorem length_tokens_le (lx : Lexer) : lx.tokens.length ≤ lx.rest.length + 1 := by
  fun_induction tokens lx with
  | case1 lx h => exact Nat.le_add_left _ _
  | case2 lx h ih =>
      have hlt := length_rest_next_lt (by simpa using h)
      rw [List.length_cons]
      omega

end Requests

/-- However often the lexer of a text is asked for a token: where the tokens stand never goes back
and is never behind the end of the text; a token that is neither the end nor a fault takes
characters away from those left, and all later tokens stand further on; an unexpected character is
answered again and again, and so is the end, which is the end of the text; and reading tokens up to
the next end or fault yields at most one more of them than the text has characters. -/
theorem requests_move_forward (source : String) :
    let lx : Lexer := ofText source
    (∀ i j, i ≤ j → (lx.answer i).position ≤ (lx.answer j).position) ∧
      (∀ n, (lx.answer n).position ≤ source.length) ∧
      (∀ n, (lx.after n).rest = source.toList.drop (lx.after n).position) ∧
      (∀ n, (lx.answer n).isFinal = false →
        ∃ read, read ≠ [] ∧ (lx.after n).rest = read ++ (lx.after (n + 1)).rest) ∧
      (∀ i j, i < j → (lx.answer i).isFinal = false →
        (lx.answer i).position < (lx.answer j).position) ∧
      (∀ n c p position,
        lx.answer n = (LexicalFault.unexpectedCharacter c p).token position →
          ∀ k, n ≤ k → lx.answer k = lx.answer n) ∧
      (∀ n, (lx.answer n).kind = .endOfInput →
        ∀ k, n ≤ k → lx.answer k = ⟨source.length, .endOfInput, none⟩) ∧
      ∀ n, (lx.after n).tokens.length ≤ source.length + 1 := by
  intro lx
  -- What is left after some requests is what stands behind the position.
  have hrest : ∀ n, (lx.after n).position + (lx.after n).rest.length = source.length ∧
      (lx.after n).rest = source.toList.drop (lx.after n).position := by
    intro n
    obtain ⟨read, hsource, hposition⟩ := exists_read lx n
    have htext : source.toList = read ++ (lx.after n).rest := hsource
    have hoffset : (lx.after n).position = read.length := hposition.trans (Nat.zero_add _)
    rw [hoffset]
    refine ⟨?_, ?_⟩
    · rw [← String.length_toList, htext, List.length_append]
    · rw [htext, List.drop_left]
  refine ⟨fun i j => position_answer_mono, fun n => ?_, fun n => (hrest n).2,
    fun n => exists_read_of_not_final, fun i j => position_answer_strictMono, ?_, ?_, fun n => ?_⟩
  · have hafter := (hrest (n + 1)).1
    exact Nat.le_trans (lx.position_answer_le n).2 (hafter ▸ Nat.le_add_right _ _)
  · intro n c p position hfault k hk
    obtain ⟨k, rfl⟩ := Nat.exists_eq_add_of_le hk
    rw [answer_add, answer_of_next_eq (next_next_of_unexpected hfault)]
    rfl
  · intro n hend k hk
    obtain ⟨k, rfl⟩ := Nat.exists_eq_add_of_le hk
    obtain ⟨hnext, hnext'⟩ := next_of_endOfInput hend
    rw [answer_add, answer_of_next_eq hnext', hnext, (hrest n).1]
  · have hlength := (lx.after n).length_tokens_le
    have hafter := (hrest n).1
    omega

/-- A string with an unknown escape, from whose letter on the lexer reads a name, and an unexpected
character behind it; and a string that is not closed, behind which the text ends. -/
theorem requests_move_forward_after_faults :
    let lx := ofText "'a\\q ?"
    let lx' := ofText "1 'a"
    (lx.answer 0 = (LexicalFault.unknownEscape 'q').token 3 ∧
      lx.answer 1 = ⟨3, .identifier, some "q"⟩ ∧
      (lx.answer 0).position ≤ (lx.answer 1).position ∧
      (lx.answer 1).position < (lx.answer 7).position ∧
      ∀ k, 2 ≤ k → lx.answer k = (LexicalFault.unexpectedCharacter '?' 5).token 5) ∧
      lx'.answer 1 = LexicalFault.unterminatedString.token 4 ∧
      ∀ k, 2 ≤ k → lx'.answer k = ⟨4, .endOfInput, none⟩ := by
  intro lx lx'
  obtain ⟨hmono, -, -, -, hstrict, hunexpected, -⟩ := requests_move_forward "'a\\q ?"
  obtain ⟨-, -, -, -, -, -, hend, -⟩ := requests_move_forward "1 'a"
  have hfault : lx.answer 2 = (LexicalFault.unexpectedCharacter '?' 5).token 5 := by decide
  refine ⟨⟨by decide, by decide, hmono 0 1 (by decide), hstrict 1 7 (by decide) (by decide), ?_⟩,
    by decide, ?_⟩
  · exact fun k hk => (hunexpected 2 '?' 5 5 hfault k hk).trans hfault
  · exact fun k hk => hend 2 (by decide) k hk

end Lexer

end HostedLisp
