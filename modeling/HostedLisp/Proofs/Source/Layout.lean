import HostedLisp.Proofs.Source.Concatenation
import HostedLisp.Proofs.Source.Correspondence
import HostedLisp.Proofs.Source.Sameness

/-!
Texts in another layout. Main statement: white space of any kind and length can stand in place of
any other between the lexemes of a text, and a brace in place of a parenthesis, and the text is read
as the same node, or with the same fault at the tokens that stand in the place of the old ones.
-/

namespace HostedLisp

open Segment

/-- Whether a gap can stand in place of another one: it is the same one, or any white space. -/
def IsGapFor (gap gap' : List Char) : Prop :=
  gap' = gap ∨ gap' ≠ [] ∧ ∀ c ∈ gap', isGap c = true

/-- Whether two lexemes spell one parenthesis. -/
def SpellOneParenthesis (x x' : List Char) : Prop :=
  ∃ c c' kind, x = [c] ∧ x' = [c'] ∧ (kind = .parenOpen ∨ kind = .parenClose) ∧
    punctuation? c = some kind ∧ punctuation? c' = some kind

/-- Whether a lexeme can stand in place of another one with the gap in front of it. -/
structure Segment.Relaid (s s' : Segment) : Prop where
  gap : IsGapFor s.gap s'.gap
  lexeme : s'.lexeme = s.lexeme ∨ SpellOneParenthesis s.lexeme s'.lexeme

namespace Partition

/-- The characters of a divided text. -/
def chars (p : Partition) : List Char := charsOf p.segments ++ p.last ++ p.broken

/-- Whether a divided text is another one in a layout of its own. -/
structure Relaid (p p' : Partition) : Prop where
  segments : List.Forall₂ Segment.Relaid p.segments p'.segments
  last : IsGapFor p.last p'.last
  broken : p'.broken = p.broken

end Partition

/-- Whether a text is another one in a layout of its own: the text can be divided into its lexemes
so that each gap is kept or replaced by white space, and each lexeme is kept unless it is a
parenthesis, which may be spelled in the other way. -/
def Relaid (source source' : String) : Prop :=
  ∃ (p p' : Partition) (ts : List Token) (final : Token),
    p.Divides 0 source.toList ts final ∧ p.Relaid p' ∧ source'.toList = p'.chars

/-- Whether two tokens read alike and stand at one place in the order of the tokens of two texts. -/
def Corresponding (source source' : String) (t u : Token) : Prop :=
  t.ReadsAs u ∧ ∃ i : Nat, (tokenize source)[i]? = some t ∧ (tokenize source')[i]? = some u

section Lexemes

variable {after after' x x' : List Char} {t : Token}

theorem IsGapFor.isGap {gap gap' : List Char} (h : IsGapFor gap gap')
    (hgap : ∀ c ∈ gap, isGap c = true) : ∀ c ∈ gap', HostedLisp.isGap c = true := by
  rcases h with rfl | ⟨-, h⟩
  · exact hgap
  · exact h

theorem IsLexeme.eq_punctuation {c : Char} {kind : TokenKind} (h : IsLexeme after t [c])
    (hc : punctuation? c = some kind) : t = ⟨t.position, kind, some c.toString⟩ := by
  let lx : Lexer := ⟨[c] ++ after, t.position, 0⟩
  have hnext : lx.next = (t, lx.advance 1 after) := Lexer.next_of_isLexeme h rfl rfl
  rw [Lexer.next_punctuation rfl hc] at hnext
  exact (Prod.mk.inj hnext).1.symm

theorem IsLexeme.relaid (h : IsLexeme after t x) (hafter : MayFollow after after')
    (hx : x' = x ∨ SpellOneParenthesis x x') (position : Nat) :
    ∃ t', t'.position = position ∧ t.ReadsAs t' ∧ IsLexeme after' t' x' := by
  rcases hx with rfl | ⟨c, c', kind, rfl, rfl, hkind, hc, hc'⟩
  · exact ⟨{ t with position := position }, rfl, ⟨rfl, fun _ _ _ => rfl⟩,
      h.of_mayFollow hafter position⟩
  · refine ⟨⟨position, kind, some c'.toString⟩, rfl, ?_, .punctuation hc'⟩
    rw [h.eq_punctuation hc]
    refine ⟨rfl, fun hopen hclose _ => ?_⟩
    rcases hkind with rfl | rfl
    · exact absurd rfl hopen
    · exact absurd rfl hclose

end Lexemes

section Spelling

variable {ss ss' : List Segment} {ts : List Token} {rest rest' : List Char} {offset : Nat}

theorem mayFollow_gap_append {gap gap' after after' : List Char} (hgap : IsGapFor gap gap')
    (h : MayFollow after after') : MayFollow (gap ++ after) (gap' ++ after') := by
  rcases hgap with rfl | ⟨hne, hgap'⟩
  · exact h.append_left _
  · cases gap' with
    | nil => exact absurd rfl hne
    | cons c cs => exact .of_cons (isBoundary_of_isGap (hgap' c (by simp))) _ _

theorem isBoundary_of_parenthesis {c : Char} {kind : TokenKind}
    (hkind : kind = .parenOpen ∨ kind = .parenClose) (hc : punctuation? c = some kind) :
    isBoundary c = true := by
  rcases hkind with rfl | rfl <;> unfold punctuation? at hc <;> split at hc <;>
    first | decide | cases hc

theorem mayFollow_charsOf (h : List.Forall₂ Segment.Relaid ss ss')
    (hspell : Spell offset ss ts rest) (hrest : MayFollow rest rest') :
    MayFollow (charsOf ss ++ rest) (charsOf ss' ++ rest') := by
  cases h with
  | nil => exact hrest
  | @cons s s' ss ss' hs hss =>
      cases ts with
      | nil => cases hspell
      | cons t ts =>
          obtain ⟨-, -, hlexeme, -⟩ := hspell
          obtain ⟨c, cs, hc, -⟩ := hlexeme.exists_cons
          rw [charsOf, charsOf]
          simp only [List.append_assoc]
          refine mayFollow_gap_append hs.gap ?_
          rcases hs.lexeme with heq | ⟨d, d', kind, -, heq, hkind, -, hd'⟩
          · rw [heq, hc]
            exact fun d hd => .inl hd
          · rw [heq]
            exact .of_cons (isBoundary_of_parenthesis hkind hd') _ _

theorem spell_relaid (h : List.Forall₂ Segment.Relaid ss ss') (hspell : Spell offset ss ts rest)
    (hrest : MayFollow rest rest') (offset' : Nat) :
    ∃ ts', Spell offset' ss' ts' rest' ∧ List.Forall₂ Token.ReadsAs ts ts' := by
  induction h generalizing offset offset' ts with
  | nil =>
      cases ts with
      | nil => exact ⟨[], trivial, .nil⟩
      | cons t ts => cases hspell
  | @cons s s' ss ss' hs hss ih =>
      cases ts with
      | nil => cases hspell
      | cons t ts =>
          obtain ⟨hgap, -, hlexeme, htail⟩ := hspell
          obtain ⟨t', hposition, hreads, hlexeme'⟩ :=
            hlexeme.relaid (mayFollow_charsOf hss htail hrest) hs.lexeme (offset' + s'.gap.length)
          obtain ⟨ts', hspell', hts⟩ := ih htail (offset' + (s'.gap ++ s'.lexeme).length)
          exact ⟨t' :: ts', ⟨hs.gap.isGap hgap, hposition, hlexeme', hspell'⟩, .cons hreads hts⟩

end Spelling

/-- A text without faults has, in every other layout, tokens that read alike. -/
theorem tokenize_relaid {source source' : String} (hfault : ∀ t ∈ tokenize source, t.kind ≠ .fault)
    (h : Relaid source source') :
    List.Forall₂ Token.ReadsAs (tokenize source) (tokenize source') := by
  obtain ⟨p, p', ts, final, hdivides, ⟨hsegments, hlast, hbroken⟩, hchars⟩ := h
  have htokens : tokenize source = ts ++ [final] :=
    @Partition.Divides.tokens_eq _ _ _ (Lexer.ofText source) hdivides
  rcases hdivides.final_eq with ⟨hnil, rfl⟩ | ⟨f, position, rfl, -⟩
  · have hrest : MayFollow (p.last ++ p.broken) (p'.last ++ p'.broken) := by
      rw [hnil, hbroken, hnil]
      exact mayFollow_gap_append hlast (.refl [])
    obtain ⟨ts', hspell, hts⟩ := spell_relaid hsegments hdivides.spell hrest 0
    have hdivides' : p'.Divides 0 source'.toList ts'
        ⟨0 + source'.toList.length, .endOfInput, none⟩ :=
      ⟨hchars, hspell, hlast.isGap hdivides.last_gap, .inl ⟨hbroken.trans hnil, rfl⟩⟩
    have htokens' : tokenize source' = ts' ++ _ :=
      @Partition.Divides.tokens_eq _ _ _ (Lexer.ofText source') hdivides'
    rw [htokens, htokens']
    exact List.rel_append hts (.cons ⟨rfl, fun _ _ _ => rfl⟩ .nil)
  · exact absurd rfl (hfault (f.token position) (by rw [htokens]; simp))

/-- The tokens of two texts that read alike in their order. -/
def Correspondence.ofTexts (source source' : String) : Correspondence :=
  .closed (Corresponding source source') And.left

theorem streams_ofTexts {source source' : String}
    (h : List.Forall₂ Token.ReadsAs (tokenize source) (tokenize source')) :
    (Correspondence.ofTexts source source').Streams (tokenize source) (tokenize source') := by
  apply Correspondence.streams_of_forall₂
  obtain ⟨hlength, hreads⟩ := List.forall₂_iff_get.mp h
  refine List.forall₂_iff_get.mpr ⟨hlength, fun i hi hi' => ⟨hreads i hi hi', i, ?_, ?_⟩⟩
  · exact List.getElem?_eq_getElem hi
  · exact List.getElem?_eq_getElem hi'

/-- Layout does not matter. A text without lexical faults in another layout has tokens that read
alike one by one. If the text is read as a node, the other one is read as a node that is the same,
each part of it from the tokens that stand in the place of the old ones; if the text fails, the
other one fails with the same message, from and to the tokens in the place of the old ones. -/
theorem parse_relaid {source source' : String} (hfault : ∀ t ∈ tokenize source, t.kind ≠ .fault)
    (h : Relaid source source') :
    List.Forall₂ Token.ReadsAs (tokenize source) (tokenize source') ∧
    (∀ x, parse source = .ok x → ∃ x', parse source' = .ok x' ∧ x.same x' = true ∧
      x.Matches (Corresponding source source') x') ∧
    ∀ e, parse source = .error e → ∃ e', parse source' = .error e' ∧ e'.message = e.message ∧
      Corresponding source source' e.start e'.start ∧
      Corresponding source source' e.stop e'.stop := by
  have htokens := tokenize_relaid hfault h
  have hresults := Correspondence.results_parse (κ := .ofTexts source source') (fun _ => not_false)
    (streams_ofTexts htokens)
  refine ⟨htokens, fun x hx => ?_, fun e he => ?_⟩
  · rw [hx] at hresults
    obtain ⟨x', hx', hmatches⟩ := hresults
    exact ⟨x', hx', (hmatches.same_congr x x).trans (same_self_of_parse hx), hmatches⟩
  · rw [he] at hresults
    obtain ⟨e', he', hsame, hstart, hstop⟩ := hresults
    have hclosed : e.stop.kind ≠ .fault := by
      obtain ⟨-, i, hi, -⟩ := hstop
      exact hfault _ (List.mem_of_getElem? hi)
    have hmessage : e'.fault = e.fault := hsame fun hk => absurd hk hclosed
    exact ⟨e', he', by rw [SyntaxError.message, SyntaxError.message, hmessage], hstart, hstop⟩

/-- A dotted name with a gap inside it and between braces is as faulty as without. -/
theorem parse_relaid_dotted_name : ∃ e, parse "\x7ba .b,1\x7d" = .error e ∧
    e.message = "Scoped identifier must have only one part" := by
  let p : Partition :=
    ⟨[⟨[], ['(']⟩, ⟨[], ['a']⟩, ⟨[], ['.']⟩, ⟨[], ['b']⟩, ⟨[' '], ['1']⟩, ⟨[], [')']⟩], [], []⟩
  let p' : Partition :=
    ⟨[⟨[], ['{']⟩, ⟨[], ['a']⟩, ⟨[' '], ['.']⟩, ⟨[], ['b']⟩, ⟨[','], ['1']⟩, ⟨[], ['}']⟩], [], []⟩
  have hname (c d : Char) (cs : List Char) (k : Nat) (hc : isNameStart c = true)
      (hd : isNamePart d = false) :
      IsLexeme (d :: cs) ⟨k, wordKind [c], some (String.ofList [c])⟩ [c] :=
    .word hc nofun fun x hx => by
      obtain rfl : d = x := by simpa using hx
      exact hd
  have hone : IsLexeme [')'] ⟨5, .integer, some "1"⟩ ['1'] :=
    .numeral ⟨'1', [], rfl, rfl, nofun⟩ fun x hx => by
      obtain rfl : ')' = x := by simpa using hx
      decide
  have hdivides : p.Divides 0 "(a.b 1)".toList
      [⟨0, .parenOpen, some "("⟩, ⟨1, .identifier, some "a"⟩, ⟨2, .dot, some "."⟩,
        ⟨3, .identifier, some "b"⟩, ⟨5, .integer, some "1"⟩, ⟨6, .parenClose, some ")"⟩]
      ⟨7, .endOfInput, none⟩ :=
    ⟨rfl, ⟨nofun, rfl, .punctuation (c := '(') rfl, nofun, rfl,
      hname 'a' '.' "b 1)".toList 1 rfl rfl, nofun, rfl, .punctuation (c := '.') rfl, nofun, rfl,
      hname 'b' ' ' "1)".toList 3 rfl rfl, by simp [isGap], rfl, hone, nofun, rfl,
      .punctuation (c := ')') rfl, trivial⟩, nofun, .inl ⟨rfl, rfl⟩⟩
  have hrelaid : p.Relaid p' := by
    refine ⟨.cons ⟨.inl rfl, .inr ⟨'(', '{', .parenOpen, rfl, rfl, .inl rfl, rfl, rfl⟩⟩ <|
      .cons ⟨.inl rfl, .inl rfl⟩ <| .cons ⟨.inr ⟨by simp, by simp [isGap]⟩, .inl rfl⟩ <|
      .cons ⟨.inl rfl, .inl rfl⟩ <| .cons ⟨.inr ⟨by simp, by simp [isGap]⟩, .inl rfl⟩ <|
      .cons ⟨.inl rfl, .inr ⟨')', '}', .parenClose, rfl, rfl, .inr rfl, rfl, rfl⟩⟩ .nil,
      .inl rfl, rfl⟩
  have htokens := @Partition.Divides.tokens_eq _ _ _ (Lexer.ofText "(a.b 1)") hdivides
  have hfault : ∀ t ∈ tokenize "(a.b 1)", t.kind ≠ .fault := by
    rw [tokenize, htokens]
    simp
  have hsource : Relaid "(a.b 1)" "\x7ba .b,1\x7d" := ⟨p, p', _, _, hdivides, hrelaid, rfl⟩
  obtain ⟨e, he, hmessage, -⟩ := (parse_relaid hfault hsource).2.2 _ rfl
  exact ⟨e, he, hmessage⟩

end HostedLisp
