import HostedLisp.Proofs.Source.Concatenation
import HostedLisp.Proofs.Source.Correspondence
import HostedLisp.Proofs.Source.FirstFault

/-!
Two texts with a line break between them, faults included. Main statement: what the first text fails
with stays what the whole fails with, unless the first text fails only because it ends; if it does
not fail, the whole fails where the second text does, as much further on as this one stands.
-/

namespace HostedLisp

open Segment Partition Derivation

/-- Whether a token stands for the end of a text, or for a string that the text ends in. -/
def Token.EndsText (t : Token) : Prop :=
  t.kind = .endOfInput ∨
    ∃ position, t = LexicalFault.unterminatedString.token position ∨
      t = LexicalFault.unterminatedRawString.token position

theorem Token.EndsText.isFinal {t : Token} (h : t.EndsText) : t.isFinal = true := by
  rcases h with h | ⟨position, rfl | rfl⟩
  · simp [Token.isFinal, h]
  · rfl
  · rfl

section Moving

variable {start stop position : Nat} {f : LexicalFault} {x : List Char}

/-- What is wrong with some characters is also wrong with them at a later offset. Only the message
about an unexpected character names the offset. -/
theorem IsBroken.moved (h : IsBroken start stop f position x) (k : Nat) :
    ∃ f', IsBroken (start + k) (stop + k) f' (position + k) x := by
  cases h with
  | unexpected hgap hpunctuation hname hnumeral hquote hmark =>
      exact ⟨_, .unexpected hgap hpunctuation hname hnumeral hquote hmark⟩
  | unknownEscape h he =>
      rw [Nat.add_right_comm]
      exact ⟨_, .unknownEscape h he⟩
  | unterminatedString h htail => exact ⟨_, .unterminatedString h htail⟩
  | unterminatedRawString h => exact ⟨_, .unterminatedRawString h⟩

/-- The tokens of two texts where one text stands `k` characters further on. -/
def Correspondence.moving (k : Nat) : Correspondence :=
  .closed (fun t u => t.ReadsAs u ∧ u.position = t.position + k) And.left

theorem Partition.Divides.moved {p : Partition} {offset : Nat} {source : List Char}
    {ts : List Token} {final : Token} (h : p.Divides offset source ts final) (k : Nat) :
    ∃ final', p.Divides (offset + k) source (ts.map (Token.moved k)) final' ∧
      (Correspondence.moving k).Rel final final' := by
  rcases h.final_eq with ⟨hnil, rfl⟩ | ⟨f, position, rfl, hbroken⟩
  · exact ⟨_, ⟨h.chars_eq, spell_moved h.spell k, h.last_gap, .inl ⟨hnil, rfl⟩⟩,
      ⟨rfl, fun _ _ _ => rfl⟩, Nat.add_right_comm _ _ _⟩
  · obtain ⟨f', hf'⟩ := hbroken.moved k
    rw [Nat.add_right_comm, Nat.add_right_comm offset source.length] at hf'
    exact ⟨_, ⟨h.chars_eq, spell_moved h.spell k, h.last_gap, .inr ⟨f', _, rfl, hf'⟩⟩,
      ⟨rfl, fun _ _ hfault => absurd rfl hfault⟩, rfl⟩

theorem streams_blanks (b : String) (k : Nat) :
    (Correspondence.moving k).Streams (tokenize b) (tokenize (blanks k ++ b)) := by
  obtain ⟨p, ts, final, h⟩ := exists_divides (Lexer.ofText b)
  obtain ⟨final', h', hfinal⟩ := h.moved k
  have htokens : tokenize b = ts ++ [final] := h.tokens_eq
  have hoffset : (Lexer.ofText b).position + k = k := Nat.zero_add k
  rw [hoffset] at h'
  have htokens' : tokenize (blanks k ++ b) = ts.map (Token.moved k) ++ [final'] := by
    rw [tokenize_blanks]
    exact @Divides.tokens_eq _ _ _ ⟨b.toList, k, 0⟩ h'
  rw [htokens, htokens']
  refine Correspondence.streams_of_forall₂ (List.rel_append ?_ (.cons hfinal .nil))
  exact List.forall₂_map_right_iff.mpr
    (List.forall₂_same.mpr fun t _ => ⟨⟨rfl, fun _ _ _ => rfl⟩, rfl⟩)

theorem parseMany_blanks_error {b : String} {e : SyntaxError} (h : parseMany b = .error e)
    (k : Nat) : ∃ e', parseMany (blanks k ++ b) = .error e' ∧ e'.stop.kind = e.stop.kind ∧
      e'.stop.position = e.stop.position + k := by
  obtain ⟨e', he', -, -, hstop⟩ :=
    Correspondence.parseMany_of_streams (streams_blanks b k) h not_false
  exact ⟨e', he', hstop.1.1, hstop.2⟩

end Moving

section SecondText

variable {source rest : String} {ds : List Derivation} {e : SyntaxError}

theorem firstOffending_of_parseMany (h : parseMany source = .error e) :
    ∃ ts, Language.expressions.FirstOffending source ts e.stop := by
  have houtcome := outcome_parseMany source
  unfold parseMany at h
  cases hrule : Parser.expressions (source.length + 2) (Parser.ofText source) with
  | mk result q =>
      rw [hrule] at houtcome h
      obtain rfl : result = .error e := h
      obtain ⟨ts, hts, -⟩ := Parser.LocatedFrom.atFirstOffending houtcome
      exact ⟨ts, hts⟩

theorem Language.FirstOffending.append_left (hds : ValidAll ds)
    (htokens : tokenize source = yieldAll ds ++ tokenize rest) {ts : List Token} {t : Token}
    (h : Language.expressions.FirstOffending rest ts t) :
    Language.expressions.FirstOffending source (yieldAll ds ++ ts) t := by
  obtain ⟨⟨us, hus⟩, ⟨vs, es, hes, hyield⟩, hnot⟩ := h
  refine ⟨⟨us, by rw [htokens, hus, List.append_assoc]⟩, ⟨vs, ds ++ es, ?_, ?_⟩, ?_⟩
  · exact validAll_append.mpr ⟨hds, hes⟩
  · rw [yieldAll_append, hyield, List.append_assoc]
  · rintro ⟨ws, es', hes', hyield'⟩
    rw [List.append_assoc, List.append_assoc] at hyield'
    obtain ⟨es'', -, hes'', hrest⟩ := Language.exists_eq_append_of_yieldAll hds hes' hyield'
    exact hnot ⟨ws, es'', hes'', by rw [hrest, List.append_assoc]⟩

theorem exists_parseMany_error (hds : ValidAll ds)
    (htokens : tokenize source = yieldAll ds ++ tokenize rest) (h : parseMany rest = .error e) :
    ∃ e', parseMany source = .error e' ∧ e'.stop = e.stop := by
  cases hsource : parseMany source with
  | error e' =>
      obtain ⟨ts, hts⟩ := firstOffending_of_parseMany h
      obtain ⟨us, hus⟩ := firstOffending_of_parseMany hsource
      exact ⟨e', rfl, (hus.unique (hts.append_left hds htokens)).2⟩
  | ok xs =>
      obtain ⟨es, hes, hspells, -⟩ := parseMany_eq_ok_iff.mp hsource
      obtain ⟨eof, heof, hes_tokens⟩ := spells_iff.mp hspells
      obtain ⟨us, t, hus, -⟩ := (Lexer.ofText rest).exists_tokens_eq_append
      change tokenize rest = us ++ [t] at hus
      rw [hes_tokens, hus, ← List.append_assoc] at htokens
      obtain ⟨hyield, hlast⟩ := List.append_inj' htokens rfl
      obtain rfl := List.singleton_inj.mp hlast
      obtain ⟨es', -, hes', rfl⟩ := Language.exists_eq_append_of_yieldAll hds hes hyield
      rw [parseMany_eq_ok_iff.mpr ⟨es', hes', spells_iff.mpr ⟨eof, heof, hus⟩, rfl⟩] at h
      cases h

end SecondText

section FirstText

/-- The tokens of two texts of which the second one goes on where the first one ends. -/
def Correspondence.extending : Correspondence where
  Rel := Eq
  Open := Token.EndsText
  readsAs h := h ▸ .refl _
  isFinal_of_open := Token.EndsText.isFinal

theorem IsBroken.append {start stop position : Nat} {f : LexicalFault} {x : List Char}
    (h : IsBroken start stop f position x) (hopen : ¬ (f.token position).EndsText)
    (stop' : Nat) (r : List Char) : IsBroken start stop' f position (x ++ r) := by
  cases h with
  | unexpected hgap hpunctuation hname hnumeral hquote hmark =>
      exact .unexpected hgap hpunctuation hname hnumeral hquote hmark
  | unknownEscape h he =>
      rw [List.append_assoc]
      exact .unknownEscape h he
  | unterminatedString => exact absurd (.inr ⟨_, .inl rfl⟩) hopen
  | unterminatedRawString => exact absurd (.inr ⟨_, .inr rfl⟩) hopen

theorem streams_extending (a b : String) :
    Correspondence.extending.Streams (tokenize a) (tokenize (a ++ "\n" ++ b)) := by
  obtain ⟨p, ts, final, h⟩ := exists_divides (Lexer.ofText a)
  have htokens : tokenize a = ts ++ [final] := h.tokens_eq
  have hchars : a.toList = charsOf p.segments ++ (p.last ++ p.broken) := by
    rw [← List.append_assoc]
    exact h.chars_eq
  have hrest : (Lexer.ofText (a ++ "\n" ++ b)).rest =
      charsOf p.segments ++ (p.last ++ p.broken ++ '\n' :: b.toList) := by
    simp [Lexer.ofText, hchars]
  have hspell : Spell (Lexer.ofText (a ++ "\n" ++ b)).position p.segments ts _ :=
    spell_before_newline h.spell b.toList
  obtain ⟨lx, htokens', hrest', hposition⟩ := exists_tokens_eq_append hspell hrest
  change tokenize (a ++ "\n" ++ b) = _ at htokens'
  rw [htokens, htokens']
  refine Correspondence.Streams.append_left (fun _ => rfl) ts ?_
  by_cases hopen : final.EndsText
  · exact .cut _ _ hopen
  rcases h.final_eq with ⟨-, rfl⟩ | ⟨f, position, rfl, hbroken⟩
  · exact absurd (.inl rfl) hopen
  -- The rest of the longer text is broken where the rest of the shorter one is.
  · have hstart : (Lexer.ofText a).position + (charsOf p.segments ++ p.last).length =
        lx.position + ([] ++ p.last).length := by
      rw [hposition, List.length_append, List.nil_append, Nat.add_assoc]
      rfl
    rw [hstart] at hbroken
    have hdivides : (⟨[], p.last, p.broken ++ '\n' :: b.toList⟩ : Partition).Divides lx.position
        lx.rest [] (f.token position) :=
      ⟨by rw [hrest', List.append_assoc]; rfl, trivial, h.last_gap,
        .inr ⟨f, position, rfl, hbroken.append hopen _ _⟩⟩
    rw [hdivides.tokens_eq]
    exact .cons rfl .nil

end FirstText

/-- Two texts with a line break between them are read as one after the other. If both are read, the
result is the expressions of the first text and then those of the second one, which stand where they
do in the whole; if only the first text is read, the whole fails at the token where the second one
fails; and if the first text fails, and not for its end, the whole fails with the same error. -/
theorem parseMany_joined (a b : String) :
    (∀ xs, parseMany a = .ok xs →
      (∀ ys, parseMany b = .ok ys →
        parseMany (a ++ "\n" ++ b) = .ok (xs ++ Node.movedAll (a.length + 1) ys)) ∧
      ∀ e, parseMany b = .error e → ∃ e', parseMany (a ++ "\n" ++ b) = .error e' ∧
        e'.stop.kind = e.stop.kind ∧ e'.stop.position = e.stop.position + (a.length + 1)) ∧
    ∀ e, parseMany a = .error e → ¬ e.stop.EndsText → parseMany (a ++ "\n" ++ b) = .error e := by
  refine ⟨fun xs hxs => ⟨fun ys hys => parseMany_lines hxs hys, fun e he => ?_⟩, ?_⟩
  · obtain ⟨ds, hds, hspells, -⟩ := parseMany_eq_ok_iff.mp hxs
    obtain ⟨eof, heof, htokens⟩ := spells_iff.mp hspells
    obtain ⟨e₁, he₁, hkind, hposition⟩ := parseMany_blanks_error he (a.length + 1)
    obtain ⟨e', he', hstop⟩ := exists_parseMany_error hds (tokenize_lines heof htokens b) he₁
    exact ⟨e', he', by rw [hstop, hkind], by rw [hstop, hposition]⟩
  · intro e he hopen
    obtain ⟨e', he', hfault, hstart, hstop⟩ :=
      Correspondence.parseMany_of_streams (streams_extending a b) he hopen
    have hsame : e' = e := by
      cases e
      cases e'
      cases hstart
      cases hstop
      cases hfault fun _ => rfl
      rfl
    rw [he', hsame]

/-- A name and a parenthesis that closes nothing, in both orders. -/
theorem parseMany_name_and_closing :
    (∃ e, parseMany "x\n)" = .error e ∧ e.stop.kind = .parenClose ∧ e.stop.position = 2) ∧
      parseMany ")\nx" = .error (.atToken (.unexpectedToken .parenClose)
        ⟨0, .parenClose, some ")"⟩) := by
  constructor
  · exact ((parseMany_joined "x" ")").1 _ rfl).2 _ rfl
  · refine (parseMany_joined ")" "x").2 _ rfl ?_
    rintro (h | ⟨position, h | h⟩) <;> cases h

end HostedLisp
