import HostedLisp.Proofs.Source.Acceptance
import HostedLisp.Proofs.Source.Lexeme

/-!
Where the error of a parse is. Main statement: it is at the first token with which the text can
no longer be continued to an expression, and no later token has been read.
-/

namespace HostedLisp

open Derivation HeadDerivation

theorem LexicalFault.head?_message (f : LexicalFault) : f.message.toList.head? = some 'U' := by
  unfold message
  cases f <;> simp only [String.toList_append, List.append_assoc, List.head?_append] <;> rfl

theorem SyntaxFault.IsAt.message_ne {fault : SyntaxFault} {t : Token} (h : fault.IsAt t)
    (ht : t.WellSpelled) : fault.message ≠ SyntaxFault.dottedName.message := by
  have hfirst : fault.message.toList.head? = some 'U' ∨ fault.message.toList.head? = some 'I' := by
    unfold message
    cases fault with
    | dottedName => exact absurd rfl h.1
    | lexical m =>
        obtain ⟨hkind, htext⟩ := h.2 m rfl
        rw [Token.WellSpelled, hkind] at ht
        obtain ⟨f, hf⟩ := ht
        have hm : m = f.message := by rw [← htext, Token.textOrEmpty, hf]; rfl
        exact .inl (hm ▸ f.head?_message)
    | invalidNumeral | integerOutOfRange =>
        right
        simp only [String.toList_append, List.append_assoc, List.head?_append]
        rfl
    | _ =>
        left
        simp only [String.toList_append, List.append_assoc, List.head?_append]
        rfl
  intro heq
  rw [heq] at hfirst
  exact absurd hfirst (by decide)

namespace Language

/-- Whether `ts` are the tokens of a text before the first one, `t`, with which the text can no
longer be continued to a member of the language. -/
def FirstOffending (L : Language) (source : String) (ts : List Token) (t : Token) : Prop :=
  (∃ us, tokenize source = ts ++ t :: us) ∧ L.Viable ts ∧ ¬ L.Viable (ts ++ [t])

theorem Viable.of_append {L : Language} {ts : List Token} (us : List Token)
    (h : L.Viable (ts ++ us)) : L.Viable ts := by
  obtain ⟨rest, hrest⟩ := h
  exact ⟨us ++ rest, by rwa [← List.append_assoc]⟩

/-- A text has at most one such token. -/
theorem FirstOffending.unique {L : Language} {source : String} {ts us : List Token} {t u : Token}
    (ht : L.FirstOffending source ts t) (hu : L.FirstOffending source us u) :
    ts = us ∧ t = u := by
  obtain ⟨⟨ts', hts'⟩, hts, htsn⟩ := ht
  obtain ⟨⟨us', hus'⟩, hus, husn⟩ := hu
  have h : ts ++ t :: ts' = us ++ u :: us' := hts'.symm.trans hus'
  rcases List.append_eq_append_iff.mp h with ⟨vs, rfl, hvs⟩ | ⟨vs, rfl, hvs⟩
  · cases vs with
    | nil =>
        obtain ⟨rfl, -⟩ := List.cons.inj hvs
        exact ⟨(List.append_nil _).symm, rfl⟩
    | cons v vs =>
        obtain ⟨rfl, -⟩ := List.cons.inj hvs
        exact absurd (Viable.of_append vs (by simpa using hus)) htsn
  · cases vs with
    | nil =>
        obtain ⟨rfl, -⟩ := List.cons.inj hvs
        exact ⟨List.append_nil _, rfl⟩
    | cons v vs =>
        obtain ⟨rfl, -⟩ := List.cons.inj hvs
        exact absurd (Viable.of_append vs (by simpa using hts)) husn

end Language

/-- Whether an error is at the first token with which a text can no longer be continued, `lexer`
being the lexer that the parse left. At the end of the text, the text itself is no member. An
error starts where it ends, except that one about a dotted name starts at the first segment of
the name, which an opening parenthesis precedes. -/
def SyntaxError.AtFirstOffending (L : Language) (source : String) (e : SyntaxError)
    (lexer : Lexer) : Prop :=
  ∃ ts, L.FirstOffending source ts e.stop ∧ (e.stop.kind = .endOfInput → ¬ L ts) ∧
    lexer = (Lexer.ofText source).after (ts.length + 1) ∧
    if e.message = "Scoped identifier must have only one part" then
      ∃ before opening more, ts = before ++ opening :: e.start :: segments more ∧
        opening.kind = .parenOpen ∧ e.start.kind = .identifier ∧ AreSegments more ∧ more ≠ []
    else
      e.start = e.stop

theorem Parser.LocatedFrom.atFirstOffending {source : String} {L : Language} {e : SyntaxError}
    {q : Parser} (h : LocatedFrom (Lexer.ofText source) L e q) :
    e.AtFirstOffending L source q.lexer := by
  obtain ⟨ts, us, htokens, hviable, hnot, hearly, hmarks, hlexer⟩ := h
  have hspelled := (Lexer.ofText source).wellSpelled_of_mem_tokens e.stop (by simp [htokens])
  refine ⟨ts, ⟨⟨us, htokens⟩, hviable, hnot⟩, hearly, hlexer, ?_⟩
  rcases hmarks with ⟨hat, hstart⟩ | ⟨hfault, hpath⟩
  · have hother : e.message ≠ "Scoped identifier must have only one part" :=
      hat.message_ne hspelled
    rwa [if_neg hother]
  · have hdotted : e.message = "Scoped identifier must have only one part" := by
      rw [SyntaxError.message, hfault]
      rfl
    rwa [if_pos hdotted]

/-- The error of a parse is at the first token with which the text can no longer be continued
to an expression, or to a sequence of expressions, and no later token has been read. -/
theorem parse_error_at_first_offending (source : String) (e : SyntaxError) :
    (parse source = .error e →
      e.AtFirstOffending .expression source (Parser.whole (Parser.ofText source)).2.lexer) ∧
    (parseMany source = .error e →
      e.AtFirstOffending .expressions source
        (Parser.expressions (source.length + 2) (Parser.ofText source)).2.lexer) := by
  constructor
  · intro he
    have h := Parser.outcome_whole (p := Parser.ofText source) rfl
    unfold parse at he
    cases hrule : Parser.whole (Parser.ofText source) with
    | mk result q =>
        rw [hrule] at h he
        obtain rfl : result = .error e := he
        exact Parser.LocatedFrom.atFirstOffending h
  · intro he
    have h := outcome_parseMany source
    unfold parseMany at he
    cases hrule : Parser.expressions (source.length + 2) (Parser.ofText source) with
    | mk result q =>
        rw [hrule] at h he
        obtain rfl : result = .error e := he
        exact Parser.LocatedFrom.atFirstOffending h

/-- A dotted name that is the head of a call is faulty where the slash is missing. -/
theorem dotted_head_first_offending :
    SyntaxError.AtFirstOffending .expression "(a.b 1)"
      ⟨.dottedName, ⟨1, .identifier, some "a"⟩, ⟨5, .integer, some "1"⟩⟩
      (Parser.whole (Parser.ofText "(a.b 1)")).2.lexer :=
  (parse_error_at_first_offending "(a.b 1)" _).1 rfl

end HostedLisp
