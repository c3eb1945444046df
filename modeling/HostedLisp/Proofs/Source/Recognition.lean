import HostedLisp.Proofs.Source.Language
import HostedLisp.Proofs.Source.Stream

namespace HostedLisp

open Derivation HeadDerivation Language

/-- A fault that is no misplaced path; a lexical one repeats the text of the token it is at. -/
def SyntaxFault.IsAt (fault : SyntaxFault) (t : Token) : Prop :=
  fault ≠ .dottedName ∧ ∀ m, fault = .lexical m → t.kind = .fault ∧ t.textOrEmpty = m

/-- Whether an error spans the right tokens, given those read before it: a dotted name reaches
from its first segment, which an opening parenthesis precedes, and all else is a single token. -/
def SyntaxError.Marks (e : SyntaxError) (ts : List Token) : Prop :=
  (e.fault.IsAt e.stop ∧ e.start = e.stop) ∨
    (e.fault = .dottedName ∧ ∃ before opening more,
      ts = before ++ opening :: e.start :: segments more ∧ opening.kind = .parenOpen ∧
        e.start.kind = .identifier ∧ AreSegments more ∧ more ≠ [])

theorem SyntaxError.Marks.append_left {e : SyntaxError} {ts : List Token} (h : e.Marks ts)
    (before : List Token) : e.Marks (before ++ ts) := by
  rcases h with h | ⟨hf, before', opening, more, rfl, h⟩
  · exact .inl h
  · exact .inr ⟨hf, before ++ before', opening, more, by simp, h⟩

namespace Parser

/-- The parser `p` reads on to the token at which its language stops, and fails there. -/
def Fails (p : Parser) (L : Language) (e : SyntaxError) (q : Parser) : Prop :=
  ∃ ts r, p.Reads ts r ∧ e.stop = r.pull.1 ∧ q.lexer = r.pull.2.lexer ∧ L.Stops ts e.stop ∧
    e.Marks ts

theorem fails_atToken {p r : Parser} {L : Language} {ts : List Token} (h : p.Reads ts r)
    {fault : SyntaxFault} (hf : fault.IsAt r.pull.1) (hs : L.Stops ts r.pull.1) :
    p.Fails L (.atToken fault r.pull.1) r.pull.2 :=
  ⟨ts, r, h, rfl, rfl, hs, .inl ⟨hf, rfl⟩⟩

theorem Fails.of_reads {p p' q : Parser} {L L' : Language} {ts : List Token} {e : SyntaxError}
    (h : p'.Fails L' e q) (hts : p.Reads ts p')
    (hL : ∀ us, L'.Stops us e.stop → L.Stops (ts ++ us) e.stop) : p.Fails L e q := by
  obtain ⟨us, r, hus, hstop, hlexer, hs, hm⟩ := h
  exact ⟨ts ++ us, r, hts.trans hus, hstop, hlexer, hL us hs, hm.append_left ts⟩

theorem Fails.of_pull_eq {p p' q : Parser} {L : Language} {e : SyntaxError} (h : p.Fails L e q)
    (hp : p'.pull = p.pull) : p'.Fails L e q := by
  obtain ⟨ts, r, hts, hstop, hlexer, hs, hm⟩ := h
  cases hts with
  | nil => exact ⟨[], p', .nil p', by rw [hp, hstop], by rw [hp, hlexer], hs, hm⟩
  | cons final rest => exact ⟨_, r, (Reads.cons final rest).of_pull_eq hp (by simp), hstop,
      hlexer, hs, hm⟩

section Steps

variable {α β : Type} {first : Step α} {second : α → Step β} {p q : Parser}

theorem andThen_ok {a : α} (h : first p = (.ok a, q)) : first.andThen second p = second a q := by
  simp [Step.andThen, h]

theorem andThen_error {e : SyntaxError} (h : first p = (.error e, q)) :
    first.andThen second p = (.error e, q) := by
  simp [Step.andThen, h]

theorem accept_of_not_final (h : p.pull.1.isFinal = false) :
    accept p = (.ok p.pull.1, p.pull.2) := by
  cases hk : p.pull.1.kind <;> simp_all [accept, Token.isFinal]

theorem accept_of_final (h : p.pull.1.isFinal = true) :
    ∃ fault : SyntaxFault, fault.IsAt p.pull.1 ∧
      accept p = (.error (.atToken fault p.pull.1), p.pull.2) := by
  cases hk : p.pull.1.kind with
  | endOfInput => exact ⟨.unexpectedEnd, by simp [SyntaxFault.IsAt], by simp [accept, hk]⟩
  | fault =>
      exact ⟨.lexical p.pull.1.textOrEmpty, by simp [SyntaxFault.IsAt, hk], by simp [accept, hk]⟩
  | _ => simp [Token.isFinal, hk] at h

theorem expect_identifier (p : Parser) :
    (p.pull.1.kind = .identifier ∧ expect .identifier p = (.ok p.pull.1, p.pull.2)) ∨
      (p.pull.1.kind ≠ .identifier ∧ ∃ fault : SyntaxFault, fault.IsAt p.pull.1 ∧
        expect .identifier p = (.error (.atToken fault p.pull.1), p.pull.2)) := by
  cases hf : p.pull.1.isFinal with
  | true =>
      obtain ⟨fault, hat, h⟩ := accept_of_final hf
      exact .inr ⟨by intro hk; simp [Token.isFinal, hk] at hf, fault, hat, andThen_error h⟩
  | false =>
      by_cases hk : p.pull.1.kind = .identifier
      · refine .inl ⟨hk, ?_⟩
        rw [expect, andThen_ok (accept_of_not_final hf), if_pos hk]
      · refine .inr ⟨hk, .unexpectedTokenExpecting p.pull.1.kind .identifier, ?_, ?_⟩
        · simp [SyntaxFault.IsAt]
        · rw [expect, andThen_ok (accept_of_not_final hf), if_neg hk]

theorem numeral_eq (t : Token) :
    (∃ value, t.literal? = some value ∧ numeral t = .ok value) ∨
      ∃ fault : SyntaxFault, fault.IsAt t ∧ numeral t = .error fault ∧
        (t.literal? = none ∨ t.kind = .string ∨ t.kind = .boolean ∨ t.kind = .null) := by
  cases hk : t.kind with
  | integer =>
      cases hn : Number.readInt64 t.textOrEmpty.toList with
      | ok n =>
          refine .inl ⟨.integer n, ?_, ?_⟩ <;>
            simp [numeral, Token.literal?, hk, hn, Except.toOption]
      | error why =>
          cases why with
          | malformed =>
              refine .inr ⟨.invalidNumeral .integer t.textOrEmpty, ?_, ?_, ?_⟩ <;>
                simp [numeral, Token.literal?, hk, hn, Except.toOption, SyntaxFault.IsAt]
          | outOfRange =>
              refine .inr ⟨.integerOutOfRange t.textOrEmpty, ?_, ?_, ?_⟩ <;>
                simp [numeral, Token.literal?, hk, hn, Except.toOption, SyntaxFault.IsAt]
  | decimal =>
      cases hd : Number.Decimal.read? t.textOrEmpty.toList with
      | some d => refine .inl ⟨.decimal d, ?_, ?_⟩ <;> simp [numeral, Token.literal?, hk, hd]
      | none =>
          refine .inr ⟨.invalidNumeral .decimal t.textOrEmpty, ?_, ?_, ?_⟩ <;>
            simp [numeral, Token.literal?, hk, hd, SyntaxFault.IsAt]
  | double =>
      cases hx : Number.readDouble? t.textOrEmpty.toList with
      | some x => refine .inl ⟨.double x, ?_, ?_⟩ <;> simp [numeral, Token.literal?, hk, hx]
      | none =>
          refine .inr ⟨.invalidNumeral .double t.textOrEmpty, ?_, ?_, ?_⟩ <;>
            simp [numeral, Token.literal?, hk, hx, SyntaxFault.IsAt]
  | float =>
      cases hx : Number.readSingle? t.textOrEmpty.toList with
      | some x => refine .inl ⟨.float x, ?_, ?_⟩ <;> simp [numeral, Token.literal?, hk, hx]
      | none =>
          refine .inr ⟨.invalidNumeral .float t.textOrEmpty, ?_, ?_, ?_⟩ <;>
            simp [numeral, Token.literal?, hk, hx, SyntaxFault.IsAt]
  | _ =>
      refine .inr ⟨.unexpectedToken t.kind, ?_, ?_, ?_⟩ <;>
        simp [numeral, Token.literal?, hk, SyntaxFault.IsAt]

theorem atom_eq (t : Token) :
    (∃ x, t.atom? = some x ∧ atom t = .ok x) ∨
      (t.atom? = none ∧ ∃ fault : SyntaxFault, fault.IsAt t ∧
        atom t = .error (.atToken fault t)) := by
  obtain ⟨value, hl, hn⟩ | ⟨fault, hat, hn, hl⟩ := numeral_eq t
  · refine .inl ?_
    cases hk : t.kind <;> simp_all [Token.atom?, Token.literal?, atom, numeral]
  · cases hk : t.kind with
    | identifier | string | boolean | null =>
        refine .inl ?_
        simp [Token.atom?, Token.literal?, atom, hk]
    | _ =>
        refine .inr ⟨?_, fault, hat, ?_⟩
        · simp_all [Token.atom?]
        · simp [atom, hk, hn]

end Steps

/-- The parser read what it was to read, or failed where its language stops. -/
def Outcome {α : Type} (p : Parser) (L : Language) (Read : α → Parser → Prop) :
    Except SyntaxError α × Parser → Prop
  | (.ok x, q) => Read x q
  | (.error e, q) => p.Fails L e q

section Head

/-- From `p`, the parser read an opening parenthesis and the head `x`. It may have looked at the
next token, which then is no part of the head and is read again. -/
def ReadsHead (p : Parser) (opening : Token) (x : Node) (q : Parser) : Prop :=
  ∃ (h : HeadDerivation) (r : Parser), h.Valid ∧ h.tree = x ∧ p.Reads (opening :: h.yield) r ∧
    q.pull = r.pull ∧ q.ahead ≤ r.ahead ∧ ∀ ts, h.EndsBefore (r.pull.1 :: ts)

/-- The parser read a head, or failed in the invocation that it belongs to. -/
abbrev HeadOutcome (p : Parser) (opening : Token) : Except SyntaxError Node × Parser → Prop :=
  p.Outcome .expression (p.ReadsHead opening)

variable {p : Parser} {opening first : Token}

theorem headOutcome_headRest (ho : opening.kind = .parenOpen) (hfirst : first.kind = .identifier)
    (fuel : Nat) (q : Parser) (more : List (Token × Token)) (hmore : AreSegments more)
    (hq : p.Reads (opening :: first :: segments more) q) (hfuel : q.ahead < fuel) :
    p.HeadOutcome opening
      (headRest first fuel (first.textOrEmpty :: more.map fun s => s.2.textOrEmpty) q) := by
  -- Over all paths read so far, since each round adds a segment to the path.
  induction fuel generalizing q more with
  | zero => omega
  | succ fuel ih =>
      cases hf : q.pull.1.isFinal with
      | true =>
          obtain ⟨fault, hat, h⟩ := accept_of_final hf
          rw [headRest, andThen_error h]
          exact fails_atToken hq hat (stops_path_at_final ho hfirst hmore hf)
      | false =>
          have hlt := ahead_pull_lt hf
          rw [headRest, andThen_ok (accept_of_not_final hf)]
          by_cases hdot : q.pull.1.kind = .dot
          · -- A further segment.
            simp only [hdot]
            have hread := hq.snoc hf
            obtain ⟨hname, h⟩ | ⟨hname, fault, hat, h⟩ := expect_identifier q.pull.2
            · have hf' : q.pull.2.pull.1.isFinal = false := by simp [Token.isFinal, hname]
              have hlt' := ahead_pull_lt hf'
              rw [andThen_ok h]
              have := ih q.pull.2.pull.2 (more ++ [(q.pull.1, q.pull.2.pull.1)])
                (hmore.snoc hdot hname) (by simpa [segments_snoc] using hread.snoc hf') (by omega)
              simpa using this
            · rw [andThen_error h]
              exact fails_atToken hread hat (stops_at_segment ho hfirst hmore hdot hname)
          · by_cases hslash : q.pull.1.kind = .slash
            · simp only [hslash]
              have hread := hq.snoc hf
              obtain ⟨hname, h⟩ | ⟨hname, fault, hat, h⟩ := expect_identifier q.pull.2
              · have hf' : q.pull.2.pull.1.isFinal = false := by simp [Token.isFinal, hname]
                rw [andThen_ok h]
                refine ⟨.staticMember first more q.pull.1 q.pull.2.pull.1, q.pull.2.pull.2,
                  ⟨hfirst, hmore, hslash, hname⟩, rfl, ?_, rfl, Nat.le_refl _, fun _ => trivial⟩
                simpa [HeadDerivation.yield] using hread.snoc hf'
              · rw [andThen_error h]
                exact fails_atToken hread hat (stops_at_member ho hfirst hmore hslash hname)
            · cases more with
              | nil =>
                  have : p.HeadOutcome opening
                      (.ok (.identifier first.textOrEmpty (.ofToken first)), q.pull.2.hold) :=
                    ⟨.identifier first, q, hfirst, rfl, hq, pull_hold_pull q,
                      ahead_hold_pull_le hf, fun _ => endsBefore_of_ne hdot hslash _ _⟩
                  cases hk : q.pull.1.kind <;> simp_all
              | cons s more =>
                  have : p.HeadOutcome opening
                      (.error ⟨.dottedName, first, q.pull.1⟩, q.pull.2.hold) :=
                    ⟨_, q, hq, rfl, rfl,
                      stops_dotted_path ho hfirst hmore (by simp) hdot hslash,
                      .inr ⟨rfl, [], opening, s :: more, rfl, ho, hfirst, hmore, by simp⟩⟩
                  cases hk : q.pull.1.kind <;> simp_all

theorem headOutcome_head (ho : opening.kind = .parenOpen) (fuel : Nat) (q : Parser)
    (hq : p.Reads [opening] q) (hfuel : q.ahead ≤ fuel) :
    p.HeadOutcome opening (head fuel q) := by
  cases hf : q.pull.1.isFinal with
  | true =>
      obtain ⟨fault, hat, h⟩ := accept_of_final hf
      rw [head, andThen_error h]
      refine fails_atToken hq hat (stops_at_head ho ?_ ?_)
      · intro hk
        simp [Token.isFinal, hk] at hf
      · intro hk
        simp [Token.isFinal, hk] at hf
  | false =>
      have hlt := ahead_pull_lt hf
      have hread := hq.snoc hf
      rw [head, andThen_ok (accept_of_not_final hf)]
      by_cases hdot : q.pull.1.kind = .dot
      · simp only [hdot]
        obtain ⟨hname, h⟩ | ⟨hname, fault, hat, h⟩ := expect_identifier q.pull.2
        · have hf' : q.pull.2.pull.1.isFinal = false := by simp [Token.isFinal, hname]
          rw [andThen_ok h]
          exact ⟨.instanceMember q.pull.1 q.pull.2.pull.1, q.pull.2.pull.2, ⟨hdot, hname⟩, rfl,
            hread.snoc hf', rfl, Nat.le_refl _, fun _ => trivial⟩
        · rw [andThen_error h]
          exact fails_atToken hread hat (stops_at_instanceMember ho hdot hname)
      · by_cases hname : q.pull.1.kind = .identifier
        · simp only [hname]
          exact headOutcome_headRest ho hname fuel q.pull.2 [] areSegments_nil hread (by omega)
        · have : p.HeadOutcome opening (.error (.atToken
              (.unexpectedTokenExpecting q.pull.1.kind .identifier) q.pull.1), q.pull.2) :=
            fails_atToken hq (by simp [SyntaxFault.IsAt]) (stops_at_head ho hdot hname)
          cases hk : q.pull.1.kind <;> simp_all

end Head

section Expression

/-- From `p`, the parser read the tokens of an expression. -/
def ReadsExpression (p : Parser) (x : Node) (q : Parser) : Prop :=
  ∃ d : Derivation, d.Valid ∧ d.tree = x ∧ p.Reads d.yield q

/-- From `p`, the parser read the tokens of expressions and a closing token. -/
def ReadsUntil (p : Parser) (closer : TokenKind) (xs : List Node) (q : Parser) : Prop :=
  ∃ ds c, ValidAll ds ∧ c.kind = closer ∧ treeAll ds = xs ∧ p.Reads (yieldAll ds ++ [c]) q

variable {p : Parser}

theorem outcome_invocation {opening : Token} (ho : opening.kind = .parenOpen) {x : Node}
    {q : Parser} (hhead : p.ReadsHead opening x q) {rule : Step (List Node)}
    (h : q.Outcome (.expressionsUntil .parenClose) (q.ReadsUntil .parenClose) (rule q)) :
    p.Outcome .expression p.ReadsExpression
      (rule.andThen (fun ps r => (.ok (.invocation x ps (r.spanFrom opening)), r)) q) := by
  obtain ⟨head, r, hv, rfl, hr, hpull, -, hend⟩ := hhead
  cases hrule : rule q with
  | mk result q' =>
      rw [hrule] at h
      cases result with
      | ok ps =>
          obtain ⟨ds, c, hds, hc, rfl, hq⟩ := h
          have hread : p.Reads (opening :: head.yield ++ (yieldAll ds ++ [c])) q' :=
            hr.trans (hq.of_pull_eq hpull.symm (by simp))
          have hcurrent := hread.current_eq (List.append_assoc _ _ _).symm
          rw [andThen_ok hrule]
          refine ⟨.invocation opening head ds c, ⟨ho, hv, hds, hc⟩, ?_, hread⟩
          simp [Derivation.tree, spanFrom, hcurrent]
      | error e =>
          obtain ⟨ts, r', hts, hstop, hlexer, hs, hm⟩ := Fails.of_pull_eq h hpull.symm
          rw [andThen_error hrule]
          refine ⟨_, r', hr.trans hts, hstop, hlexer, stops_invocation ho hv ?_ hs,
            hm.append_left _⟩
          intro s
          -- The first token after the head is the one that the head was followed by.
          cases hts with
          | nil => exact hstop ▸ hend s
          | cons final rest => exact hend _

theorem outcome_list {opening : Token} (ho : opening.kind = .bracketOpen) {q : Parser}
    (hq : p.Reads [opening] q) {rule : Step (List Node)}
    (h : q.Outcome (.expressionsUntil .bracketClose) (q.ReadsUntil .bracketClose) (rule q)) :
    p.Outcome .expression p.ReadsExpression
      (rule.andThen (fun xs r => (.ok (.list xs (r.spanFrom opening)), r)) q) := by
  cases hrule : rule q with
  | mk result q' =>
      rw [hrule] at h
      cases result with
      | ok xs =>
          obtain ⟨ds, c, hds, hc, rfl, hq'⟩ := h
          have hcurrent := hq'.current_eq rfl
          rw [andThen_ok hrule]
          refine ⟨.list opening ds c, ⟨ho, hds, hc⟩, ?_, hq.trans hq'⟩
          simp [Derivation.tree, spanFrom, hcurrent]
      | error e =>
          rw [andThen_error hrule]
          exact Fails.of_reads h hq fun us hs => stops_list ho hs

theorem outcome_quote {mark : Token} (hmark : mark.kind = .quote) {q : Parser}
    (hq : p.Reads [mark] q) {rule : Step Node}
    (h : q.Outcome .expression q.ReadsExpression (rule q)) :
    p.Outcome .expression p.ReadsExpression
      (rule.andThen (fun x r => (.ok (.quote x ⟨some mark, x.span.stop⟩), r)) q) := by
  cases hrule : rule q with
  | mk result q' =>
      rw [hrule] at h
      cases result with
      | ok x =>
          obtain ⟨d, hd, rfl, hq'⟩ := h
          rw [andThen_ok hrule]
          exact ⟨.quote mark d, ⟨hmark, hd⟩, rfl, hq.trans hq'⟩
      | error e =>
          rw [andThen_error hrule]
          exact Fails.of_reads h hq fun us hs => stops_quote hmark hs

theorem outcome_atom (hf : p.pull.1.isFinal = false) (hparen : p.pull.1.kind ≠ .parenOpen)
    (hbracket : p.pull.1.kind ≠ .bracketOpen) (hmark : p.pull.1.kind ≠ .quote) :
    p.Outcome .expression p.ReadsExpression (atom p.pull.1, p.pull.2) := by
  obtain ⟨x, hx, h⟩ | ⟨hx, fault, hat, h⟩ := atom_eq p.pull.1
  · rw [h]
    exact ⟨.atom p.pull.1, ⟨x, hx⟩, by simp [Derivation.tree, hx], .single hf⟩
  · rw [h]
    refine fails_atToken (.nil p) hat (stops_at_start ?_)
    rintro (hb | hb | hb | ⟨x, hb⟩)
    · exact hparen hb
    · exact hbracket hb
    · exact hmark hb
    · simp [hx] at hb

theorem stops_final (hf : p.pull.1.isFinal = true) : Language.expression.Stops [] p.pull.1 :=
  stops_at_start fun hb => by simp [hb.kind_ne.2.2.2.2] at hf

mutual

-- An item is read from the token that showed it to be no closing one, which is then read twice.
-- So the fuel has to be twice the tokens ahead.
theorem outcome_expression : (fuel : Nat) → (p : Parser) → 2 * p.ahead < fuel →
    p.Outcome .expression p.ReadsExpression (expression fuel p)
  | 0, p, h => by omega
  | fuel + 1, p, h => by
      cases hf : p.pull.1.isFinal with
      | true =>
          obtain ⟨fault, hat, he⟩ := accept_of_final hf
          rw [expression, andThen_error he]
          exact fails_atToken (.nil p) hat (stops_final hf)
      | false =>
          have hlt := ahead_pull_lt hf
          have hread := Reads.single hf
          rw [expression, andThen_ok (accept_of_not_final hf)]
          by_cases hparen : p.pull.1.kind = .parenOpen
          · simp only [hparen]
            have hhead := headOutcome_head hparen fuel p.pull.2 hread (by omega)
            cases hrule : head fuel p.pull.2 with
            | mk result q =>
                rw [hrule] at hhead
                cases result with
                | error e =>
                    rw [andThen_error hrule]
                    exact hhead
                | ok x =>
                    obtain ⟨hd, r, hv, hx, hr, hpull, hahead, hend⟩ := hhead
                    have hle := hr.ahead_add_length_le
                    rw [andThen_ok hrule]
                    refine outcome_invocation hparen ⟨hd, r, hv, hx, hr, hpull, hahead, hend⟩
                      (outcome_expressionsUntil (.inl rfl) fuel q ?_)
                    rw [List.length_cons] at hle
                    omega
          · by_cases hbracket : p.pull.1.kind = .bracketOpen
            · simp only [hbracket]
              exact outcome_list hbracket hread
                (outcome_expressionsUntil (.inr rfl) fuel p.pull.2 (by omega))
            · by_cases hmark : p.pull.1.kind = .quote
              · simp only [hmark]
                exact outcome_quote hmark hread (outcome_expression fuel p.pull.2 (by omega))
              · have := outcome_atom hf hparen hbracket hmark
                cases hk : p.pull.1.kind <;> simp_all

theorem outcome_expressionsUntil {closer : TokenKind}
    (hcloser : closer = .parenClose ∨ closer = .bracketClose) :
    (fuel : Nat) → (p : Parser) → 2 * p.ahead + 1 < fuel →
    p.Outcome (.expressionsUntil closer) (p.ReadsUntil closer) (expressionsUntil closer fuel p)
  | 0, p, h => by omega
  | fuel + 1, p, h => by
      cases hf : p.pull.1.isFinal with
      | true =>
          obtain ⟨fault, hat, he⟩ := accept_of_final hf
          rw [expressionsUntil, andThen_error he]
          refine fails_atToken (.nil p) hat (stops_first ?_ (stops_final hf))
          rintro u hu rfl
          rcases hcloser with hk | hk <;> simp_all [Token.isFinal]
      | false =>
          rw [expressionsUntil, andThen_ok (accept_of_not_final hf)]
          by_cases hclose : p.pull.1.kind = closer
          · rw [if_pos hclose]
            exact ⟨[], p.pull.1, trivial, hclose, rfl, .single hf⟩
          · rw [if_neg hclose]
            have hahead := ahead_hold_pull_le hf
            have hpull := pull_hold_pull p
            have hx := outcome_expression fuel p.pull.2.hold (by omega)
            cases hrule : expression fuel p.pull.2.hold with
            | mk result q =>
                rw [hrule] at hx
                cases result with
                | error e =>
                    rw [andThen_error hrule]
                    obtain ⟨ts, r, hts, hstop, hlexer, hs, hm⟩ := Fails.of_pull_eq hx hpull.symm
                    refine ⟨ts, r, hts, hstop, hlexer, stops_first ?_ hs, hm⟩
                    cases hts with
                    | nil => simpa [hstop] using hclose
                    | cons final rest => simpa using hclose
                | ok x =>
                    obtain ⟨d, hd, rfl, hq⟩ := hx
                    obtain ⟨t, ts, hyield, -⟩ := exists_yield_eq_cons hd
                    have hread : p.Reads d.yield q :=
                      hq.of_pull_eq hpull.symm (by simp [hyield])
                    have hle := hread.ahead_add_length_le
                    rw [hyield, List.length_cons] at hle
                    rw [andThen_ok hrule]
                    have hxs := outcome_expressionsUntil hcloser fuel q (by omega)
                    cases hrest : expressionsUntil closer fuel q with
                    | mk result q' =>
                        rw [hrest] at hxs
                        cases result with
                        | error e =>
                            rw [andThen_error hrest]
                            exact Fails.of_reads hxs hread fun us hs => stops_next hcloser hd hs
                        | ok xs =>
                            obtain ⟨ds, c, hds, hc, rfl, hq'⟩ := hxs
                            rw [andThen_ok hrest]
                            refine ⟨d :: ds, c, ⟨hd, hds⟩, hc, rfl, ?_⟩
                            simpa [yieldAll] using hread.trans hq'

end

theorem outcome_parseExpr (p : Parser) :
    p.Outcome .expression p.ReadsExpression (parseExpr p) := by
  refine outcome_expression p.budget p ?_
  unfold budget ahead
  split <;> omega

end Expression

section Text

/-- The error is at the first token with which the tokens of the lexer are not the beginning of
a member of the language; the end of the text is at fault only if it comes too early. The parser
has asked for no token after that one. -/
def LocatedFrom (lx : Lexer) (L : Language) (e : SyntaxError) (q : Parser) : Prop :=
  ∃ ts us, lx.tokens = ts ++ e.stop :: us ∧ L.Viable ts ∧ ¬ L.Viable (ts ++ [e.stop]) ∧
    (e.stop.kind = .endOfInput → ¬ L ts) ∧ e.Marks ts ∧ q.lexer = lx.after (ts.length + 1)

variable {p : Parser}

theorem Reads.tokens_eq_append_pull {ts : List Token} {r : Parser} (h : p.Reads ts r)
    (hp : p.held = false) :
    ∃ us, p.lexer.tokens = ts ++ r.pull.1 :: us ∧
      r.pull.2.lexer = p.lexer.after (ts.length + 1) := by
  obtain ⟨hr, htokens, hlexer⟩ := h.tokens_eq hp
  obtain ⟨us, hus⟩ := r.lexer.exists_tokens_eq_cons
  refine ⟨us, ?_, ?_⟩
  · rw [htokens, hus, pull_of_not_held hr]
  · rw [Lexer.after_succ, ← hlexer, pull_of_not_held hr]

/-- What a whole text reads as: the tree of a derivation of all its tokens, or a located error. -/
theorem outcome_whole (hp : p.held = false) :
    match whole p with
    | (.ok x, _) => ∃ (d : Derivation) (eof : Token), d.Valid ∧ d.tree = x ∧
        eof.kind = .endOfInput ∧
        p.lexer.tokens = d.yield ++ [eof]
    | (.error e, q) => LocatedFrom p.lexer .expression e q := by
  have hx := outcome_parseExpr p
  unfold whole
  cases hrule : parseExpr p with
  | mk result q =>
      rw [hrule] at hx
      cases result with
      | error e =>
          rw [andThen_error hrule]
          obtain ⟨ts, r, hts, hstop, hlexer, hs, hm⟩ := hx
          obtain ⟨us, hus, hafter⟩ := hts.tokens_eq_append_pull hp
          exact ⟨ts, us, hstop ▸ hus, hs.1, hs.not_viable, fun _ => hs.not_mem, hm,
            hlexer.trans hafter⟩
      | ok x =>
          obtain ⟨d, hd, rfl, hq⟩ := hx
          obtain ⟨us, hus, hafter⟩ := hq.tokens_eq_append_pull hp
          have hviable : Language.expression.Viable d.yield := ⟨[], d, hd, (List.append_nil _).symm⟩
          rw [andThen_ok hrule]
          by_cases hend : q.pull.1.kind = .endOfInput
          · have hfinal : q.pull.1.isFinal = true := by simp [Token.isFinal, hend]
            obtain ⟨hheld, htokens, -⟩ := hq.tokens_eq hp
            rw [pull_of_not_held hheld] at hfinal
            rw [Lexer.tokens_of_final hfinal] at htokens
            simp only [hend]
            rw [pull_of_not_held hheld] at hend
            exact ⟨d, q.lexer.next.1, hd, rfl, hend, htokens⟩
          · have hnone := not_viable_after hd q.pull.1
            by_cases hfault : q.pull.1.kind = .fault
            · simp only [hfault]
              exact ⟨d.yield, us, hus, hviable, hnone, fun h => absurd h hend,
                .inl ⟨by simp [SyntaxError.atToken, SyntaxFault.IsAt, hfault], rfl⟩, hafter⟩
            · have : LocatedFrom p.lexer .expression
                  (.atToken (.trailingToken q.pull.1.kind) q.pull.1) q.pull.2 :=
                ⟨d.yield, us, hus, hviable, hnone, fun h => absurd h hend,
                  .inl ⟨by simp [SyntaxError.atToken, SyntaxFault.IsAt], rfl⟩, hafter⟩
              cases hk : q.pull.1.kind <;> simp_all

theorem outcome_expressions (hp : p.held = false) (fuel : Nat) (ds : List Derivation)
    (hds : ValidAll ds) (q : Parser) (hq : p.Reads (yieldAll ds) q) (hfuel : q.ahead < fuel) :
    match expressions fuel q with
    | (.ok xs, _) => ∃ es eof, ValidAll es ∧ treeAll es = xs ∧ eof.kind = .endOfInput ∧
        p.lexer.tokens = yieldAll (ds ++ es) ++ [eof]
    | (.error e, r) => LocatedFrom p.lexer .expressions e r := by
  induction fuel generalizing ds q with
  | zero => omega
  | succ fuel ih =>
      obtain ⟨hheld, htokens, -⟩ := hq.tokens_eq hp
      have hpull := pull_hold_pull q
      rw [expressions]
      by_cases hend : q.pull.1.kind = .endOfInput
      · have hfinal : q.pull.1.isFinal = true := by simp [Token.isFinal, hend]
        simp only [atEnd, hend, beq_self_eq_true, if_true]
        rw [pull_of_not_held hheld] at hfinal hend
        rw [Lexer.tokens_of_final hfinal] at htokens
        exact ⟨[], q.lexer.next.1, trivial, rfl, hend, by simpa using htokens⟩
      · have hne : (q.pull.1.kind == TokenKind.endOfInput) = false := by simpa using hend
        simp only [atEnd, hne, Bool.false_eq_true, if_false]
        have hx := outcome_parseExpr q.pull.2.hold
        cases hrule : parseExpr q.pull.2.hold with
        | mk result q' =>
            rw [hrule] at hx
            cases result with
            | error e =>
                rw [andThen_error hrule]
                obtain ⟨ts, r, hts, hstop, hlexer, hs, hm⟩ := Fails.of_pull_eq hx hpull.symm
                obtain ⟨us, hus, hafter⟩ := (hq.trans hts).tokens_eq_append_pull hp
                refine ⟨yieldAll ds ++ ts, us, hstop ▸ hus, viable_expressions hds hs.1, ?_, ?_,
                  hm.append_left _, hlexer.trans hafter⟩
                · rw [List.append_assoc]
                  exact not_viable_expressions hds hs
                · intro hk
                  refine not_expressions hds hs ?_
                  rintro rfl
                  cases hts with
                  | nil => exact hend (hstop ▸ hk)
            | ok x =>
                obtain ⟨d, hd, rfl, hq'⟩ := hx
                obtain ⟨t, ts, hyield, -⟩ := exists_yield_eq_cons hd
                have hread : q.Reads d.yield q' := hq'.of_pull_eq hpull.symm (by simp [hyield])
                have hle := hread.ahead_add_length_le
                rw [hyield, List.length_cons] at hle
                rw [andThen_ok hrule]
                have hxs := ih (ds ++ [d]) (validAll_append.mpr ⟨hds, hd, trivial⟩) q'
                  (by simpa [yieldAll_append, yieldAll] using hq.trans hread) (by omega)
                cases hrest : expressions fuel q' with
                | mk result r =>
                    rw [hrest] at hxs
                    cases result with
                    | error e =>
                        rw [andThen_error hrest]
                        exact hxs
                    | ok xs =>
                        obtain ⟨es, eof, hes, rfl, heof, htokens⟩ := hxs
                        rw [andThen_ok hrest]
                        exact ⟨d :: es, eof, ⟨hd, hes⟩, rfl, heof, by simpa using htokens⟩

end Text

end Parser

end HostedLisp
