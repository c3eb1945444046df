import HostedLisp.Proofs.Source.Correspondence
import HostedLisp.Proofs.Source.Extent

/-!
Looking ahead with a parser. Main statement: whoever asks a parser for expressions gets the same
ones, from the same tokens, however often it is asked in between whether the text has ended, and it
can be asked for more after a fault and after the end. All that looking ahead changes is that the
next token may be held already.
-/

namespace HostedLisp

theorem Lexer.after_add (lx : Lexer) (m n : Nat) : (lx.after m).after n = lx.after (m + n) := by
  induction m generalizing lx with
  | zero => rw [Nat.zero_add]; rfl
  | succ m ih => rw [Nat.succ_add]; exact ih lx.next.2

namespace Parser

section Fuel

variable {α β : Type} {p : Parser}

theorem andThen_congr {first first' : Step α} {second second' : α → Step β}
    (hfirst : first p = first' p)
    (hsecond : ∀ x q, first p = (.ok x, q) → second x q = second' x q) :
    first.andThen second p = first'.andThen second' p := by
  cases h : first p with
  | mk result q =>
      cases result with
      | ok x => rw [andThen_ok h, andThen_ok (hfirst ▸ h), hsecond x q h]
      | error e => rw [andThen_error h, andThen_error (hfirst ▸ h)]

theorem headRest_fuel (start : Token) (fuel fuel' : Nat) (segments : List String) (q : Parser)
    (hfuel : q.ahead < fuel) (hfuel' : q.ahead < fuel') :
    headRest start fuel segments q = headRest start fuel' segments q := by
  induction fuel generalizing fuel' segments q with
  | zero => omega
  | succ fuel ih =>
  cases fuel' with
  | zero => omega
  | succ fuel' =>
  rw [headRest, headRest]
  refine andThen_congr rfl ?_
  intro t r haccept
  obtain ⟨hfinal, rfl, rfl⟩ := accept_eq_ok haccept
  have hlt := ahead_pull_lt hfinal
  by_cases hdot : q.pull.1.kind = .dot
  · simp only [hdot]
    refine andThen_congr rfl ?_
    intro name s hname
    have := (Correspondence.expect_eq_ok hname).2
    exact ih fuel' _ s (by omega) (by omega)
  · cases hk : q.pull.1.kind <;> first | exact absurd hk hdot | rfl

theorem head_fuel (fuel fuel' : Nat) (q : Parser) (hfuel : q.ahead ≤ fuel)
    (hfuel' : q.ahead ≤ fuel') : head fuel q = head fuel' q := by
  rw [head, head]
  refine andThen_congr rfl ?_
  intro t r haccept
  obtain ⟨hfinal, rfl, rfl⟩ := accept_eq_ok haccept
  have hlt := ahead_pull_lt hfinal
  by_cases hname : q.pull.1.kind = .identifier
  · simp only [hname]
    exact headRest_fuel _ fuel fuel' _ _ (by omega) (by omega)
  · cases hk : q.pull.1.kind <;> first | exact absurd hk hname | rfl

mutual

/-- Once the fuel is enough, what is read does not depend on it. -/
theorem expression_fuel : (fuel fuel' : Nat) → (p : Parser) → 2 * p.ahead < fuel →
    2 * p.ahead < fuel' → expression fuel p = expression fuel' p
  | 0, _, p, hfuel, _ => by omega
  | _ + 1, 0, p, _, hfuel' => by omega
  | fuel + 1, fuel' + 1, p, hfuel, hfuel' => by
      rw [expression, expression]
      refine andThen_congr rfl ?_
      intro t r haccept
      obtain ⟨hfinal, rfl, rfl⟩ := accept_eq_ok haccept
      have hlt := ahead_pull_lt hfinal
      by_cases hparen : p.pull.1.kind = .parenOpen
      · simp only [hparen]
        refine andThen_congr (head_fuel fuel fuel' _ (by omega) (by omega)) ?_
        intro h s hhead
        have := ahead_of_head hparen (by omega) hhead
        exact andThen_congr
          (expressionsUntil_fuel .parenClose fuel fuel' s (by omega) (by omega)) fun _ _ _ => rfl
      by_cases hbracket : p.pull.1.kind = .bracketOpen
      · simp only [hbracket]
        exact andThen_congr
          (expressionsUntil_fuel .bracketClose fuel fuel' _ (by omega) (by omega)) fun _ _ _ => rfl
      by_cases hmark : p.pull.1.kind = .quote
      · simp only [hmark]
        exact andThen_congr (expression_fuel fuel fuel' _ (by omega) (by omega)) fun _ _ _ => rfl
      cases hk : p.pull.1.kind <;>
        first | exact absurd hk hparen | exact absurd hk hbracket | exact absurd hk hmark | rfl

theorem expressionsUntil_fuel (closer : TokenKind) : (fuel fuel' : Nat) → (p : Parser) →
    2 * p.ahead + 1 < fuel → 2 * p.ahead + 1 < fuel' →
    expressionsUntil closer fuel p = expressionsUntil closer fuel' p
  | 0, _, p, hfuel, _ => by omega
  | _ + 1, 0, p, _, hfuel' => by omega
  | fuel + 1, fuel' + 1, p, hfuel, hfuel' => by
      rw [expressionsUntil, expressionsUntil]
      refine andThen_congr rfl ?_
      intro t r haccept
      obtain ⟨hfinal, rfl, rfl⟩ := accept_eq_ok haccept
      by_cases hclose : p.pull.1.kind = closer
      · rw [if_pos hclose, if_pos hclose]
      rw [if_neg hclose, if_neg hclose]
      have hle := ahead_hold_pull_le hfinal
      refine andThen_congr (expression_fuel fuel fuel' _ (by omega) (by omega)) ?_
      intro x s hx
      have := ahead_of_expression (by omega) hx
      exact andThen_congr (expressionsUntil_fuel closer fuel fuel' s (by omega) (by omega))
        fun _ _ _ => rfl

end

theorem parseExpr_congr {q : Parser} (h : p.pull = q.pull) : parseExpr p = parseExpr q := by
  have hp := p.two_mul_ahead_lt_budget
  have hq := q.two_mul_ahead_lt_budget
  have haccept : accept p = accept q := by rw [accept, accept, h]
  calc expression p.budget p
      = expression (p.budget + q.budget + 1) p := expression_fuel _ _ p hp (by omega)
    _ = expression (p.budget + q.budget + 1) q := by
      rw [expression, Step.andThen, Step.andThen, haccept]
    _ = expression q.budget q := expression_fuel _ _ q (by omega) hq

end Fuel

section Requests

/-- Whether a lexer is another one after some requests for a token. -/
def AskedFrom (lx lx' : Lexer) : Prop := ∃ n, lx' = lx.after n

variable {lx lx' lx'' : Lexer}

theorem AskedFrom.refl (lx : Lexer) : AskedFrom lx lx := ⟨0, rfl⟩

theorem AskedFrom.trans (h : AskedFrom lx lx') (h' : AskedFrom lx' lx'') : AskedFrom lx lx'' := by
  obtain ⟨m, rfl⟩ := h
  obtain ⟨n, rfl⟩ := h'
  exact ⟨m + n, Lexer.after_add lx m n⟩

theorem askedFrom_pull (p : Parser) : AskedFrom p.lexer p.pull.2.lexer := by
  obtain ⟨lx, current, held⟩ := p
  cases held with
  | false => exact ⟨1, rfl⟩
  | true =>
      cases current with
      | none => exact ⟨1, rfl⟩
      | some t => exact ⟨0, rfl⟩

theorem Reads.askedFrom {p q : Parser} {ts : List Token} (h : p.Reads ts q) :
    AskedFrom p.lexer q.lexer := by
  induction h with
  | nil p => exact .refl p.lexer
  | @cons p q ts _ _ ih => exact (askedFrom_pull p).trans ih

theorem askedFrom_parseExpr (p : Parser) : AskedFrom p.lexer p.parseExpr.2.lexer := by
  have houtcome := outcome_parseExpr p
  cases h : parseExpr p with
  | mk result q =>
      rw [h] at houtcome
      cases result with
      | ok x =>
          obtain ⟨d, -, -, hread⟩ := houtcome
          exact hread.askedFrom
      | error e =>
          obtain ⟨ts, r, hts, -, hlexer, -⟩ := houtcome
          change AskedFrom p.lexer q.lexer
          rw [hlexer]
          exact hts.askedFrom.trans (askedFrom_pull r)

end Requests

section Calls

/-- What a parser can be asked: for the next expression, or whether there is none. -/
inductive Call where
  | expression
  | atEnd
deriving DecidableEq

/-- The parser after some calls. -/
def afterCalls : List Call → Parser → Parser
  | [], p => p
  | .expression :: calls, p => afterCalls calls p.parseExpr.2
  | .atEnd :: calls, p => afterCalls calls p.atEnd.2

/-- The answers to the calls for expressions among some calls. -/
def nodesRead : List Call → Parser → List (Except SyntaxError Node)
  | [], _ => []
  | .expression :: calls, p => p.parseExpr.1 :: nodesRead calls p.parseExpr.2
  | .atEnd :: calls, p => nodesRead calls p.atEnd.2

/-- The calls for expressions among some calls. -/
def reading (calls : List Call) : List Call := calls.filter (· = .expression)

/-- Whether the parser's answer to the next call for an expression is read from the token `t` on:
the expression begins with it, or the tokens up to the fault do. -/
def StartsFrom (p : Parser) (t : Token) : Prop :=
  match p.parseExpr.1 with
  | .ok x => x.span.start = some t
  | .error e => ∃ ts r, p.Reads ts r ∧ e.stop = r.pull.1 ∧ (ts ++ [e.stop]).head? = some t

variable {p q : Parser}

theorem Reads.head?_append_pull {ts : List Token} (h : p.Reads ts q) :
    (ts ++ [q.pull.1]).head? = some p.pull.1 := by
  cases h <;> rfl

theorem startsFrom_pull (p : Parser) : p.StartsFrom p.pull.1 := by
  have houtcome := outcome_parseExpr p
  unfold StartsFrom
  cases h : parseExpr p with
  | mk result q =>
      rw [h] at houtcome
      cases result with
      | ok x =>
          obtain ⟨d, hd, rfl, hread⟩ := houtcome
          obtain ⟨first, last, hspan, hfirst, -⟩ := Derivation.spans_tree d hd
          obtain ⟨t, ts, hyield, -⟩ := Derivation.exists_yield_eq_cons hd
          have hhead := hread.head?_append_pull
          rw [hyield, List.cons_append, List.head?_cons] at hhead
          rw [hyield, List.head?_cons] at hfirst
          change d.tree.span.start = some p.pull.1
          rw [hspan, ← hhead, hfirst]
      | error e =>
          obtain ⟨ts, r, hts, hstop, -⟩ := houtcome
          exact ⟨ts, r, hts, hstop, hstop ▸ hts.head?_append_pull⟩

theorem pull_atEnd (p : Parser) : p.atEnd.2.pull = p.pull := pull_hold_pull p

theorem atEnd_atEnd (p : Parser) : p.atEnd.2.atEnd.2 = p.atEnd.2 := by
  rw [atEnd, pull_atEnd]
  rfl

/-- A parser that may have looked ahead goes on as if it had not, and after the same calls it is
again in the same state, or has looked ahead. -/
theorem looking_eq_reading (calls : List Call) (h : q = p ∨ q = p.atEnd.2) :
    nodesRead calls q = nodesRead (reading calls) p ∧
      (afterCalls calls q = afterCalls (reading calls) p ∨
        afterCalls calls q = (afterCalls (reading calls) p).atEnd.2) := by
  induction calls generalizing p q with
  | nil => exact ⟨rfl, h⟩
  | cons call calls ih =>
      cases call with
      | expression =>
          have hsame : q.parseExpr = p.parseExpr := by
            rcases h with rfl | rfl
            · rfl
            · exact parseExpr_congr (pull_atEnd p)
          obtain ⟨hnodes, hafter⟩ := ih (p := p.parseExpr.2) (.inl rfl)
          change q.parseExpr.1 :: nodesRead calls q.parseExpr.2 =
              p.parseExpr.1 :: nodesRead (reading calls) p.parseExpr.2 ∧
            (afterCalls calls q.parseExpr.2 = afterCalls (reading calls) p.parseExpr.2 ∨
              afterCalls calls q.parseExpr.2 = (afterCalls (reading calls) p.parseExpr.2).atEnd.2)
          rw [hsame, hnodes]
          exact ⟨rfl, hafter⟩
      | atEnd =>
          have hlooked : q.atEnd.2 = p ∨ q.atEnd.2 = p.atEnd.2 := by
            rcases h with rfl | rfl
            · exact .inr rfl
            · exact .inr (atEnd_atEnd p)
          exact ih hlooked

theorem askedFrom_reading (calls : List Call) (p : Parser) :
    AskedFrom p.lexer (afterCalls (reading calls) p).lexer := by
  induction calls generalizing p with
  | nil => exact .refl p.lexer
  | cons call calls ih =>
      cases call with
      | expression => exact (askedFrom_parseExpr p).trans (ih p.parseExpr.2)
      | atEnd => exact ih p

theorem atEnd_cases (p : Parser) :
    p.atEnd.2 = p ∨ p.atEnd.2 = ⟨p.lexer.next.2, some p.lexer.next.1, true⟩ := by
  obtain ⟨lx, current, held⟩ := p
  cases held with
  | false => exact .inr rfl
  | true =>
      cases current with
      | none => exact .inr rfl
      | some t => exact .inl rfl

end Calls

/-- Looking ahead is free. Among any calls of the parser of a text, after faults and after the end
too, those for expressions are answered as if they were the only ones. Asked at any time whether the
text has ended, the parser says so exactly if the token from which it would read the next expression
is the end. Its lexer has been asked for the same tokens as without looking ahead, or for one more,
and then the parser holds that one and is otherwise the same. -/
theorem looking_ahead_is_free (source : String) (calls : List Call) :
    nodesRead calls (ofText source) = nodesRead (reading calls) (ofText source) ∧
    (∃ t, (afterCalls (reading calls) (ofText source)).StartsFrom t ∧
      ((afterCalls calls (ofText source)).atEnd.1 = true ↔ t.kind = .endOfInput)) ∧
    ∃ n, (afterCalls (reading calls) (ofText source)).lexer = (Lexer.ofText source).after n ∧
      (afterCalls calls (ofText source) = afterCalls (reading calls) (ofText source) ∨
        afterCalls calls (ofText source) = ⟨(Lexer.ofText source).after (n + 1),
          some ((Lexer.ofText source).after n).next.1, true⟩) := by
  obtain ⟨hnodes, hafter⟩ := looking_eq_reading calls (p := ofText source) (.inl rfl)
  obtain ⟨n, hn⟩ : ∃ n, (afterCalls (reading calls) (ofText source)).lexer =
      (Lexer.ofText source).after n := askedFrom_reading calls (ofText source)
  refine ⟨hnodes, ⟨_, startsFrom_pull _, ?_⟩, n, hn, ?_⟩
  · have hpull : (afterCalls calls (ofText source)).pull =
        (afterCalls (reading calls) (ofText source)).pull := by
      rcases hafter with h | h
      · rw [h]
      · rw [h, pull_atEnd]
    rw [atEnd, hpull]
    exact beq_iff_eq
  · rcases hafter with h | h
    · exact .inl h
    · rw [h, Lexer.after_succ, ← hn]
      exact atEnd_cases _

end Parser

end HostedLisp
