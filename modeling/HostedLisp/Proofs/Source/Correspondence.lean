import HostedLisp.Proofs.Source.Recognition
import Mathlib.Data.List.Forall2
import Mathlib.Data.Option.Basic

namespace HostedLisp

/-- Whether two tokens read alike: they are of one kind and, unless they are parentheses or faults,
they have one text. -/
def Token.ReadsAs (t u : Token) : Prop :=
  u.kind = t.kind ∧
    (t.kind ≠ .parenOpen → t.kind ≠ .parenClose → t.kind ≠ .fault → u.text = t.text)

theorem Token.ReadsAs.refl (t : Token) : t.ReadsAs t := ⟨rfl, fun _ _ _ => rfl⟩

/-- Whether the tokens of two spans are in a relation. -/
def Span.Matches (R : Token → Token → Prop) (s s' : Span) : Prop :=
  Option.Rel R s.start s'.start ∧ Option.Rel R s.stop s'.stop

namespace Node

mutual

/-- Whether two nodes have one form and the same contents, and the tokens that they were read from
are in a relation. -/
def Matches (R : Token → Token → Prop) : Node → Node → Prop
  | error message span, error message' span' => message = message' ∧ span.Matches R span'
  | quote inner span, quote inner' span' => Matches R inner inner' ∧ span.Matches R span'
  | invocation head parameters span, invocation head' parameters' span' =>
      Matches R head head' ∧ AllMatch R parameters parameters' ∧ span.Matches R span'
  | list items span, list items' span' => AllMatch R items items' ∧ span.Matches R span'
  | identifier name span, identifier name' span' => name = name' ∧ span.Matches R span'
  | instanceMember member span, instanceMember member' span' =>
      member = member' ∧ span.Matches R span'
  | staticMember path member span, staticMember path' member' span' =>
      path = path' ∧ member = member' ∧ span.Matches R span'
  | literal value span, literal value' span' => value = value' ∧ span.Matches R span'
  | _, _ => False

/-- Whether the nodes of two lists match one by one. -/
def AllMatch (R : Token → Token → Prop) : List Node → List Node → Prop
  | [], [] => True
  | x :: xs, y :: ys => Matches R x y ∧ AllMatch R xs ys
  | _, _ => False

end

variable {R : Token → Token → Prop}

theorem Matches.span_matches {x y : Node} (h : x.Matches R y) : x.span.Matches R y.span := by
  cases x <;> cases y <;> simp only [Matches] at h
  · exact h.2
  · exact h.2
  · exact h.2.2
  · exact h.2
  · exact h.2
  · exact h.2
  · exact h.2.2
  · exact h.2

mutual

theorem Matches.same_congr : (x : Node) → {y : Node} → x.Matches R y → (z : Node) →
    z.same y = z.same x
  | error .., y, h, z => by
      cases y <;> simp only [Matches] at h
      obtain ⟨rfl, -⟩ := h
      cases z <;> rfl
  | quote inner _, y, h, z => by
      cases y <;> simp only [Matches] at h
      cases z with
      | quote => exact Matches.same_congr inner h.1 _
      | _ => rfl
  | invocation head parameters _, y, h, z => by
      cases y <;> simp only [Matches] at h
      cases z with
      | invocation =>
          rw [same, same, Matches.same_congr head h.1, AllMatch.sameAll_congr parameters h.2.1]
      | _ => rfl
  | list items _, y, h, z => by
      cases y <;> simp only [Matches] at h
      cases z with
      | list => exact AllMatch.sameAll_congr items h.1 _
      | _ => rfl
  | identifier .., y, h, z => by
      cases y <;> simp only [Matches] at h
      obtain ⟨rfl, -⟩ := h
      cases z <;> rfl
  | instanceMember .., y, h, z => by
      cases y <;> simp only [Matches] at h
      obtain ⟨rfl, -⟩ := h
      cases z <;> rfl
  | staticMember .., y, h, z => by
      cases y <;> simp only [Matches] at h
      obtain ⟨rfl, rfl, -⟩ := h
      cases z <;> rfl
  | literal .., y, h, z => by
      cases y <;> simp only [Matches] at h
      obtain ⟨rfl, -⟩ := h
      cases z <;> rfl
termination_by structural x => x

theorem AllMatch.sameAll_congr : (xs : List Node) → {ys : List Node} → AllMatch R xs ys →
    (zs : List Node) → sameAll zs ys = sameAll zs xs
  | [], ys, h, zs => by
      cases ys <;> simp only [AllMatch] at h
      rfl
  | x :: xs, ys, h, zs => by
      cases ys <;> simp only [AllMatch] at h
      cases zs with
      | nil => rfl
      | cons z zs => rw [sameAll, sameAll, Matches.same_congr x h.1, AllMatch.sameAll_congr xs h.2]
termination_by structural xs => xs

end

end Node

/-- Whether two errors are at tokens that are in a relation, and are one fault unless the tokens are
faults of different texts. -/
def SyntaxError.Matches (R : Token → Token → Prop) (e e' : SyntaxError) : Prop :=
  ((e.stop.kind = .fault → e'.stop.text = e.stop.text) → e'.fault = e.fault) ∧
    R e.start e'.start ∧ R e.stop e'.stop

/-- How the tokens of two texts correspond. Tokens that are in the relation read alike. After a
token that is open, which is the last one of the first text, the second text may go on as it
likes. -/
structure Correspondence where
  Rel : Token → Token → Prop
  Open : Token → Prop
  readsAs : ∀ {t u}, Rel t u → t.ReadsAs u
  isFinal_of_open : ∀ {t}, Open t → t.isFinal = true

/-- The correspondence of tokens that read alike in which no token is open. -/
def Correspondence.closed (Rel : Token → Token → Prop)
    (readsAs : ∀ {t u}, Rel t u → t.ReadsAs u) : Correspondence where
  Rel := Rel
  Open _ := False
  readsAs := readsAs
  isFinal_of_open := False.elim

namespace Parser

/-- The tokens that a parser is to read next, up to the last one. -/
def upcoming (p : Parser) : List Token :=
  p.pull.1 :: if p.pull.1.isFinal then [] else p.pull.2.lexer.tokens

variable {p q : Parser}

theorem upcoming_congr (h : p.pull = q.pull) : p.upcoming = q.upcoming := by
  rw [upcoming, upcoming, h]

theorem upcoming_of_not_held (h : p.held = false) : p.upcoming = p.lexer.tokens := by
  rw [upcoming, pull_of_not_held h]
  cases hfinal : p.lexer.next.1.isFinal with
  | true => exact (Lexer.tokens_of_final hfinal).symm
  | false => exact (Lexer.tokens_of_not_final hfinal).symm

theorem accept_eq_ok {t : Token} (h : accept p = (.ok t, q)) :
    p.pull.1.isFinal = false ∧ t = p.pull.1 ∧ q = p.pull.2 := by
  cases hfinal : p.pull.1.isFinal with
  | true =>
      obtain ⟨fault, -, hfault⟩ := accept_of_final hfinal
      rw [hfault] at h
      cases h
  | false =>
      rw [accept_of_not_final hfinal] at h
      obtain ⟨ht, rfl⟩ := Prod.mk.inj h
      exact ⟨rfl, (Except.ok.inj ht).symm, rfl⟩

theorem ahead_of_head {fuel : Nat} {x : Node} (ho : p.pull.1.kind = .parenOpen)
    (hfuel : p.pull.2.ahead ≤ fuel) (h : head fuel p.pull.2 = (.ok x, q)) : q.ahead < p.ahead := by
  have hread : p.Reads [p.pull.1] p.pull.2 := .single (by simp [Token.isFinal, ho])
  have houtcome := headOutcome_head ho fuel p.pull.2 hread hfuel
  rw [h] at houtcome
  obtain ⟨hd, r, -, -, hr, -, hahead, -⟩ := houtcome
  have := hr.ahead_add_length_le
  rw [List.length_cons] at this
  omega

theorem ahead_of_expression {fuel : Nat} {x : Node} (hfuel : 2 * p.ahead < fuel)
    (h : expression fuel p = (.ok x, q)) : q.ahead < p.ahead := by
  have houtcome := outcome_expression fuel p hfuel
  rw [h] at houtcome
  obtain ⟨d, hd, -, hread⟩ := houtcome
  obtain ⟨t, ts, hyield, -⟩ := Derivation.exists_yield_eq_cons hd
  have := hread.ahead_add_length_le
  rw [hyield, List.length_cons] at this
  omega

theorem parseExpr_of_final (h : p.pull.1.isFinal = true) :
    ∃ fault, parseExpr p = (.error (.atToken fault p.pull.1), p.pull.2) := by
  obtain ⟨fault, -, haccept⟩ := accept_of_final h
  exact ⟨fault, by rw [parseExpr, budget, expression, andThen_error haccept]⟩

theorem two_mul_ahead_lt_budget (p : Parser) : 2 * p.ahead < p.budget := by
  unfold budget ahead
  split <;> omega

theorem ahead_of_parseExpr {x : Node} (h : parseExpr p.pull.2.hold = (.ok x, q)) :
    q.ahead < p.ahead := by
  have hlt := ahead_of_expression p.pull.2.hold.two_mul_ahead_lt_budget h
  cases hfinal : p.pull.1.isFinal with
  | true =>
      obtain ⟨fault, hfault⟩ := parseExpr_of_final (p := p.pull.2.hold)
        (by rw [pull_hold_pull p, hfinal])
      rw [hfault] at h
      cases h
  | false =>
      have hle := ahead_hold_pull_le hfinal
      omega

end Parser

namespace Correspondence

open HostedLisp.Parser

variable (κ : Correspondence)

/-- Whether the tokens of two texts correspond up to an open one. -/
inductive Streams : List Token → List Token → Prop
  | nil : Streams [] []
  | cons {t u : Token} {ts us : List Token} (h : κ.Rel t u) (hs : Streams ts us) :
      Streams (t :: ts) (u :: us)
  | cut {t : Token} (ts us : List Token) (h : κ.Open t) : Streams (t :: ts) us

/-- Whether the tokens that two parsers are to read correspond, and the tokens that they have read
last. -/
structure Parsers (p p' : Parser) : Prop where
  upcoming : κ.Streams p.upcoming p'.upcoming
  current : Option.Rel κ.Rel p.current p'.current

/-- Whether what a step answers for one text corresponds to what it answers for the other one. -/
def Answers {α : Type} (V : α → α → Prop) :
    Except SyntaxError α × Parser → Except SyntaxError α × Parser → Prop
  | (.ok x, q), r => ∃ x' q', r = (.ok x', q') ∧ V x x' ∧ κ.Parsers q q'
  | (.error e, _), r => κ.Open e.stop ∨ ∃ e', r.1 = .error e' ∧ e.Matches κ.Rel e'

/-- Whether what one text is read as corresponds to what the other one is read as. -/
def Results {α : Type} (V : α → α → Prop) : Except SyntaxError α → Except SyntaxError α → Prop
  | .ok x, r => ∃ x', r = .ok x' ∧ V x x'
  | .error e, r => ∃ e', r = .error e' ∧ e.Matches κ.Rel e'

variable {κ} {p p' : Parser}

theorem Parsers.pull (h : κ.Parsers p p') :
    κ.Open p.pull.1 ∨
      κ.Rel p.pull.1 p'.pull.1 ∧ (p.pull.1.isFinal = false → κ.Parsers p.pull.2 p'.pull.2) := by
  have hstreams := h.upcoming
  have hcurrent : κ.Rel p.pull.1 p'.pull.1 →
      Option.Rel κ.Rel p.pull.2.current p'.pull.2.current := by
    intro hrel
    rw [pull_snd p, pull_snd p']
    exact .some hrel
  rw [Parser.upcoming, Parser.upcoming] at hstreams
  cases hstreams with
  | cut _ _ hopen => exact .inl hopen
  | cons hrel htail =>
      refine .inr ⟨hrel, fun hfinal => ⟨?_, hcurrent hrel⟩⟩
      have hfinal' : p'.pull.1.isFinal = false := by
        rw [Token.isFinal, (κ.readsAs hrel).1]
        exact hfinal
      rw [hfinal, hfinal'] at htail
      rw [upcoming_of_not_held (by rw [pull_snd]), upcoming_of_not_held (by rw [pull_snd])]
      exact htail

theorem Parsers.hold (h : κ.Parsers p p') (hrel : κ.Rel p.pull.1 p'.pull.1) :
    κ.Parsers p.pull.2.hold p'.pull.2.hold := by
  refine ⟨?_, ?_⟩
  · rw [upcoming_congr (pull_hold_pull p), upcoming_congr (pull_hold_pull p')]
    exact h.upcoming
  · rw [pull_snd p, pull_snd p']
    exact .some hrel

section Steps

variable {α β : Type} {V : α → α → Prop} {W : β → β → Prop}

theorem answers_error {e e' : SyntaxError} (h : e.Matches κ.Rel e') (q q' : Parser) :
    κ.Answers V (.error e, q) (.error e', q') :=
  .inr ⟨e', rfl, h⟩

theorem answers_ok {x x' : α} {q q' : Parser} (hx : V x x') (hq : κ.Parsers q q') :
    κ.Answers V (.ok x, q) (.ok x', q') :=
  ⟨x', q', rfl, hx, hq⟩

theorem matches_atToken {t u : Token} {fault fault' : SyntaxFault} (h : κ.Rel t u)
    (hfault : (t.kind = .fault → u.text = t.text) → fault' = fault) :
    (SyntaxError.atToken fault t).Matches κ.Rel (.atToken fault' u) :=
  ⟨hfault, h, h⟩

theorem answers_andThen {first first' : Step α} {second second' : α → Step β}
    (h : κ.Answers V (first p) (first' p'))
    (hsecond : ∀ x x' q q', first p = (.ok x, q) → first' p' = (.ok x', q') → V x x' →
      κ.Parsers q q' → κ.Answers W (second x q) (second' x' q')) :
    κ.Answers W (first.andThen second p) (first'.andThen second' p') := by
  cases hfirst : first p with
  | mk result q =>
      rw [hfirst] at h
      cases result with
      | ok x =>
          obtain ⟨x', q', hfirst', hx, hq⟩ := h
          rw [andThen_ok hfirst, andThen_ok hfirst']
          exact hsecond x x' q q' hfirst hfirst' hx hq
      | error e =>
          rw [andThen_error hfirst]
          obtain hopen | ⟨e', he', hmatches⟩ := h
          · exact .inl hopen
          · rw [andThen_error (Prod.ext he' rfl : first' p' = (.error e', (first' p').2))]
            exact .inr ⟨e', rfl, hmatches⟩

theorem answers_accept (h : κ.Parsers p p') : κ.Answers κ.Rel (accept p) (accept p') := by
  obtain hopen | ⟨hrel, hrest⟩ := h.pull
  · obtain ⟨fault, -, haccept⟩ := accept_of_final (κ.isFinal_of_open hopen)
    rw [haccept]
    exact .inl hopen
  · have hkind := (κ.readsAs hrel).1
    cases hfinal : p.pull.1.isFinal with
    | false =>
        have hfinal' : p'.pull.1.isFinal = false := by
          rw [Token.isFinal, hkind]
          exact hfinal
        rw [accept_of_not_final hfinal, accept_of_not_final hfinal']
        exact answers_ok hrel (hrest hfinal)
    | true =>
        have hcases : p.pull.1.kind = .endOfInput ∨ p.pull.1.kind = .fault := by
          simpa [Token.isFinal] using hfinal
        rcases hcases with hk | hk
        · simp only [accept, hk, hkind.trans hk]
          exact answers_error (matches_atToken hrel fun _ => rfl) _ _
        · simp only [accept, hk, hkind.trans hk]
          refine answers_error (matches_atToken hrel fun htext => ?_) _ _
          rw [Token.textOrEmpty, Token.textOrEmpty, htext hk]

theorem answers_expect (h : κ.Parsers p p') (kind : TokenKind) :
    κ.Answers κ.Rel (expect kind p) (expect kind p') := by
  refine answers_andThen (answers_accept h) ?_
  intro t t' q q' _ _ hrel hq
  have hkind := (κ.readsAs hrel).1
  by_cases hk : t.kind = kind
  · rw [if_pos hk, if_pos (hkind.trans hk)]
    exact answers_ok hrel hq
  · rw [if_neg hk, if_neg (by rwa [hkind]), hkind]
    exact answers_error (matches_atToken hrel fun _ => rfl) _ _

end Steps

section Rules

theorem rel_text {t u : Token} (h : κ.Rel t u) (hkind : t.kind = .identifier) :
    u.textOrEmpty = t.textOrEmpty := by
  have := (κ.readsAs h).2 (by simp [hkind]) (by simp [hkind]) (by simp [hkind])
  rw [Token.textOrEmpty, Token.textOrEmpty, this]

theorem expect_eq_ok {kind : TokenKind} {t : Token} {q : Parser}
    (h : expect kind p = (.ok t, q)) : t.kind = kind ∧ q.ahead < p.ahead := by
  unfold expect at h
  cases haccept : accept p with
  | mk result r =>
      cases result with
      | error e =>
          rw [andThen_error haccept] at h
          cases h
      | ok u =>
          obtain ⟨hfinal, rfl, rfl⟩ := accept_eq_ok haccept
          rw [andThen_ok haccept] at h
          split at h
          · rename_i hk
            obtain ⟨ht, rfl⟩ := Prod.mk.inj h
            exact ⟨Except.ok.inj ht ▸ hk, ahead_pull_lt hfinal⟩
          · cases h

theorem span_matches_ofToken {t u : Token} (h : κ.Rel t u) :
    (Span.ofToken t).Matches κ.Rel (.ofToken u) :=
  ⟨.some h, .some h⟩

theorem numeral_eq_of_rel {t u : Token} (h : κ.Rel t u) : numeral u = numeral t := by
  obtain ⟨hkind, htext⟩ := κ.readsAs h
  cases hk : t.kind <;> simp_all [numeral, Token.textOrEmpty]

theorem answers_atom {t u : Token} (h : κ.Rel t u) {q q' : Parser} (hq : κ.Parsers q q') :
    κ.Answers (Node.Matches κ.Rel) (atom t, q) (atom u, q') := by
  obtain ⟨hkind, htext⟩ := κ.readsAs h
  have hspan := span_matches_ofToken h
  have hnumeral := numeral_eq_of_rel h
  cases hk : t.kind with
  | identifier | string | boolean | null =>
      have htext' : u.textOrEmpty = t.textOrEmpty := by
        rw [Token.textOrEmpty, Token.textOrEmpty, htext] <;> simp [hk]
      simp only [atom, hk, hkind.trans hk, htext']
      exact answers_ok ⟨rfl, hspan⟩ hq
  | _ =>
      simp only [atom, hk, hkind.trans hk, hnumeral]
      cases numeral t with
      | ok value => exact answers_ok ⟨rfl, hspan⟩ hq
      | error fault => exact answers_error (matches_atToken h fun _ => rfl) _ _

theorem answers_headRest {start start' : Token} (hstart : κ.Rel start start') (fuel fuel' : Nat)
    (q q' : Parser) (segments : List String) (hq : κ.Parsers q q') (hfuel : q.ahead < fuel)
    (hfuel' : q'.ahead < fuel') :
    κ.Answers (Node.Matches κ.Rel) (headRest start fuel segments q)
      (headRest start' fuel' segments q') := by
  induction fuel generalizing fuel' q q' segments with
  | zero => omega
  | succ fuel ih =>
  cases fuel' with
  | zero => omega
  | succ fuel' =>
  rw [headRest, headRest]
  refine answers_andThen (answers_accept hq) ?_
  intro t t' r r' haccept haccept' hrel hr
  obtain ⟨hfinal, rfl, rfl⟩ := accept_eq_ok haccept
  obtain ⟨hfinal', rfl, rfl⟩ := accept_eq_ok haccept'
  have hkind := (κ.readsAs hrel).1
  have hlt := ahead_pull_lt hfinal
  have hlt' := ahead_pull_lt hfinal'
  by_cases hdot : q.pull.1.kind = .dot
  · simp only [hdot, hkind.trans hdot]
    refine answers_andThen (answers_expect hr .identifier) ?_
    intro name name' s s' hname hname' hnames hs
    rw [rel_text hnames (expect_eq_ok hname).1]
    have := (expect_eq_ok hname).2
    have := (expect_eq_ok hname').2
    exact ih fuel' s s' _ hs (by omega) (by omega)
  by_cases hslash : q.pull.1.kind = .slash
  · simp only [hslash, hkind.trans hslash]
    refine answers_andThen (answers_expect hr .identifier) ?_
    intro member member' s s' hmember _ hmembers hs
    rw [rel_text hmembers (expect_eq_ok hmember).1]
    exact answers_ok ⟨rfl, rfl, .some hstart, .some hmembers⟩ hs
  -- The token after the path is held back, and the path is a name or one with too many segments.
  have hname (name : String) : κ.Answers (Node.Matches κ.Rel)
      (.ok (.identifier name (.ofToken start)), q.pull.2.hold)
      (.ok (.identifier name (.ofToken start')), q'.pull.2.hold) :=
    answers_ok ⟨rfl, span_matches_ofToken hstart⟩ (hq.hold hrel)
  have hdotted : κ.Answers (Node.Matches κ.Rel)
      (.error ⟨.dottedName, start, q.pull.1⟩, q.pull.2.hold)
      (.error ⟨.dottedName, start', q'.pull.1⟩, q'.pull.2.hold) :=
    .inr ⟨_, rfl, fun _ => rfl, hstart, hrel⟩
  rcases segments with - | ⟨name, - | ⟨name', more⟩⟩ <;>
    cases hk : q.pull.1.kind <;> simp_all

theorem answers_head (fuel fuel' : Nat) (hp : κ.Parsers p p') (hfuel : p.ahead ≤ fuel)
    (hfuel' : p'.ahead ≤ fuel') :
    κ.Answers (Node.Matches κ.Rel) (head fuel p) (head fuel' p') := by
  rw [head, head]
  refine answers_andThen (answers_accept hp) ?_
  intro t t' q q' haccept haccept' hrel hq
  obtain ⟨hfinal, rfl, rfl⟩ := accept_eq_ok haccept
  obtain ⟨hfinal', rfl, rfl⟩ := accept_eq_ok haccept'
  have hkind := (κ.readsAs hrel).1
  have hlt := ahead_pull_lt hfinal
  have hlt' := ahead_pull_lt hfinal'
  by_cases hdot : p.pull.1.kind = .dot
  · simp only [hdot, hkind.trans hdot]
    refine answers_andThen (answers_expect hq .identifier) ?_
    intro name name' s s' hname _ hnames hs
    rw [rel_text hnames (expect_eq_ok hname).1]
    exact answers_ok ⟨rfl, .some hrel, .some hnames⟩ hs
  by_cases hname : p.pull.1.kind = .identifier
  · simp only [hname, hkind.trans hname]
    rw [rel_text hrel hname]
    exact answers_headRest hrel fuel fuel' _ _ _ hq (by omega) (by omega)
  have : κ.Answers (Node.Matches κ.Rel)
      (.error (.atToken (.unexpectedTokenExpecting p.pull.1.kind .identifier) p.pull.1), p.pull.2)
      (.error (.atToken (.unexpectedTokenExpecting p'.pull.1.kind .identifier) p'.pull.1),
        p'.pull.2) :=
    answers_error (matches_atToken hrel fun _ => by rw [hkind]) _ _
  cases hk : p.pull.1.kind <;> simp_all

mutual

-- Each of the two parsers has its own fuel, which is enough for the tokens that it can still read.
theorem answers_expression : (fuel fuel' : Nat) → (p p' : Parser) → κ.Parsers p p' →
    2 * p.ahead < fuel → 2 * p'.ahead < fuel' →
    κ.Answers (Node.Matches κ.Rel) (expression fuel p) (expression fuel' p')
  | 0, _, p, p', _, hfuel, _ => by omega
  | _ + 1, 0, p, p', _, _, hfuel' => by omega
  | fuel + 1, fuel' + 1, p, p', hp, hfuel, hfuel' => by
      rw [expression, expression]
      refine answers_andThen (answers_accept hp) ?_
      intro t t' q q' haccept haccept' hrel hq
      obtain ⟨hfinal, rfl, rfl⟩ := accept_eq_ok haccept
      obtain ⟨hfinal', rfl, rfl⟩ := accept_eq_ok haccept'
      have hkind := (κ.readsAs hrel).1
      have hlt := ahead_pull_lt hfinal
      have hlt' := ahead_pull_lt hfinal'
      by_cases hparen : p.pull.1.kind = .parenOpen
      · have hparen' := hkind.trans hparen
        simp only [hparen, hparen']
        refine answers_andThen (answers_head fuel fuel' hq (by omega) (by omega)) ?_
        intro x x' r r' hx hx' hxs hr
        have := ahead_of_head hparen (by omega) hx
        have := ahead_of_head hparen' (by omega) hx'
        refine answers_andThen
          (answers_expressionsUntil .parenClose fuel fuel' r r' hr (by omega) (by omega)) ?_
        intro ps ps' s s' _ _ hps hs
        exact answers_ok ⟨hxs, hps, .some hrel, hs.current⟩ hs
      by_cases hbracket : p.pull.1.kind = .bracketOpen
      · simp only [hbracket, hkind.trans hbracket]
        refine answers_andThen (answers_expressionsUntil .bracketClose fuel fuel' _ _ hq (by omega)
          (by omega)) ?_
        intro xs xs' s s' _ _ hxs hs
        exact answers_ok ⟨hxs, .some hrel, hs.current⟩ hs
      by_cases hmark : p.pull.1.kind = .quote
      · simp only [hmark, hkind.trans hmark]
        refine answers_andThen (answers_expression fuel fuel' _ _ hq (by omega) (by omega)) ?_
        intro x x' s s' _ _ hx hs
        exact answers_ok ⟨hx, .some hrel, hx.span_matches.2⟩ hs
      have := answers_atom hrel hq
      cases hk : p.pull.1.kind <;> simp_all

theorem answers_expressionsUntil (closer : TokenKind) : (fuel fuel' : Nat) → (p p' : Parser) →
    κ.Parsers p p' → 2 * p.ahead + 1 < fuel → 2 * p'.ahead + 1 < fuel' →
    κ.Answers (Node.AllMatch κ.Rel) (expressionsUntil closer fuel p)
      (expressionsUntil closer fuel' p')
  | 0, _, p, p', _, hfuel, _ => by omega
  | _ + 1, 0, p, p', _, _, hfuel' => by omega
  | fuel + 1, fuel' + 1, p, p', hp, hfuel, hfuel' => by
      rw [expressionsUntil, expressionsUntil]
      refine answers_andThen (answers_accept hp) ?_
      intro t t' q q' haccept haccept' hrel hq
      obtain ⟨hfinal, rfl, rfl⟩ := accept_eq_ok haccept
      obtain ⟨hfinal', rfl, rfl⟩ := accept_eq_ok haccept'
      have hkind := (κ.readsAs hrel).1
      by_cases hclose : p.pull.1.kind = closer
      · rw [if_pos hclose, if_pos (hkind.trans hclose)]
        exact answers_ok trivial hq
      rw [if_neg hclose, if_neg (by rwa [hkind])]
      have hle := ahead_hold_pull_le hfinal
      have hle' := ahead_hold_pull_le hfinal'
      refine answers_andThen
        (answers_expression fuel fuel' _ _ (hp.hold hrel) (by omega) (by omega)) ?_
      intro x x' r r' hx hx' hxs hr
      have := ahead_of_expression (by omega) hx
      have := ahead_of_expression (by omega) hx'
      refine answers_andThen
        (answers_expressionsUntil closer fuel fuel' r r' hr (by omega) (by omega)) ?_
      intro xs xs' s s' _ _ hall hs
      exact answers_ok ⟨hxs, hall⟩ hs

end

theorem answers_parseExpr (hp : κ.Parsers p p') :
    κ.Answers (Node.Matches κ.Rel) (parseExpr p) (parseExpr p') :=
  answers_expression _ _ p p' hp p.two_mul_ahead_lt_budget p'.two_mul_ahead_lt_budget

end Rules

section Texts

theorem results_whole (hclosed : ∀ t, ¬ κ.Open t) (hp : κ.Parsers p p') :
    κ.Results (Node.Matches κ.Rel) (whole p).1 (whole p').1 := by
  have hx := answers_parseExpr hp
  unfold whole
  cases hrule : parseExpr p with
  | mk result q =>
      rw [hrule] at hx
      cases result with
      | error e =>
          obtain hopen | ⟨e', he', hmatches⟩ := hx
          · exact absurd hopen (hclosed _)
          rw [andThen_error hrule, andThen_error (Prod.ext he' rfl : parseExpr p' = (.error e', _))]
          exact ⟨e', rfl, hmatches⟩
      | ok x =>
          obtain ⟨x', q', hrule', hmatches, hq⟩ := hx
          rw [andThen_ok hrule, andThen_ok hrule']
          obtain hopen | ⟨hrel, -⟩ := hq.pull
          · exact absurd hopen (hclosed _)
          have hkind := (κ.readsAs hrel).1
          by_cases hend : q.pull.1.kind = .endOfInput
          · simp only [hend, hkind.trans hend]
            exact ⟨x', rfl, hmatches⟩
          by_cases hfault : q.pull.1.kind = .fault
          · simp only [hfault, hkind.trans hfault]
            refine ⟨_, rfl, matches_atToken hrel fun htext => ?_⟩
            rw [Token.textOrEmpty, Token.textOrEmpty, htext hfault]
          have htrailing : κ.Results (Node.Matches κ.Rel)
              (.error (.atToken (.trailingToken q.pull.1.kind) q.pull.1))
              (.error (.atToken (.trailingToken q'.pull.1.kind) q'.pull.1)) :=
            ⟨_, rfl, matches_atToken hrel fun _ => by rw [hkind]⟩
          cases hk : q.pull.1.kind with
          | endOfInput => exact absurd hk hend
          | fault => exact absurd hk hfault
          | _ => simpa only [hk, hkind.trans hk] using htrailing

/-- What fails to be read as a sequence of expressions, with the fault at no open token, fails in a
text whose tokens correspond. -/
theorem expressions_of_parsers (fuel fuel' : Nat) (hp : κ.Parsers p p') (hfuel : p.ahead < fuel)
    (hfuel' : p'.ahead < fuel') {e : SyntaxError} (he : (expressions fuel p).1 = .error e)
    (hclosed : ¬ κ.Open e.stop) :
    ∃ e', (expressions fuel' p').1 = .error e' ∧ e.Matches κ.Rel e' := by
  induction fuel generalizing fuel' p p' with
  | zero => omega
  | succ fuel ih =>
  cases fuel' with
  | zero => omega
  | succ fuel' =>
  rw [expressions] at he ⊢
  by_cases hend : p.pull.1.kind = .endOfInput
  · simp only [atEnd, hend, beq_self_eq_true, if_true] at he
    cases he
  have hne : (p.pull.1.kind == TokenKind.endOfInput) = false := by simpa using hend
  simp only [atEnd, hne, Bool.false_eq_true, if_false] at he
  have hpull := pull_hold_pull p
  obtain hopen | ⟨hrel, -⟩ := hp.pull
  · obtain ⟨fault, hrule⟩ := parseExpr_of_final (p := p.pull.2.hold)
      (by rw [hpull]; exact κ.isFinal_of_open hopen)
    rw [andThen_error hrule, hpull] at he
    obtain rfl := Except.error.inj he
    exact absurd hopen hclosed
  have hne' : (p'.pull.1.kind == TokenKind.endOfInput) = false := by
    rw [(κ.readsAs hrel).1]
    exact hne
  simp only [atEnd, hne', Bool.false_eq_true, if_false]
  have hx := answers_parseExpr (hp.hold hrel)
  cases hrule : parseExpr p.pull.2.hold with
  | mk result q =>
      rw [hrule] at hx
      cases result with
      | error e₁ =>
          rw [andThen_error hrule] at he
          obtain rfl := Except.error.inj he
          obtain hopen | ⟨e', he', hmatches⟩ := hx
          · exact absurd hopen hclosed
          rw [andThen_error (Prod.ext he' rfl : parseExpr p'.pull.2.hold = (.error e', _))]
          exact ⟨e', rfl, hmatches⟩
      | ok x =>
          obtain ⟨x', q', hrule', -, hq⟩ := hx
          rw [andThen_ok hrule] at he
          rw [andThen_ok hrule']
          have hlt := ahead_of_parseExpr hrule
          have hlt' := ahead_of_parseExpr hrule'
          cases hrest : expressions fuel q with
          | mk result r =>
              cases result with
              | ok xs =>
                  rw [andThen_ok hrest] at he
                  cases he
              | error e₁ =>
                  rw [andThen_error hrest] at he
                  obtain rfl := Except.error.inj he
                  obtain ⟨e', he', hmatches⟩ := ih fuel' hq (by omega) (by omega)
                    (congrArg Prod.fst hrest)
                  rw [andThen_error (Prod.ext he' rfl : expressions fuel' q' = (.error e', _))]
                  exact ⟨e', rfl, hmatches⟩

variable {source source' : String}

theorem streams_of_forall₂ {ts us : List Token} (h : List.Forall₂ κ.Rel ts us) :
    κ.Streams ts us := by
  induction h with
  | nil => exact .nil
  | cons hrel _ ih => exact .cons hrel ih

theorem Streams.append_left (hrefl : ∀ t, κ.Rel t t) (ts : List Token) {us us' : List Token}
    (h : κ.Streams us us') : κ.Streams (ts ++ us) (ts ++ us') := by
  induction ts with
  | nil => exact h
  | cons t ts ih => exact .cons (hrefl t) ih

theorem parsers_ofText (h : κ.Streams (tokenize source) (tokenize source')) :
    κ.Parsers (ofText source) (ofText source') := by
  refine ⟨?_, .none⟩
  rw [upcoming_of_not_held rfl, upcoming_of_not_held rfl]
  exact h

theorem results_parse (hclosed : ∀ t, ¬ κ.Open t)
    (h : κ.Streams (tokenize source) (tokenize source')) :
    κ.Results (Node.Matches κ.Rel) (parse source) (parse source') :=
  results_whole hclosed (parsers_ofText h)

theorem ahead_ofText_lt (source : String) : (ofText source).ahead < source.length + 2 := by
  change source.toList.length + 0 < source.length + 2
  rw [String.length_toList]
  omega

theorem parseMany_of_streams (h : κ.Streams (tokenize source) (tokenize source'))
    {e : SyntaxError} (he : parseMany source = .error e) (hclosed : ¬ κ.Open e.stop) :
    ∃ e', parseMany source' = .error e' ∧ e.Matches κ.Rel e' :=
  expressions_of_parsers _ _ (parsers_ofText h) (ahead_ofText_lt source) (ahead_ofText_lt source')
    he hclosed

end Texts

end Correspondence

end HostedLisp
