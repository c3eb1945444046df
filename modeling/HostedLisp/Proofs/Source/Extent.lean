import HostedLisp.Proofs.Source.Concatenation
import HostedLisp.Proofs.Source.Part
import Mathlib.Data.List.Forall2

/-!
Where nodes stand in a text. Main statement: the tokens from the first to the last one of a node
that a text has been read as, or of any part of it, are those that the part is read from, and no
others: read on their own they are this part again. So the parts of a node lie inside it and behind
one another.
-/

namespace HostedLisp

open Segment Partition Derivation HeadDerivation

/-- Whether a token stands between the ends of a span, which belong to it. -/
def Span.covers (s : Span) (t : Token) : Bool :=
  s.start.any (fun first => decide (first.position ≤ t.position)) &&
    s.stop.any (fun last => decide (t.position ≤ last.position))

/-- Whether a span lies between the ends of another one. -/
def Span.Inside (s s' : Span) : Prop :=
  ∃ first last first' last', s = ⟨some first, some last⟩ ∧ s' = ⟨some first', some last'⟩ ∧
    first'.position ≤ first.position ∧ first.position ≤ last.position ∧
    last.position ≤ last'.position

/-- Whether a span ends before another one begins. -/
def Span.Before (s s' : Span) : Prop :=
  ∃ last first', s.stop = some last ∧ s'.start = some first' ∧ last.position < first'.position

/-- The tokens of a text from the first to the last one of a node. -/
def Node.tokensIn (source : String) (x : Node) : List Token :=
  (tokenize source).filter x.span.covers

/-- Whether the grammar makes a node of some tokens, as an expression or as the head of an
invocation. -/
inductive Node.ReadFrom : Node → List Token → Prop
  | expression {d : Derivation} (h : d.Valid) : ReadFrom d.tree d.yield
  | head {h : HeadDerivation} (hv : h.Valid) : ReadFrom h.tree h.yield

section Trees

/-- Whether a span reaches from the first to the last of some tokens. -/
def Span.Spans (s : Span) (ts : List Token) : Prop :=
  ∃ first last, s = ⟨some first, some last⟩ ∧ ts.head? = some first ∧ ts.getLast? = some last

theorem HeadDerivation.spans_tree (h : HeadDerivation) : h.tree.span.Spans h.yield := by
  cases h with
  | instanceMember dot name => exact ⟨dot, name, rfl, rfl, rfl⟩
  | identifier name => exact ⟨name, name, rfl, rfl, rfl⟩
  | staticMember first more slash member =>
      exact ⟨first, member, rfl, rfl, by simp [yield, List.getLast?_cons]⟩

theorem Token.span_of_atom? {t : Token} {x : Node} (h : t.atom? = some x) :
    x.span = .ofToken t ∧ x.children = [] := by
  unfold atom? at h
  split at h
  · obtain rfl := Option.some.inj h
    exact ⟨rfl, rfl⟩
  · obtain ⟨value, -, rfl⟩ := Option.map_eq_some_iff.mp h
    exact ⟨rfl, rfl⟩

theorem Derivation.spans_tree (d : Derivation) (hd : d.Valid) : d.tree.span.Spans d.yield := by
  cases d with
  | atom t =>
      obtain ⟨x, hx⟩ := hd
      rw [tree, hx, Option.getD_some, (Token.span_of_atom? hx).1]
      exact ⟨t, t, rfl, rfl, rfl⟩
  | quote mark inner =>
      obtain ⟨first, last, hspan, hhead, hlast⟩ := spans_tree inner hd.2
      refine ⟨mark, last, ?_, rfl, ?_⟩
      · rw [tree, Node.span, hspan]
      · rw [yield, List.getLast?_cons, hlast]
        rfl
  | list opening items closing =>
      exact ⟨opening, closing, rfl, rfl, by simp [yield, List.getLast?_cons]⟩
  | invocation opening head parameters closing =>
      exact ⟨opening, closing, rfl, rfl,
        by simp [yield, ← List.append_assoc, List.getLast?_cons]⟩

theorem forall₂_readFrom_treeAll (ds : List Derivation) (hds : ValidAll ds) :
    List.Forall₂ Node.ReadFrom (treeAll ds) (ds.map Derivation.yield) ∧
      (ds.map Derivation.yield).flatten = yieldAll ds := by
  induction ds with
  | nil => exact ⟨.nil, rfl⟩
  | cons d ds ih =>
      obtain ⟨hall, hflatten⟩ := ih hds.2
      refine ⟨.cons (.expression hds.1) hall, ?_⟩
      rw [List.map_cons, List.flatten_cons, hflatten]
      rfl

end Trees

theorem exists_mem_of_forall₂ {α β : Type} {R : α → β → Prop} {xs : List α} {ys : List β}
    (h : List.Forall₂ R xs ys) {x : α} (hx : x ∈ xs) : ∃ y ∈ ys, R x y := by
  induction h with
  | nil => cases hx
  | @cons x' y xs ys hxy _ ih =>
      rcases List.mem_cons.mp hx with rfl | hx
      · exact ⟨y, List.mem_cons_self, hxy⟩
      · obtain ⟨y', hy', hR⟩ := ih hx
        exact ⟨y', List.mem_cons_of_mem _ hy', hR⟩

namespace Node.ReadFrom

variable {x y z : Node} {ts : List Token}

theorem spans (h : x.ReadFrom ts) : x.span.Spans ts := by
  cases h with
  | expression h => exact Derivation.spans_tree _ h
  | head h => exact HeadDerivation.spans_tree _

theorem exists_children (h : x.ReadFrom ts) :
    ∃ uss, List.Forall₂ ReadFrom x.children uss ∧ uss.flatten <:+: ts := by
  cases h with
  | @head h hv =>
      refine ⟨[], ?_, List.nil_infix⟩
      cases h <;> exact .nil
  | @expression d hd =>
      cases d with
      | atom t =>
          obtain ⟨x, hx⟩ := hd
          refine ⟨[], ?_, List.nil_infix⟩
          rw [Derivation.tree, hx, Option.getD_some, (Token.span_of_atom? hx).2]
          exact .nil
      | quote mark inner =>
          refine ⟨[inner.yield], .cons (.expression hd.2) .nil, [mark], [], ?_⟩
          simp [Derivation.yield]
      | list opening items closing =>
          obtain ⟨hitems, hflatten⟩ := forall₂_readFrom_treeAll items hd.2.1
          refine ⟨_, hitems, [opening], [closing], ?_⟩
          rw [hflatten]
          simp [Derivation.yield]
      | invocation opening head parameters closing =>
          obtain ⟨hparameters, hflatten⟩ := forall₂_readFrom_treeAll parameters hd.2.2.1
          refine ⟨_, .cons (.head hd.2.1) hparameters, [opening], [closing], ?_⟩
          rw [List.flatten_cons, hflatten]
          simp [Derivation.yield]

theorem exists_of_child (h : y.ReadFrom ts) (hz : z ∈ y.children)
    (hx : ∀ vs, z.ReadFrom vs → ∃ us, x.ReadFrom us ∧ us <:+: vs) :
    ∃ us, x.ReadFrom us ∧ us <:+: ts := by
  obtain ⟨uss, hall, hstretch⟩ := h.exists_children
  obtain ⟨vs, hvs, hread⟩ := exists_mem_of_forall₂ hall hz
  obtain ⟨us, hus, hstretch'⟩ := hx vs hread
  exact ⟨us, hus, hstretch'.trans ((List.infix_of_mem_flatten hvs).trans hstretch)⟩

theorem exists_of_within (hx : x.Within y) (h : y.ReadFrom ts) :
    ∃ us, x.ReadFrom us ∧ us <:+: ts := by
  induction hx generalizing ts with
  | refl => exact ⟨ts, h, List.infix_rfl⟩
  | quote _ ih => exact h.exists_of_child List.mem_cons_self fun _ => ih
  | head _ ih => exact h.exists_of_child List.mem_cons_self fun _ => ih
  | parameter hy _ ih => exact h.exists_of_child (List.mem_cons_of_mem _ hy) fun _ => ih
  | item hy _ ih => exact h.exists_of_child hy fun _ => ih

theorem whole_eq_ok (h : x.ReadFrom ts) (hinstance : x.kind ≠ .instanceMember)
    (hstatic : x.kind ≠ .staticMember) {lx : Lexer} {eof : Token} (heof : eof.kind = .endOfInput)
    (htokens : lx.tokens = ts ++ [eof]) : (Parser.whole ⟨lx, none, false⟩).1 = .ok x := by
  obtain ⟨d, hd, rfl, rfl⟩ : ∃ d : Derivation, d.Valid ∧ d.tree = x ∧ d.yield = ts := by
    cases h with
    | @expression d hd => exact ⟨d, hd, rfl, rfl⟩
    | @head h hv =>
        cases h with
        | instanceMember => exact absurd rfl hinstance
        | staticMember => exact absurd rfl hstatic
        | identifier name =>
            have hatom : name.atom? = some (.identifier name.textOrEmpty (.ofToken name)) := by
              rw [Token.atom?, if_pos (show name.kind = .identifier from hv)]
            exact ⟨.atom name, ⟨_, hatom⟩, by rw [Derivation.tree, hatom]; rfl, rfl⟩
  exact whole_eq_ok_iff.mpr ⟨d, hd, rfl, eof, heof, htokens⟩

end Node.ReadFrom

section Positions

/-- Tokens in the order of their positions. -/
def Ordered (ts : List Token) : Prop := ts.Pairwise fun t u => t.position < u.position

theorem Segment.spell_positions {offset : Nat} {ss : List Segment} {ts : List Token}
    {rest : List Char} (h : Spell offset ss ts rest) :
    Ordered ts ∧ ∀ t ∈ ts, offset ≤ t.position ∧ t.position < offset + (charsOf ss).length := by
  induction ss generalizing offset ts with
  | nil =>
      cases ts with
      | nil => exact ⟨.nil, nofun⟩
      | cons t ts => cases h
  | cons s ss ih =>
      cases ts with
      | nil => cases h
      | cons t ts =>
          obtain ⟨-, hposition, hlexeme, htail⟩ := h
          obtain ⟨c, cs, hc, -⟩ := hlexeme.exists_cons
          obtain ⟨hordered, hbounds⟩ := ih htail
          have hlength : 0 < s.lexeme.length := by rw [hc]; exact Nat.succ_pos _
          rw [List.length_append] at hbounds
          rw [charsOf, List.length_append, List.length_append]
          refine ⟨List.pairwise_cons.mpr ⟨fun u hu => ?_, hordered⟩, fun u hu => ?_⟩
          · have := hbounds u hu
            omega
          · rcases List.mem_cons.mp hu with rfl | hu
            · omega
            · have := hbounds u hu
              omega

theorem ordered_tokenize {source : String} {ts : List Token} {eof : Token}
    (heof : eof.kind = .endOfInput) (h : tokenize source = ts ++ [eof]) :
    Ordered (ts ++ [eof]) := by
  obtain ⟨p, us, final, hp⟩ := exists_divides (Lexer.ofText source)
  have htokens : tokenize source = us ++ [final] := hp.tokens_eq
  obtain ⟨rfl, hlast⟩ := List.append_inj' (htokens.symm.trans h) rfl
  obtain rfl := List.singleton_inj.mp hlast
  obtain ⟨hordered, hbounds⟩ := spell_positions hp.spell
  rcases hp.final_eq with ⟨-, rfl⟩ | ⟨f, position, rfl, -⟩
  · refine List.pairwise_append.mpr ⟨hordered, List.pairwise_singleton _ _, fun t ht u hu => ?_⟩
    rw [List.mem_singleton.mp hu]
    have hlength := congrArg List.length hp.chars_eq
    rw [List.length_append, List.length_append] at hlength
    have := hbounds t ht
    change t.position < _ + _
    omega
  · cases heof

variable {ts us : List Token} {s s' : Span}

theorem Ordered.bounds (h : Ordered ts) {first last : Token} (hfirst : ts.head? = some first)
    (hlast : ts.getLast? = some last) :
    ∀ t ∈ ts, first.position ≤ t.position ∧ t.position ≤ last.position := by
  intro t ht
  constructor
  · obtain ⟨rest, rfl⟩ := List.head?_eq_some_iff.mp hfirst
    rcases List.mem_cons.mp ht with rfl | ht
    · exact Nat.le_refl _
    · exact Nat.le_of_lt ((List.pairwise_cons.mp h).1 t ht)
  · obtain ⟨rest, rfl⟩ := List.getLast?_eq_some_iff.mp hlast
    rcases List.mem_append.mp ht with ht | ht
    · exact Nat.le_of_lt ((List.pairwise_append.mp h).2.2 t ht last (by simp))
    · rw [List.mem_singleton.mp ht]

theorem Ordered.of_stretch (h : Ordered ts) (hus : us <:+: ts) : Ordered us :=
  List.Pairwise.sublist hus.sublist h

theorem Ordered.filter_covers (h : Ordered ts) (hus : us <:+: ts) (hs : s.Spans us) :
    ts.filter s.covers = us := by
  obtain ⟨before, after, rfl⟩ := hus
  obtain ⟨first, last, rfl, hfirst, hlast⟩ := hs
  obtain ⟨hleft, -, hright⟩ := List.pairwise_append.mp h
  obtain ⟨-, hmiddle, hbefore⟩ := List.pairwise_append.mp hleft
  have hbounds := Ordered.bounds hmiddle hfirst hlast
  have hfirst_mem : first ∈ us := List.mem_of_head? hfirst
  have hlast_mem : last ∈ us := List.mem_of_getLast? hlast
  have hnone : before.filter (Span.covers ⟨some first, some last⟩) = [] := by
    refine List.filter_eq_nil_iff.mpr fun t ht => ?_
    have := hbefore t ht first hfirst_mem
    simp [Span.covers]
    omega
  have hall : us.filter (Span.covers ⟨some first, some last⟩) = us := by
    refine List.filter_eq_self.mpr fun t ht => ?_
    simpa [Span.covers] using hbounds t ht
  have hnone' : after.filter (Span.covers ⟨some first, some last⟩) = [] := by
    refine List.filter_eq_nil_iff.mpr fun t ht => ?_
    have := hright last (by simp [hlast_mem]) t ht
    simp [Span.covers]
    omega
  rw [List.filter_append, List.filter_append, hnone, hall, hnone', List.nil_append,
    List.append_nil]

theorem Ordered.inside (h : Ordered ts) (hus : us <:+: ts) (hs : s.Spans us) (hs' : s'.Spans ts) :
    s.Inside s' := by
  obtain ⟨first, last, rfl, hfirst, hlast⟩ := hs
  obtain ⟨first', last', rfl, hfirst', hlast'⟩ := hs'
  have hbounds := h.bounds hfirst' hlast'
  have hmem := List.mem_of_head? hfirst
  refine ⟨first, last, first', last', rfl, rfl, (hbounds first (hus.subset hmem)).1, ?_,
    (hbounds last (hus.subset (List.mem_of_getLast? hlast))).2⟩
  exact ((h.of_stretch hus).bounds hfirst hlast first hmem).2

theorem Ordered.pairwise_before {xs : List Node} {uss : List (List Token)}
    (hall : List.Forall₂ Node.ReadFrom xs uss) (h : Ordered uss.flatten) :
    xs.Pairwise fun x y => x.span.Before y.span := by
  induction hall with
  | nil => exact .nil
  | @cons x us xs uss hx hxs ih =>
      obtain ⟨-, htail, hbefore⟩ := List.pairwise_append.mp (List.flatten_cons ▸ h)
      refine List.pairwise_cons.mpr ⟨fun y hy => ?_, ih htail⟩
      obtain ⟨vs, hvs, hread⟩ := exists_mem_of_forall₂ hxs hy
      obtain ⟨first, last, hspan, -, hlast⟩ := hx.spans
      obtain ⟨first', last', hspan', hfirst', -⟩ := hread.spans
      refine ⟨last, first', by rw [hspan], by rw [hspan'], ?_⟩
      exact hbefore last (List.mem_of_getLast? hlast) first'
        (List.mem_flatten.mpr ⟨vs, hvs, List.mem_of_head? hfirst'⟩)

end Positions

section Slices

namespace Segment

theorem charsOf_append (ss ss' : List Segment) :
    charsOf (ss ++ ss') = charsOf ss ++ charsOf ss' := by
  induction ss with
  | nil => rfl
  | cons s ss ih => rw [List.cons_append, charsOf, charsOf, ih, ← List.append_assoc]

theorem exists_of_spell_append {offset : Nat} {ss : List Segment} {ts us : List Token}
    {rest : List Char} (h : Spell offset ss (ts ++ us) rest) :
    ∃ ss₁ ss₂, ss = ss₁ ++ ss₂ ∧ Spell offset ss₁ ts (charsOf ss₂ ++ rest) ∧
      Spell (offset + (charsOf ss₁).length) ss₂ us rest := by
  induction ts generalizing offset ss with
  | nil => exact ⟨[], ss, rfl, trivial, h⟩
  | cons t ts ih =>
      cases ss with
      | nil => cases h
      | cons s ss =>
          obtain ⟨hgap, hposition, hlexeme, htail⟩ := h
          obtain ⟨ss₁, ss₂, rfl, hleft, hright⟩ := ih htail
          refine ⟨s :: ss₁, ss₂, rfl, ⟨hgap, hposition, ?_, hleft⟩, ?_⟩
          · rw [← List.append_assoc, ← charsOf_append]
            exact hlexeme
          · rw [charsOf, List.length_append, ← Nat.add_assoc]
            exact hright

end Segment

/-- Tokens of a text that follow one another are the tokens of the characters from where the first
of them begins to where the last one ends. -/
theorem exists_slice {source : String} {ts us vs : List Token} {first eof : Token}
    (heof : eof.kind = .endOfInput) (h : tokenize source = ts ++ us ++ vs ++ [eof])
    (hfirst : us.head? = some first) :
    ∃ (before chars after : List Char) (eof' : Token), source.toList = before ++ chars ++ after ∧
      before.length = first.position ∧ eof'.kind = .endOfInput ∧
      (⟨chars, first.position, first.position⟩ : Lexer).tokens = us ++ [eof'] := by
  obtain ⟨us, rfl⟩ := List.head?_eq_some_iff.mp hfirst
  obtain ⟨ss, last, hchars, hspell, -⟩ := exists_divides_of_tokenize heof h
  obtain ⟨ss, ss₃, rfl, hspell, -⟩ := exists_of_spell_append hspell
  obtain ⟨ss₁, ss₂, rfl, -, hspell⟩ := exists_of_spell_append hspell
  cases ss₂ with
  | nil => cases hspell
  | cons s ss₂ =>
      obtain ⟨-, hposition, hlexeme, htail⟩ := hspell
      -- The gap in front of the first lexeme and what follows the last one are left out.
      have hslice : Spell first.position (⟨[], s.lexeme⟩ :: ss₂) (first :: us) [] := by
        refine spell_of_mayFollow ⟨List.forall_mem_nil _, rfl, hlexeme, ?_⟩ (.nil _)
        rw [List.length_append, ← Nat.add_assoc, ← hposition] at htail
        exact htail
      refine ⟨charsOf ss₁ ++ s.gap, charsOf (⟨[], s.lexeme⟩ :: ss₂), charsOf ss₃ ++ last,
        ⟨first.position + (charsOf (⟨[], s.lexeme⟩ :: ss₂)).length, .endOfInput, none⟩, ?_, ?_,
        rfl, ?_⟩
      · rw [hchars, charsOf_append, charsOf_append, charsOf, charsOf]
        simp only [List.append_assoc, List.nil_append]
      · rw [hposition, List.length_append, Nat.zero_add]
      · have hlast : ∀ c ∈ ([] : List Char), isGap c = true := List.forall_mem_nil _
        exact Divides.tokens_eq (p := ⟨_, [], []⟩) ⟨by simp, hslice, hlast, .inl ⟨rfl, rfl⟩⟩

end Slices

theorem exists_readFrom {source : String} {root : Node}
    (h : parse source = .ok root ∨ ∃ roots, parseMany source = .ok roots ∧ root ∈ roots) :
    ∃ (ts : List Token) (eof : Token) (us : List Token), eof.kind = .endOfInput ∧
      tokenize source = ts ++ [eof] ∧ root.ReadFrom us ∧ us <:+: ts := by
  rcases h with h | ⟨roots, h, hroot⟩
  · obtain ⟨d, hd, hspells, rfl⟩ := parse_eq_ok_iff.mp h
    obtain ⟨eof, heof, htokens⟩ := spells_iff.mp hspells
    exact ⟨d.yield, eof, d.yield, heof, htokens, .expression hd, List.infix_rfl⟩
  · obtain ⟨ds, hds, hspells, rfl⟩ := parseMany_eq_ok_iff.mp h
    obtain ⟨eof, heof, htokens⟩ := spells_iff.mp hspells
    obtain ⟨hall, hflatten⟩ := forall₂_readFrom_treeAll ds hds
    obtain ⟨us, hus, hread⟩ := exists_mem_of_forall₂ hall hroot
    exact ⟨yieldAll ds, eof, us, heof, htokens, hread, hflatten ▸ List.infix_of_mem_flatten hus⟩

/-- The span of every node is its own source. Of each part of what a text is read as, be it a quote,
an invocation, a list, an atom or the head of an invocation, the span begins and ends with tokens of
the text, and the tokens from the one to the other are those of a stretch of the text. All parts but
heads that are members are read from these tokens, followed by the end of a text, as the same part
with the same span. The spans of what a node is made of lie inside its own, one behind the other. -/
theorem parse_spans {source : String} {root : Node}
    (h : parse source = .ok root ∨ ∃ roots, parseMany source = .ok roots ∧ root ∈ roots) {x : Node}
    (hx : x.Within root) :
    (∃ first last before chars after eof, x.span = ⟨some first, some last⟩ ∧
      (x.tokensIn source).head? = some first ∧ (x.tokensIn source).getLast? = some last ∧
      source.toList = before ++ chars ++ after ∧ before.length = first.position ∧
      eof.kind = .endOfInput ∧
      (⟨chars, first.position, first.position⟩ : Lexer).tokens = x.tokensIn source ++ [eof]) ∧
    (x.kind ≠ .instanceMember → x.kind ≠ .staticMember →
      ∀ (lx : Lexer) (eof : Token), eof.kind = .endOfInput →
        lx.tokens = x.tokensIn source ++ [eof] → (Parser.whole ⟨lx, none, false⟩).1 = .ok x) ∧
    (∀ y ∈ x.children, y.span.Inside x.span) ∧
    x.children.Pairwise fun y z => y.span.Before z.span := by
  obtain ⟨ts, eof, vs, heof, htokens, hroot, hvs⟩ := exists_readFrom h
  have hordered := ordered_tokenize heof htokens
  obtain ⟨us, hread, hpart⟩ := hroot.exists_of_within hx
  have hstretch : us <:+: ts := hpart.trans hvs
  have hbegin : ts <:+: ts ++ [eof] := ⟨[], [eof], rfl⟩
  have htokensIn : x.tokensIn source = us := by
    rw [Node.tokensIn, htokens]
    exact hordered.filter_covers (hstretch.trans hbegin) hread.spans
  have hus : Ordered us := hordered.of_stretch (hstretch.trans hbegin)
  rw [htokensIn]
  refine ⟨?_, fun hinstance hstatic lx eof => hread.whole_eq_ok hinstance hstatic, ?_, ?_⟩
  · obtain ⟨first, last, hspan, hfirst, hlast⟩ := hread.spans
    obtain ⟨vs, ws, hts⟩ := hstretch
    rw [← hts] at htokens
    obtain ⟨before, chars, after, eof', hchars, hlength, heof', hslice⟩ :=
      exists_slice heof htokens hfirst
    exact ⟨first, last, before, chars, after, eof', hspan, hfirst, hlast, hchars, hlength, heof',
      hslice⟩
  · intro y hy
    obtain ⟨uss, hall, hflatten⟩ := hread.exists_children
    obtain ⟨vs, hvs, hready⟩ := exists_mem_of_forall₂ hall hy
    exact hus.inside ((List.infix_of_mem_flatten hvs).trans hflatten) hready.spans hread.spans
  · obtain ⟨uss, hall, hflatten⟩ := hread.exists_children
    exact Ordered.pairwise_before hall (hus.of_stretch hflatten)

/-- The call in the text `~(f 1)` reaches from its parenthesis to the other one, and the number
stands inside it and behind the name. -/
theorem parse_spans_of_quoted_call :
    let f : Node := .identifier "f" (.ofToken ⟨2, .identifier, some "f"⟩)
    let one : Node := .literal (.integer 1) (.ofToken ⟨4, .integer, some "1"⟩)
    let call : Node := .invocation f [one]
      ⟨some ⟨1, .parenOpen, some "("⟩, some ⟨5, .parenClose, some ")"⟩⟩
    (call.tokensIn "~(f 1)").head? = some ⟨1, .parenOpen, some "("⟩ ∧
      (call.tokensIn "~(f 1)").getLast? = some ⟨5, .parenClose, some ")"⟩ ∧
      one.span.Inside call.span ∧ f.span.Before one.span := by
  intro f one call
  let root : Node := .quote call ⟨some ⟨0, .quote, some "~"⟩, some ⟨5, .parenClose, some ")"⟩⟩
  have hparse : parse "~(f 1)" = .ok root := rfl
  have hwithin : call.Within root := .quote .refl
  obtain ⟨⟨first, last, -, -, -, -, hspan, hfirst, hlast, -⟩, -, hinside, hbefore⟩ :=
    parse_spans (.inl hparse) hwithin
  cases hspan
  exact ⟨hfirst, hlast, hinside one (by simp [call, Node.children]),
    (List.pairwise_cons.mp hbefore).1 one (by simp)⟩

end HostedLisp
