import HostedLisp.Proofs.Source.Derivation

namespace HostedLisp

open Derivation HeadDerivation

/-- A set of token sequences. -/
abbrev Language := List Token → Prop

namespace Language

/-- The yields of single expressions. -/
def expression : Language := fun ts => ∃ d : Derivation, d.Valid ∧ d.yield = ts

/-- The yields of sequences of expressions. -/
def expressions : Language := fun ts => ∃ ds, ValidAll ds ∧ yieldAll ds = ts

/-- The yields of sequences of expressions with a closing token after them. -/
def expressionsUntil (closer : TokenKind) : Language := fun ts =>
  ∃ ds c, ValidAll ds ∧ c.kind = closer ∧ yieldAll ds ++ [c] = ts

/-- Whether some tokens continue `ts` to a member of the language. -/
def Viable (L : Language) (ts : List Token) : Prop :=
  ∃ rest, L (ts ++ rest)

/-- Whether `ts` is the beginning of a member, while no member, whatever comes after it, begins
with `ts` and the token `t`. -/
def Stops (L : Language) (ts : List Token) (t : Token) : Prop :=
  L.Viable ts ∧ ∀ us, L us → ∀ r s, us ++ r ≠ ts ++ t :: s

theorem Stops.not_viable {L : Language} {ts : List Token} {t : Token} (h : L.Stops ts t) :
    ¬ L.Viable (ts ++ [t]) := by
  rintro ⟨rest, hrest⟩
  exact h.2 _ hrest [] rest (by simp)

theorem Stops.not_mem {L : Language} {ts : List Token} {t : Token} (h : L.Stops ts t) :
    ¬ L ts := by
  intro hts
  exact h.2 ts hts [t] [] rfl

end Language

/-- A token of a kind. -/
def Token.ofKind (kind : TokenKind) : Token := ⟨0, kind, none⟩

namespace Derivation

theorem exists_invocation_of_yield {d : Derivation} (hd : d.Valid) {opening : Token}
    (ho : opening.kind = .parenOpen) {r rest : List Token} (e : d.yield ++ r = opening :: rest) :
    ∃ head parameters closing, d = .invocation opening head parameters closing ∧
      head.yield ++ (yieldAll parameters ++ closing :: r) = rest := by
  cases d with
  | atom t =>
      obtain ⟨x, hx⟩ := hd
      have hk := Token.kind_of_atom? hx
      simp_all [yield]
  | quote mark inner => simp_all [yield, Valid]
  | list opening' items closing => simp_all [yield, Valid]
  | invocation opening' head parameters closing =>
      simp only [yield, List.cons_append, List.append_assoc, List.nil_append,
        List.cons.injEq] at e
      exact ⟨head, parameters, closing, by rw [e.1], e.2⟩

end Derivation

namespace HeadDerivation

theorem areSegments_nil : AreSegments [] := by simp [AreSegments]

theorem AreSegments.snoc {more : List (Token × Token)} (h : AreSegments more) {dot name : Token}
    (hdot : dot.kind = .dot) (hname : name.kind = .identifier) :
    AreSegments (more ++ [(dot, name)]) := by
  intro s hs
  rcases List.mem_append.mp hs with hs | hs
  · exact h s hs
  · rw [List.mem_singleton.mp hs]
    exact ⟨hdot, hname⟩

theorem segments_snoc (more : List (Token × Token)) (dot name : Token) :
    segments (more ++ [(dot, name)]) = segments more ++ [dot, name] := by
  simp [segments]

theorem exists_segments_eq_append (more more' : List (Token × Token)) (h : AreSegments more)
    {u : Token} (hu : u.kind ≠ .dot) {r rest : List Token}
    (e : segments more' ++ u :: r = segments more ++ rest) :
    ∃ more'', more' = more ++ more'' ∧ segments more'' ++ u :: r = rest := by
  induction more generalizing more' with
  | nil => exact ⟨more', rfl, e⟩
  | cons s more ih =>
      have hs := (h s (by simp)).1
      cases more' with
      | nil => simp_all [segments]
      | cons s' more' =>
          simp only [segments, List.flatMap_cons, List.cons_append, List.nil_append,
            List.cons.injEq] at e
          obtain ⟨more'', rfl, hrest⟩ := ih more' (fun x hx => h x (by simp [hx])) e.2.2
          exact ⟨more'', by rw [Prod.ext e.1 e.2.1]; rfl, hrest⟩

theorem cases_of_path {h : HeadDerivation} (hv : h.Valid) {first : Token}
    {more : List (Token × Token)} (hfirst : first.kind = .identifier) (hmore : AreSegments more)
    {t : Token} (ht : t.kind ≠ .dot) {ts rest : List Token}
    (e : h.yield ++ t :: ts = first :: (segments more ++ rest)) :
    (more = [] ∧ rest = t :: ts) ∨
      ∃ mark name tail, rest = mark :: name :: tail ∧ (mark.kind = .dot ∨ mark.kind = .slash) ∧
        name.kind = .identifier := by
  cases h with
  | instanceMember dot name => simp_all [yield, Valid]
  | identifier name =>
      simp only [yield, List.cons_append, List.nil_append, List.cons.injEq] at e
      obtain ⟨more', hmore', hrest⟩ := exists_segments_eq_append more [] hmore ht e.2
      obtain ⟨rfl, rfl⟩ := List.append_eq_nil_iff.mp hmore'.symm
      exact .inl ⟨rfl, hrest.symm⟩
  | staticMember first' more' slash member =>
      obtain ⟨-, hmore', hslash, hmember⟩ := hv
      simp only [yield, List.cons_append, List.nil_append, List.append_assoc,
        List.cons.injEq] at e
      obtain ⟨more'', rfl, hrest⟩ :=
        exists_segments_eq_append more more' hmore (by simp [hslash]) e.2
      cases more'' with
      | nil => exact .inr ⟨slash, member, t :: ts, hrest.symm, .inr hslash, hmember⟩
      | cons s more'' =>
          obtain ⟨hdot, hname⟩ := hmore' s (by simp)
          refine .inr ⟨s.1, s.2, _, hrest.symm, .inl hdot, hname⟩

end HeadDerivation

namespace Language

open Token

theorem viable_of_head {opening : Token} (ho : opening.kind = .parenOpen) {h : HeadDerivation}
    (hv : h.Valid) {ts r : List Token} (e : opening :: h.yield = ts ++ r) :
    expression.Viable ts := by
  refine ⟨r ++ [ofKind .parenClose], .invocation opening h [] (ofKind .parenClose), ?_, ?_⟩
  · exact ⟨ho, hv, trivial, rfl⟩
  · rw [← List.append_assoc, ← e]
    simp [Derivation.yield, yieldAll]

/-- An invocation stops where its head does, seen from the tokens that can follow a head. -/
theorem stops_of_head {opening : Token} (ho : opening.kind = .parenOpen) {ts : List Token}
    {t : Token} (hviable : expression.Viable (opening :: ts))
    (h : ∀ (h : HeadDerivation) (u : Token) (us s : List Token), h.Valid →
      u.Begins ∨ u.kind = .parenClose → h.yield ++ u :: us ≠ ts ++ t :: s) :
    expression.Stops (opening :: ts) t := by
  refine ⟨hviable, ?_⟩
  rintro _ ⟨d, hd, rfl⟩ r s e
  obtain ⟨head, ps, c, rfl, hrest⟩ := exists_invocation_of_yield hd ho e
  obtain ⟨-, hhead, hps, hc⟩ := hd
  obtain ⟨u, us, hu, hb⟩ := exists_yieldAll_append_eq_cons hps (c := c) r
  rw [hu] at hrest
  refine h head u us s hhead ?_ hrest
  rcases hb with hb | rfl
  · exact .inl hb
  · exact .inr hc

theorem kind_ne_of_follows {u : Token} (h : u.Begins ∨ u.kind = .parenClose) :
    u.kind ≠ .dot ∧ u.kind ≠ .slash ∧ u.isFinal = false := by
  rcases h with h | h
  · exact h.kind_ne.2.2
  · simp [h, isFinal]

variable {opening first : Token} {more : List (Token × Token)}

theorem stops_at_head (ho : opening.kind = .parenOpen) {t : Token} (hdot : t.kind ≠ .dot)
    (hname : t.kind ≠ .identifier) : expression.Stops [opening] t := by
  refine stops_of_head ho (viable_of_head ho (h := .identifier (ofKind .identifier)) rfl rfl) ?_
  intro h u us s hv _ e
  cases h <;> simp_all [HeadDerivation.yield, HeadDerivation.Valid]

theorem stops_at_instanceMember (ho : opening.kind = .parenOpen) {dot t : Token}
    (hdot : dot.kind = .dot) (hname : t.kind ≠ .identifier) :
    expression.Stops [opening, dot] t := by
  refine stops_of_head ho
    (viable_of_head ho (h := .instanceMember dot (ofKind .identifier)) ⟨hdot, rfl⟩ rfl) ?_
  intro h u us s hv _ e
  cases h <;> simp_all [HeadDerivation.yield, HeadDerivation.Valid]

theorem viable_path (ho : opening.kind = .parenOpen) (hfirst : first.kind = .identifier)
    (hmore : AreSegments more) : expression.Viable (opening :: first :: segments more) :=
  viable_of_head ho
    (h := .staticMember first more (ofKind .slash) (ofKind .identifier))
    ⟨hfirst, hmore, rfl, rfl⟩ rfl

theorem stops_at_segment (ho : opening.kind = .parenOpen) (hfirst : first.kind = .identifier)
    (hmore : AreSegments more) {dot t : Token} (hdot : dot.kind = .dot)
    (hname : t.kind ≠ .identifier) :
    expression.Stops (opening :: first :: (segments more ++ [dot])) t := by
  refine stops_of_head ho ?_ ?_
  · refine viable_of_head ho
      (h := .staticMember first (more ++ [(dot, ofKind .identifier)]) (ofKind .slash)
        (ofKind .identifier))
      ⟨hfirst, hmore.snoc hdot rfl, rfl, rfl⟩
      (r := [ofKind .identifier, ofKind .slash, ofKind .identifier]) ?_
    simp [HeadDerivation.yield, segments_snoc]
  · intro h u us s hv hu e
    have hk := kind_ne_of_follows hu
    rw [List.cons_append, List.append_assoc, List.singleton_append] at e
    obtain ⟨-, hrest⟩ | ⟨mark, name, tail, hrest, -, hident⟩ :=
      cases_of_path hv hfirst hmore hk.1 e
    · simp_all
    · simp_all

theorem stops_at_member (ho : opening.kind = .parenOpen) (hfirst : first.kind = .identifier)
    (hmore : AreSegments more) {slash t : Token} (hslash : slash.kind = .slash)
    (hname : t.kind ≠ .identifier) :
    expression.Stops (opening :: first :: (segments more ++ [slash])) t := by
  refine stops_of_head ho ?_ ?_
  · refine viable_of_head ho (h := .staticMember first more slash (ofKind .identifier))
      ⟨hfirst, hmore, hslash, rfl⟩ (r := [ofKind .identifier]) ?_
    simp [HeadDerivation.yield]
  · intro h u us s hv hu e
    have hk := kind_ne_of_follows hu
    rw [List.cons_append, List.append_assoc, List.singleton_append] at e
    obtain ⟨-, hrest⟩ | ⟨mark, name, tail, hrest, -, hident⟩ :=
      cases_of_path hv hfirst hmore hk.1 e
    · simp_all
    · simp_all

theorem stops_path_at_final (ho : opening.kind = .parenOpen) (hfirst : first.kind = .identifier)
    (hmore : AreSegments more) {t : Token} (ht : t.isFinal = true) :
    expression.Stops (opening :: first :: segments more) t := by
  refine stops_of_head ho (viable_path ho hfirst hmore) ?_
  intro h u us s hv hu e
  have hk := kind_ne_of_follows hu
  obtain ⟨-, hrest⟩ | ⟨mark, name, tail, hrest, hmark, -⟩ := cases_of_path hv hfirst hmore hk.1 e
  · simp_all
  · obtain ⟨rfl, -⟩ := List.cons.inj hrest
    rcases hmark with hmark | hmark <;> simp [isFinal, hmark] at ht

theorem stops_dotted_path (ho : opening.kind = .parenOpen) (hfirst : first.kind = .identifier)
    (hmore : AreSegments more) (hne : more ≠ []) {t : Token} (hdot : t.kind ≠ .dot)
    (hslash : t.kind ≠ .slash) : expression.Stops (opening :: first :: segments more) t := by
  refine stops_of_head ho (viable_path ho hfirst hmore) ?_
  intro h u us s hv hu e
  have hk := kind_ne_of_follows hu
  obtain ⟨rfl, -⟩ | ⟨mark, name, tail, hrest, hmark, -⟩ := cases_of_path hv hfirst hmore hk.1 e
  · exact hne rfl
  · obtain ⟨rfl, -⟩ := List.cons.inj hrest
    rcases hmark with hmark | hmark
    · exact hdot hmark
    · exact hslash hmark

theorem stops_quote {mark t : Token} (hmark : mark.kind = .quote) {ts : List Token}
    (h : expression.Stops ts t) : expression.Stops (mark :: ts) t := by
  obtain ⟨⟨rest, d, hd, hrest⟩, hstop⟩ := h
  refine ⟨⟨rest, .quote mark d, ⟨hmark, hd⟩, by simp [Derivation.yield, hrest]⟩, ?_⟩
  rintro _ ⟨e, he, rfl⟩ r s heq
  cases e with
  | atom u =>
      obtain ⟨x, hx⟩ := he
      have hk := Token.kind_of_atom? hx
      simp_all [Derivation.yield]
  | quote mark' inner =>
      simp only [Derivation.yield, List.cons_append, List.cons.injEq] at heq
      exact hstop _ ⟨inner, he.2, rfl⟩ r s heq.2
  | list => simp_all [Derivation.yield, Derivation.Valid]
  | invocation => simp_all [Derivation.yield, Derivation.Valid]

theorem stops_list (hopening : opening.kind = .bracketOpen) {t : Token} {ts : List Token}
    (h : (expressionsUntil .bracketClose).Stops ts t) : expression.Stops (opening :: ts) t := by
  obtain ⟨⟨rest, ds, c, hds, hc, hrest⟩, hstop⟩ := h
  refine ⟨⟨rest, .list opening ds c, ⟨hopening, hds, hc⟩, by simp [Derivation.yield, hrest]⟩, ?_⟩
  rintro _ ⟨e, he, rfl⟩ r s heq
  cases e with
  | atom u =>
      obtain ⟨x, hx⟩ := he
      have hk := Token.kind_of_atom? hx
      simp_all [Derivation.yield]
  | quote => simp_all [Derivation.yield, Derivation.Valid]
  | list opening' items closing =>
      simp only [Derivation.yield, List.cons_append, List.cons.injEq] at heq
      exact hstop _ ⟨items, closing, he.2.1, he.2.2, rfl⟩ r s heq.2
  | invocation => simp_all [Derivation.yield, Derivation.Valid]

theorem stops_invocation (ho : opening.kind = .parenOpen) {head : HeadDerivation}
    (hhead : head.Valid) {t : Token} {ts : List Token}
    (hend : ∀ s, head.EndsBefore (ts ++ t :: s))
    (h : (expressionsUntil .parenClose).Stops ts t) :
    expression.Stops (opening :: (head.yield ++ ts)) t := by
  obtain ⟨⟨rest, ds, c, hds, hc, hrest⟩, hstop⟩ := h
  refine ⟨⟨rest, .invocation opening head ds c, ⟨ho, hhead, hds, hc⟩,
    by simp [Derivation.yield, hrest]⟩, ?_⟩
  rintro _ ⟨e, he, rfl⟩ r s heq
  obtain ⟨head', ps, c', rfl, htail⟩ := exists_invocation_of_yield he ho heq
  obtain ⟨-, hhead', hps, hc'⟩ := he
  rw [List.append_eq, List.append_assoc] at htail
  obtain ⟨-, hps'⟩ := HeadDerivation.yield_append_inj hhead' hhead
    (endsBefore_yieldAll hps hc' r head') (hend s) htail
  exact hstop _ ⟨ps, c', hps, hc', rfl⟩ r s (by simpa using hps')

theorem stops_at_start {t : Token} (h : ¬ t.Begins) : expression.Stops [] t := by
  refine ⟨⟨_, .quote (ofKind .quote) (.atom (ofKind .null)), ⟨rfl, _, rfl⟩, rfl⟩, ?_⟩
  rintro _ ⟨d, hd, rfl⟩ r s e
  obtain ⟨u, us, hu, hb⟩ := exists_yield_eq_cons hd
  rw [hu] at e
  simp only [List.cons_append, List.nil_append, List.cons.injEq] at e
  exact h (e.1 ▸ hb)

theorem stops_first {closer : TokenKind} {t : Token} {ts : List Token}
    (hne : ∀ u ∈ (ts ++ [t]).head?, u.kind ≠ closer) (h : expression.Stops ts t) :
    (expressionsUntil closer).Stops ts t := by
  obtain ⟨⟨rest, d, hd, hrest⟩, hstop⟩ := h
  refine ⟨⟨rest ++ [ofKind closer], [d], ofKind closer, ⟨hd, trivial⟩, rfl,
    by simp [yieldAll, hrest]⟩, ?_⟩
  rintro _ ⟨ds, c, hds, hc, rfl⟩ r s e
  cases ds with
  | nil =>
      -- The closing token alone would have to be the first of the tokens read.
      cases ts with
      | nil => simp_all [yieldAll]
      | cons u us => simp_all [yieldAll]
  | cons d' ds => exact hstop _ ⟨d', hds.1, rfl⟩ _ s (by simpa [yieldAll] using e)

theorem stops_next {closer : TokenKind} (hcloser : closer = .parenClose ∨ closer = .bracketClose)
    {d : Derivation} (hd : d.Valid) {t : Token} {ts : List Token}
    (h : (expressionsUntil closer).Stops ts t) :
    (expressionsUntil closer).Stops (d.yield ++ ts) t := by
  obtain ⟨⟨rest, ds, c, hds, hc, hrest⟩, hstop⟩ := h
  refine ⟨⟨rest, d :: ds, c, ⟨hd, hds⟩, hc, by simp [yieldAll, hrest]⟩, ?_⟩
  rintro _ ⟨es, c', hes, hc', rfl⟩ r s e
  cases es with
  | nil =>
      obtain ⟨u, us, hu, hb⟩ := exists_yield_eq_cons hd
      have hk := hb.kind_ne
      simp_all [yieldAll]
  | cons d' es =>
      simp only [yieldAll, List.append_assoc] at e
      obtain ⟨-, htail⟩ := Derivation.yield_append_inj d' d hes.1 hd _ _ e
      exact hstop _ ⟨es, c', hes.2, hc', rfl⟩ r s (by simpa using htail)

theorem not_viable_after {d : Derivation} (hd : d.Valid) (t : Token) :
    ¬ expression.Viable (d.yield ++ [t]) := by
  rintro ⟨rest, e, he, heq⟩
  rw [List.append_assoc] at heq
  obtain ⟨-, h⟩ := Derivation.yield_append_inj e d he hd [] _ (by rw [List.append_nil, heq])
  simp at h

theorem viable_expressions {ds : List Derivation} (hds : ValidAll ds) {ts : List Token}
    (h : expression.Viable ts) : expressions.Viable (yieldAll ds ++ ts) := by
  obtain ⟨rest, d, hd, hrest⟩ := h
  refine ⟨rest, ds ++ [d], validAll_append.mpr ⟨hds, hd, trivial⟩, ?_⟩
  rw [yieldAll_append, List.append_assoc, ← hrest]
  simp [yieldAll]

theorem exists_eq_append_of_yieldAll {ds es : List Derivation} (hds : ValidAll ds)
    (hes : ValidAll es) {r : List Token} (h : yieldAll es = yieldAll ds ++ r) :
    ∃ es', es = ds ++ es' ∧ ValidAll es' ∧ yieldAll es' = r := by
  induction ds generalizing es with
  | nil => exact ⟨es, rfl, hes, h⟩
  | cons d ds ih =>
      cases es with
      | nil =>
          obtain ⟨u, us, hu, -⟩ := exists_yield_eq_cons hds.1
          simp [yieldAll, hu] at h
      | cons e es =>
          simp only [yieldAll, List.append_assoc] at h
          obtain ⟨rfl, htail⟩ := Derivation.yield_append_inj e d hes.1 hds.1 _ _ h
          obtain ⟨es', rfl, hes'⟩ := ih hds.2 hes.2 htail
          exact ⟨es', rfl, hes'⟩

theorem not_viable_expressions {ds : List Derivation} (hds : ValidAll ds) {ts : List Token}
    {t : Token} (h : expression.Stops ts t) :
    ¬ expressions.Viable (yieldAll ds ++ (ts ++ [t])) := by
  rintro ⟨rest, es, hes, heq⟩
  rw [List.append_assoc] at heq
  obtain ⟨es', -, hes', htail⟩ := exists_eq_append_of_yieldAll hds hes heq
  cases es' with
  | nil => simp [yieldAll] at htail
  | cons e es' => exact h.2 _ ⟨e, hes'.1, rfl⟩ _ rest (by simpa [yieldAll] using htail)

theorem not_expressions {ds : List Derivation} (hds : ValidAll ds) {ts : List Token} {t : Token}
    (h : expression.Stops ts t) (hts : ts ≠ []) : ¬ expressions (yieldAll ds ++ ts) := by
  rintro ⟨es, hes, heq⟩
  obtain ⟨es', -, hes', htail⟩ := exists_eq_append_of_yieldAll hds hes heq
  cases es' with
  | nil => exact hts htail.symm
  | cons e es' =>
      refine h.2 _ ⟨e, hes'.1, rfl⟩ (yieldAll es' ++ [t]) [] ?_
      rw [← htail]
      simp [yieldAll]

end Language

end HostedLisp
