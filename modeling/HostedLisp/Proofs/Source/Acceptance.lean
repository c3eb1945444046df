import HostedLisp.Proofs.Source.Recognition

/-!
Which texts are expressions. Main statement: a text reads as a node exactly if its tokens are
the yield of a derivation, which is the only one and whose tree is the node; a text reads as a
sequence of nodes exactly if its tokens are the yields of derivations one after the other.
-/

namespace HostedLisp

open Derivation

namespace Node

mutual

/-- Whether no part of a node is an error. -/
def ErrorFree : Node → Prop
  | error .. => False
  | quote inner _ => ErrorFree inner
  | invocation head parameters _ => ErrorFree head ∧ AllErrorFree parameters
  | list items _ => AllErrorFree items
  | _ => True

/-- Whether no part of any of the nodes is an error. -/
def AllErrorFree : List Node → Prop
  | [] => True
  | x :: xs => ErrorFree x ∧ AllErrorFree xs

end

end Node

theorem Token.errorFree_of_atom? {t : Token} {x : Node} (h : t.atom? = some x) : x.ErrorFree := by
  unfold atom? at h
  split at h
  · obtain rfl := Option.some.inj h
    trivial
  · obtain ⟨value, -, rfl⟩ := Option.map_eq_some_iff.mp h
    trivial

theorem HeadDerivation.errorFree_tree (h : HeadDerivation) : h.tree.ErrorFree := by
  cases h <;> trivial

namespace Derivation

mutual

theorem errorFree_tree : (d : Derivation) → d.Valid → d.tree.ErrorFree
  | .atom t, h => by
      obtain ⟨x, hx⟩ := h
      simpa [tree, hx] using Token.errorFree_of_atom? hx
  | .quote _ inner, h => errorFree_tree inner h.2
  | .list _ items _, h => allErrorFree_treeAll items h.2.1
  | .invocation _ head parameters _, h =>
      ⟨head.errorFree_tree, allErrorFree_treeAll parameters h.2.2.1⟩

theorem allErrorFree_treeAll : (ds : List Derivation) → ValidAll ds →
    Node.AllErrorFree (treeAll ds)
  | [], _ => trivial
  | d :: ds, h => ⟨errorFree_tree d h.1, allErrorFree_treeAll ds h.2⟩

end

theorem yieldAll_inj {ds es : List Derivation} (hds : ValidAll ds) (hes : ValidAll es)
    (h : yieldAll ds = yieldAll es) : ds = es := by
  obtain ⟨rest, rfl, hrest, hyield⟩ :=
    Language.exists_eq_append_of_yieldAll hds hes (r := []) (by rw [h, List.append_nil])
  cases rest with
  | nil => rw [List.append_nil]
  | cons d rest =>
      obtain ⟨t, ts, ht, -⟩ := exists_yield_eq_cons hrest.1
      simp [yieldAll, ht] at hyield

end Derivation

/-- Whether `ts` are the tokens of a text before its end, and no token of it is a fault. -/
def Spells (source : String) (ts : List Token) : Prop :=
  (∀ t ∈ tokenize source, t.kind ≠ .fault) ∧
    (tokenize source).takeWhile (fun t => t.kind != .endOfInput) = ts

theorem Spells.eq {source : String} {ts us : List Token} (h : Spells source ts)
    (h' : Spells source us) : ts = us :=
  h.2.symm.trans h'.2

theorem spells_iff {source : String} {ts : List Token} :
    Spells source ts ↔ ∃ eof : Token, eof.kind = .endOfInput ∧ tokenize source = ts ++ [eof] := by
  obtain ⟨us, t, htokens, ht, hus⟩ := (Lexer.ofText source).exists_tokens_eq_append
  have hus' : ∀ u ∈ us, u.kind ≠ .fault ∧ u.kind ≠ .endOfInput := by
    intro u hu
    have := hus u hu
    simp_all [Token.isFinal]
  change (Lexer.ofText source).tokens = us ++ [t] at htokens
  unfold Spells tokenize
  rw [htokens]
  constructor
  · rintro ⟨hfault, rfl⟩
    have hkind : t.kind = .endOfInput := by
      have := hfault t (by simp)
      simpa [Token.isFinal, this] using ht
    refine ⟨t, hkind, ?_⟩
    rw [List.takeWhile_append_of_pos (by simpa using fun u hu => (hus' u hu).2)]
    simp [hkind]
  · rintro ⟨eof, heof, h⟩
    obtain ⟨rfl, hlast⟩ := List.append_inj' h rfl
    obtain rfl := List.singleton_inj.mp hlast
    refine ⟨?_, ?_⟩
    · intro u hu
      rcases List.mem_append.mp hu with hu | hu
      · exact (hus' u hu).1
      · simp [List.mem_singleton.mp hu, heof]
    · rw [List.takeWhile_append_of_pos (by simpa using fun u hu => (hus' u hu).2)]
      simp [heof]

theorem not_locatedFrom {lx : Lexer} {L : Language} {e : SyntaxError} {q : Parser}
    (h : Parser.LocatedFrom lx L e q) {ts : List Token} (hts : L ts) {eof : Token}
    (heof : eof.kind = .endOfInput) (htokens : lx.tokens = ts ++ [eof]) : False := by
  obtain ⟨us, vs, hus, -, hnot, hearly, -⟩ := h
  rw [htokens] at hus
  rcases List.eq_nil_or_concat vs with rfl | ⟨vs, v, rfl⟩
  · obtain ⟨rfl, hlast⟩ := List.append_inj' hus rfl
    obtain rfl := List.singleton_inj.mp hlast
    exact hearly heof hts
  · have hlast : ts ++ [eof] = us ++ [e.stop] ++ vs ++ [v] := by rw [hus]; simp
    have hinit : ts = us ++ [e.stop] ++ vs := (List.append_inj' hlast rfl).1
    exact hnot ⟨vs, hinit ▸ hts⟩

theorem whole_eq_ok_iff {lx : Lexer} {x : Node} :
    (Parser.whole ⟨lx, none, false⟩).1 = .ok x ↔ ∃ d : Derivation, d.Valid ∧ d.tree = x ∧
      ∃ eof : Token, eof.kind = .endOfInput ∧ lx.tokens = d.yield ++ [eof] := by
  have h := Parser.outcome_whole (p := ⟨lx, none, false⟩) rfl
  cases hrule : Parser.whole ⟨lx, none, false⟩ with
  | mk result q =>
      rw [hrule] at h
      cases result with
      | ok y =>
          obtain ⟨d, eof, hd, rfl, heof, htokens⟩ := h
          constructor
          · rintro ⟨⟩
            exact ⟨d, hd, rfl, eof, heof, htokens⟩
          · rintro ⟨e, he, rfl, eof', -, htokens'⟩
            obtain ⟨hyield, -⟩ := List.append_inj' (htokens.symm.trans htokens') rfl
            obtain ⟨rfl, -⟩ := yield_append_inj d e hd he [] [] (by rw [hyield])
            rfl
      | error err =>
          constructor
          · rintro ⟨⟩
          · rintro ⟨d, hd, -, eof, heof, htokens⟩
            exact (not_locatedFrom h ⟨d, hd, rfl⟩ heof htokens).elim

theorem parse_eq_ok_iff {source : String} {x : Node} :
    parse source = .ok x ↔ ∃ d : Derivation, d.Valid ∧ Spells source d.yield ∧ d.tree = x := by
  unfold parse
  refine whole_eq_ok_iff.trans (exists_congr fun d => ?_)
  rw [spells_iff, and_comm (a := d.tree = x)]
  rfl

theorem outcome_parseMany (source : String) :
    match Parser.expressions (source.length + 2) (Parser.ofText source) with
    | (.ok xs, _) => ∃ ds eof, ValidAll ds ∧ treeAll ds = xs ∧ eof.kind = .endOfInput ∧
        tokenize source = yieldAll ds ++ [eof]
    | (.error e, q) => Parser.LocatedFrom (Lexer.ofText source) .expressions e q := by
  refine Parser.outcome_expressions (p := Parser.ofText source) rfl (source.length + 2) []
    trivial _ (.nil _) ?_
  change source.toList.length + 0 < source.length + 2
  rw [String.length_toList]
  omega

theorem parseMany_eq_ok_iff {source : String} {xs : List Node} :
    parseMany source = .ok xs ↔ ∃ ds, ValidAll ds ∧ Spells source (yieldAll ds) ∧
      treeAll ds = xs := by
  have h := outcome_parseMany source
  unfold parseMany
  cases hrule : Parser.expressions (source.length + 2) (Parser.ofText source) with
  | mk result q =>
      rw [hrule] at h
      cases result with
      | ok ys =>
          obtain ⟨ds, eof, hds, rfl, heof, htokens⟩ := h
          have hspells : Spells source (yieldAll ds) := spells_iff.mpr ⟨eof, heof, htokens⟩
          constructor
          · rintro ⟨⟩
            exact ⟨ds, hds, hspells, rfl⟩
          · rintro ⟨es, hes, hspells', rfl⟩
            rw [yieldAll_inj hds hes (hspells.eq hspells')]
      | error err =>
          constructor
          · rintro ⟨⟩
          · rintro ⟨ds, hds, hspells, -⟩
            obtain ⟨eof, heof, htokens⟩ := spells_iff.mp hspells
            exact (not_locatedFrom h ⟨ds, hds, rfl⟩ heof htokens).elim

/-- A text is an expression if and only if its tokens, none of which is a fault, are the yield of
a derivation. There is one such derivation only, the node read is its tree, and no part of it is
an error. Sequences of expressions are read in the same way, and in order. -/
theorem parse_accepts_grammar (source : String) :
    ((∃ x, parse source = .ok x) ↔ ∃ d : Derivation, d.Valid ∧ Spells source d.yield) ∧
    (∀ d : Derivation, d.Valid → Spells source d.yield →
      parse source = .ok d.tree ∧ d.tree.ErrorFree ∧
        ∀ e : Derivation, e.Valid → Spells source e.yield → e = d) ∧
    ((∃ xs, parseMany source = .ok xs) ↔ ∃ ds, ValidAll ds ∧ Spells source (yieldAll ds)) ∧
    (∀ ds, ValidAll ds → Spells source (yieldAll ds) →
      parseMany source = .ok (treeAll ds) ∧ Node.AllErrorFree (treeAll ds) ∧
        ∀ es, ValidAll es → Spells source (yieldAll es) → es = ds) := by
  refine ⟨?_, ?_, ?_, ?_⟩
  · constructor
    · rintro ⟨x, hx⟩
      obtain ⟨d, hd, hspells, -⟩ := parse_eq_ok_iff.mp hx
      exact ⟨d, hd, hspells⟩
    · rintro ⟨d, hd, hspells⟩
      exact ⟨d.tree, parse_eq_ok_iff.mpr ⟨d, hd, hspells, rfl⟩⟩
  · intro d hd hspells
    refine ⟨parse_eq_ok_iff.mpr ⟨d, hd, hspells, rfl⟩, errorFree_tree d hd, ?_⟩
    intro e he hspells'
    exact (yield_append_inj e d he hd [] [] (by rw [hspells.eq hspells'])).1
  · constructor
    · rintro ⟨xs, hxs⟩
      obtain ⟨ds, hds, hspells, -⟩ := parseMany_eq_ok_iff.mp hxs
      exact ⟨ds, hds, hspells⟩
    · rintro ⟨ds, hds, hspells⟩
      exact ⟨treeAll ds, parseMany_eq_ok_iff.mpr ⟨ds, hds, hspells, rfl⟩⟩
  · intro ds hds hspells
    refine ⟨parseMany_eq_ok_iff.mpr ⟨ds, hds, hspells, rfl⟩, allErrorFree_treeAll ds hds, ?_⟩
    intro es hes hspells'
    exact yieldAll_inj hes hds (hspells'.eq hspells)

/-- The text `~x` is the quote of a name. -/
theorem parse_quoted_name :
    ∃ mark name : Token, parse "~x" = .ok (.quote (.identifier "x" (.ofToken name))
      ⟨some mark, some name⟩) := by
  have htokens : tokenize "~x" =
      [⟨0, .quote, some "~"⟩, ⟨1, .identifier, some "x"⟩] ++ [⟨2, .endOfInput, none⟩] := by
    unfold tokenize
    rw [Lexer.tokens_of_not_final rfl, Lexer.tokens_of_not_final rfl, Lexer.tokens_of_final rfl]
    rfl
  have hvalid : (quote ⟨0, .quote, some "~"⟩ (atom ⟨1, .identifier, some "x"⟩)).Valid :=
    ⟨rfl, _, rfl⟩
  exact ⟨_, _, ((parse_accepts_grammar "~x").2.1 _ hvalid (spells_iff.mpr ⟨_, rfl, htokens⟩)).1⟩

end HostedLisp
