import HostedLisp.Proofs.Source.RoundTrip

namespace HostedLisp

open Number

theorem round_ne_nan (f : Format) (negative : Bool) (n d : Nat) : f.round negative n d ≠ .nan := by
  unfold Format.round
  dsimp only
  split_ifs <;> simp [Binary.zero, Binary.ofParts]

theorem ofDecimal_ne_nan (f : Format) {d : Decimal} (h : d.isFinite = true) :
    f.ofDecimal d ≠ .nan := by
  cases d with
  | finite negative c e =>
      change f.roundDecimal negative c e ≠ .nan
      unfold Format.roundDecimal
      dsimp only
      split
      · simp [Binary.zero]
      split
      · simp
      split <;> exact round_ne_nan f _ _ _
  | infinite => cases h
  | nan => cases h

theorem convert_ne_nan (f : Format) {x : Binary} (h : x ≠ .nan) : f.convert x ≠ .nan := by
  cases x with
  | finite negative m e =>
      change (if 0 ≤ e then _ else _) ≠ Binary.nan
      split <;> exact round_ne_nan f _ _ _
  | infinite => nofun
  | nan => exact absurd rfl h

theorem Exact.same_ofBinary?_self {x : Binary} (h : x ≠ .nan) :
    Exact.same (Exact.ofBinary? x) (Exact.ofBinary? x) = true := by
  apply Exact.same_self
  cases x with
  | finite => nofun
  | infinite => nofun
  | nan => exact absurd rfl h

theorem readDouble?_ne_nan {s : List Char} (hs : IsNumeral s) {x : Binary}
    (h : readDouble? s = some x) : x ≠ .nan := by
  obtain ⟨d, hd, rfl⟩ := Option.map_eq_some_iff.mp h
  exact ofDecimal_ne_nan .double (hs.isFinite hd)

theorem readSingle?_ne_nan {s : List Char} (hs : IsNumeral s) {x : Binary}
    (h : readSingle? s = some x) : x ≠ .nan := by
  obtain ⟨y, hy, rfl, -⟩ := exists_double_of_readSingle? h
  exact convert_ne_nan .single (readDouble?_ne_nan hs hy)

theorem Token.WellSpelled.same_literal {t : Token} (ht : t.WellSpelled) {v : Literal}
    (h : t.literal? = some v) : v.same v = true := by
  have hreads := denotes_of_literal? h
  rw [Token.WellSpelled] at ht
  cases v with
  | string s => exact beq_self_eq_true s
  | boolean b => exact beq_self_eq_true b
  | null => rfl
  | integer n => exact beq_self_eq_true n
  | decimal d =>
      rw [hreads.1] at ht
      have hfinite := IsNumeral.isFinite ht hreads.2
      cases d with
      | finite => exact Exact.same_self (Option.some_ne_none _)
      | infinite => cases hfinite
      | nan => cases hfinite
  | double x =>
      rw [hreads.1] at ht
      exact Exact.same_ofBinary?_self (readDouble?_ne_nan ht hreads.2)
  | float x =>
      rw [hreads.1] at ht
      exact Exact.same_ofBinary?_self (readSingle?_ne_nan ht hreads.2)

theorem HeadDerivation.same_tree (h : HeadDerivation) : h.tree.same h.tree = true := by
  cases h <;> simp [tree, Node.same]

namespace Derivation

mutual

theorem same_tree : (d : Derivation) → d.Valid → (∀ t ∈ d.yield, t.WellSpelled) →
    d.tree.same d.tree = true
  | .atom t, ⟨x, hx⟩, hspelled => by
      rw [tree, hx, Option.getD_some]
      unfold Token.atom? at hx
      split at hx
      · obtain rfl := Option.some.inj hx
        exact beq_self_eq_true t.textOrEmpty
      · obtain ⟨v, hv, rfl⟩ := Option.map_eq_some_iff.mp hx
        exact (hspelled t (by simp [yield])).same_literal hv
  | .quote mark inner, hd, hspelled =>
      same_tree inner hd.2 fun t ht => hspelled t (List.mem_cons_of_mem _ ht)
  | .list opening items closing, hd, hspelled =>
      sameAll_treeAll items hd.2.1 fun t ht => hspelled t (by simp [yield, ht])
  | .invocation opening head parameters closing, hd, hspelled => by
      rw [tree, Node.same, head.same_tree, Bool.true_and]
      exact sameAll_treeAll parameters hd.2.2.1 fun t ht => hspelled t (by simp [yield, ht])

theorem sameAll_treeAll : (ds : List Derivation) → ValidAll ds →
    (∀ t ∈ yieldAll ds, t.WellSpelled) → Node.sameAll (treeAll ds) (treeAll ds) = true
  | [], _, _ => rfl
  | d :: ds, hds, hspelled => by
      rw [treeAll, Node.sameAll, same_tree d hds.1 fun t ht => hspelled t (by simp [yieldAll, ht]),
        Bool.true_and]
      exact sameAll_treeAll ds hds.2 fun t ht => hspelled t (by simp [yieldAll, ht])

end

end Derivation

theorem same_self_of_parse {source : String} {x : Node} (h : parse source = .ok x) :
    x.same x = true := by
  obtain ⟨d, hd, hspells, rfl⟩ := parse_eq_ok_iff.mp h
  obtain ⟨eof, -, htokens⟩ := spells_iff.mp hspells
  apply Derivation.same_tree d hd
  intro t ht
  exact (Lexer.ofText source).wellSpelled_of_mem_tokens t (by
    change t ∈ tokenize source
    simp [htokens, ht])

end HostedLisp
