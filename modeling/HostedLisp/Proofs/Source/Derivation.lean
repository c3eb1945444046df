import HostedLisp.Source.Parser

namespace HostedLisp

open Number

namespace Token

/-- The literal that a token spells. A numeral spells one only if it converts to its kind. -/
def literal? (t : Token) : Option Literal :=
  match t.kind with
  | .string => some (.string t.textOrEmpty)
  | .boolean => some (.boolean (t.textOrEmpty == "true"))
  | .null => some .null
  | .integer => (readInt64 t.textOrEmpty.toList).toOption.map .integer
  | .decimal => (Decimal.read? t.textOrEmpty.toList).map .decimal
  | .double => (readDouble? t.textOrEmpty.toList).map .double
  | .float => (readSingle? t.textOrEmpty.toList).map .float
  | _ => none

/-- Whether a token denotes a literal: its text is read in the way of its kind. -/
def Denotes (t : Token) : Literal → Prop
  | .string s => t.kind = .string ∧ t.textOrEmpty = s
  | .boolean b => t.kind = .boolean ∧ (t.textOrEmpty == "true") = b
  | .null => t.kind = .null
  | .integer n => t.kind = .integer ∧ readInt64 t.textOrEmpty.toList = .ok n
  | .decimal d => t.kind = .decimal ∧ Decimal.read? t.textOrEmpty.toList = some d
  | .double x => t.kind = .double ∧ readDouble? t.textOrEmpty.toList = some x
  | .float x => t.kind = .float ∧ readSingle? t.textOrEmpty.toList = some x

theorem denotes_of_literal? {t : Token} {v : Literal} (h : t.literal? = some v) :
    t.Denotes v := by
  rw [literal?] at h
  cases hkind : t.kind with
  | string | boolean =>
      rw [hkind] at h
      cases h
      exact ⟨hkind, rfl⟩
  | null =>
      rw [hkind] at h
      cases h
      exact hkind
  | integer =>
      rw [hkind] at h
      obtain ⟨n, hn, rfl⟩ := Option.map_eq_some_iff.mp h
      refine ⟨hkind, ?_⟩
      cases hread : readInt64 t.textOrEmpty.toList with
      | error fault =>
          rw [hread] at hn
          cases hn
      | ok m =>
          rw [hread] at hn
          rw [Option.some.inj hn]
  | decimal | double | float =>
      rw [hkind] at h
      obtain ⟨x, hx, rfl⟩ := Option.map_eq_some_iff.mp h
      exact ⟨hkind, hx⟩
  | _ =>
      rw [hkind] at h
      cases h

/-- The expression that a token is on its own. -/
def atom? (t : Token) : Option Node :=
  if t.kind = .identifier then some (.identifier t.textOrEmpty (.ofToken t))
  else t.literal?.map fun value => .literal value (.ofToken t)

/-- Whether an expression can begin with the token. -/
def Begins (t : Token) : Prop :=
  t.kind = .parenOpen ∨ t.kind = .bracketOpen ∨ t.kind = .quote ∨ ∃ x, t.atom? = some x

/-- Whether the token closes a list or an invocation. -/
def Closes (t : Token) : Prop :=
  t.kind = .parenClose ∨ t.kind = .bracketClose

end Token

/-- Derivations of the head of an invocation. -/
inductive HeadDerivation where
  | instanceMember (dot name : Token)
  | identifier (name : Token)
  | staticMember (first : Token) (more : List (Token × Token)) (slash member : Token)

/-- Derivations of an expression. -/
inductive Derivation where
  | atom (t : Token)
  | quote (mark : Token) (inner : Derivation)
  | list (opening : Token) (items : List Derivation) (closing : Token)
  | invocation (opening : Token) (head : HeadDerivation) (parameters : List Derivation)
      (closing : Token)

namespace HeadDerivation

/-- The tokens of further segments of a path, each with its dot in front. -/
def segments (more : List (Token × Token)) : List Token :=
  more.flatMap fun s => [s.1, s.2]

/-- The tokens that a head derives. -/
def yield : HeadDerivation → List Token
  | instanceMember dot name => [dot, name]
  | identifier name => [name]
  | staticMember first more slash member => first :: (segments more ++ [slash, member])

/-- Whether further segments are dots followed by names. -/
def AreSegments (more : List (Token × Token)) : Prop :=
  ∀ s ∈ more, s.1.kind = .dot ∧ s.2.kind = .identifier

/-- Whether each token has the kind that its place asks for. -/
def Valid : HeadDerivation → Prop
  | instanceMember dot name => dot.kind = .dot ∧ name.kind = .identifier
  | identifier name => name.kind = .identifier
  | staticMember first more slash member =>
      first.kind = .identifier ∧ AreSegments more ∧ slash.kind = .slash ∧
        member.kind = .identifier

/-- The node of a head. -/
def tree : HeadDerivation → Node
  | instanceMember dot name => .instanceMember name.textOrEmpty ⟨some dot, some name⟩
  | identifier name => .identifier name.textOrEmpty (.ofToken name)
  | staticMember first more _ member =>
      .staticMember (first.textOrEmpty :: more.map fun s => s.2.textOrEmpty) member.textOrEmpty
        ⟨some first, some member⟩

end HeadDerivation

namespace Derivation

mutual

/-- The tokens that an expression derives. -/
def yield : Derivation → List Token
  | atom t => [t]
  | quote mark inner => mark :: yield inner
  | list opening items closing => opening :: (yieldAll items ++ [closing])
  | invocation opening head parameters closing =>
      opening :: (head.yield ++ (yieldAll parameters ++ [closing]))

/-- The tokens that expressions derive one after the other. -/
def yieldAll : List Derivation → List Token
  | [] => []
  | d :: ds => yield d ++ yieldAll ds

end

mutual

/-- Whether each token has the kind that its place asks for and each atom is one. -/
def Valid : Derivation → Prop
  | atom t => ∃ x, t.atom? = some x
  | quote mark inner => mark.kind = .quote ∧ Valid inner
  | list opening items closing =>
      opening.kind = .bracketOpen ∧ ValidAll items ∧ closing.kind = .bracketClose
  | invocation opening head parameters closing =>
      opening.kind = .parenOpen ∧ head.Valid ∧ ValidAll parameters ∧ closing.kind = .parenClose

/-- Whether all derivations of a list are valid. -/
def ValidAll : List Derivation → Prop
  | [] => True
  | d :: ds => Valid d ∧ ValidAll ds

end

mutual

/-- The node that a derivation stands for. -/
def tree : Derivation → Node
  | atom t => t.atom?.getD default
  | quote mark inner => .quote (tree inner) ⟨some mark, (tree inner).span.stop⟩
  | list opening items closing => .list (treeAll items) ⟨some opening, some closing⟩
  | invocation opening head parameters closing =>
      .invocation head.tree (treeAll parameters) ⟨some opening, some closing⟩

/-- The nodes that derivations stand for. -/
def treeAll : List Derivation → List Node
  | [] => []
  | d :: ds => tree d :: treeAll ds

end

end Derivation

theorem Token.kind_of_atom? {t : Token} {x : Node} (h : t.atom? = some x) :
    t.kind = .identifier ∨ t.kind = .string ∨ t.kind = .boolean ∨ t.kind = .null ∨
      t.kind = .integer ∨ t.kind = .decimal ∨ t.kind = .double ∨ t.kind = .float := by
  cases hk : t.kind <;> simp_all [Token.atom?, Token.literal?]

theorem Token.Begins.kind_ne {t : Token} (h : t.Begins) :
    t.kind ≠ .parenClose ∧ t.kind ≠ .bracketClose ∧ t.kind ≠ .dot ∧ t.kind ≠ .slash ∧
      t.isFinal = false := by
  rcases h with h | h | h | ⟨x, h⟩
  · simp [h, Token.isFinal]
  · simp [h, Token.isFinal]
  · simp [h, Token.isFinal]
  · rcases Token.kind_of_atom? h with h | h | h | h | h | h | h | h <;> simp [h, Token.isFinal]

namespace Derivation

theorem exists_yield_eq_cons {d : Derivation} (h : d.Valid) :
    ∃ t ts, d.yield = t :: ts ∧ t.Begins := by
  cases d with
  | atom t => exact ⟨t, [], rfl, .inr (.inr (.inr h))⟩
  | quote mark inner => exact ⟨mark, _, rfl, .inr (.inr (.inl h.1))⟩
  | list opening items closing => exact ⟨opening, _, rfl, .inr (.inl h.1)⟩
  | invocation opening head parameters closing => exact ⟨opening, _, rfl, .inl h.1⟩

theorem exists_yieldAll_append_eq_cons {ds : List Derivation} (h : ValidAll ds) {c : Token}
    (r : List Token) :
    ∃ t ts, yieldAll ds ++ c :: r = t :: ts ∧ (t.Begins ∨ t = c) := by
  cases ds with
  | nil => exact ⟨c, r, rfl, .inr rfl⟩
  | cons d ds =>
      obtain ⟨t, ts, ht, hb⟩ := exists_yield_eq_cons h.1
      exact ⟨t, ts ++ (yieldAll ds ++ c :: r), by simp [yieldAll, ht], .inl hb⟩

theorem yieldAll_append (ds es : List Derivation) :
    yieldAll (ds ++ es) = yieldAll ds ++ yieldAll es := by
  induction ds with
  | nil => rfl
  | cons d ds ih => simp [yieldAll, ih]

theorem validAll_append {ds es : List Derivation} :
    ValidAll (ds ++ es) ↔ ValidAll ds ∧ ValidAll es := by
  induction ds with
  | nil => simp [ValidAll]
  | cons d ds ih => simp [ValidAll, ih, and_assoc]

end Derivation

namespace HeadDerivation

/-- Whether the head ends where `rest` begins. A name alone could go on with a dot or a slash. -/
def EndsBefore : HeadDerivation → List Token → Prop
  | identifier _, rest => ∀ t ∈ rest.head?, t.kind ≠ .dot ∧ t.kind ≠ .slash
  | _, _ => True

theorem endsBefore_of_ne {t : Token} (hdot : t.kind ≠ .dot) (hslash : t.kind ≠ .slash)
    (h : HeadDerivation) (rest : List Token) : h.EndsBefore (t :: rest) := by
  cases h <;> simp [EndsBefore, hdot, hslash]

theorem segments_append_inj (more more' : List (Token × Token)) (h : AreSegments more)
    (h' : AreSegments more') {t t' : Token} (ht : t.kind ≠ .dot) (ht' : t'.kind ≠ .dot)
    {r r' : List Token} (e : segments more ++ t :: r = segments more' ++ t' :: r') :
    more = more' ∧ t = t' ∧ r = r' := by
  induction more generalizing more' with
  | nil =>
      cases more' with
      | nil => simpa [segments] using e
      | cons s more' =>
          simp only [segments, List.flatMap_nil, List.nil_append, List.flatMap_cons,
            List.cons_append, List.cons.injEq] at e
          exact absurd (e.1 ▸ (h' s (by simp)).1) ht
  | cons s more ih =>
      cases more' with
      | nil =>
          simp only [segments, List.flatMap_nil, List.nil_append, List.flatMap_cons,
            List.cons_append, List.cons.injEq] at e
          exact absurd (e.1 ▸ (h s (by simp)).1) ht'
      | cons s' more' =>
          simp only [segments, List.flatMap_cons, List.cons_append, List.nil_append,
            List.cons.injEq] at e
          obtain ⟨rfl, ht, hr⟩ := ih more' (fun x hx => h x (by simp [hx]))
            (fun x hx => h' x (by simp [hx])) e.2.2
          exact ⟨by rw [Prod.ext e.1 e.2.1], ht, hr⟩

theorem not_identifier_and_staticMember {name first slash member : Token}
    {more : List (Token × Token)} (h : (staticMember first more slash member).Valid)
    {r s : List Token} (hr : (identifier name).EndsBefore r)
    (e : (identifier name).yield ++ r = (staticMember first more slash member).yield ++ s) :
    False := by
  simp only [yield, List.cons_append, List.nil_append, List.append_assoc, List.cons.injEq] at e
  obtain ⟨-, rfl⟩ := e
  cases more with
  | nil => exact (hr slash (by simp [segments])).2 h.2.2.1
  | cons x more => exact (hr x.1 (by simp [segments])).1 (h.2.1 x (by simp)).1

theorem yield_append_inj {a b : HeadDerivation} (ha : a.Valid) (hb : b.Valid)
    {r s : List Token} (hr : a.EndsBefore r) (hs : b.EndsBefore s)
    (e : a.yield ++ r = b.yield ++ s) : a = b ∧ r = s := by
  cases a with
  | instanceMember dot name =>
      cases b with
      | instanceMember => simpa [yield, and_assoc] using e
      | identifier => simp_all [yield, Valid]
      | staticMember => simp_all [yield, Valid]
  | identifier name =>
      cases b with
      | instanceMember => simp_all [yield, Valid]
      | identifier => simpa [yield] using e
      | staticMember => exact (not_identifier_and_staticMember hb hr e).elim
  | staticMember first more slash member =>
      cases b with
      | instanceMember => simp_all [yield, Valid]
      | identifier => exact (not_identifier_and_staticMember ha hs e.symm).elim
      | staticMember first' more' slash' member' =>
          simp only [yield, List.cons_append, List.nil_append, List.append_assoc,
            List.cons.injEq] at e
          obtain ⟨rfl, rfl, hr⟩ := segments_append_inj more more' ha.2.1 hb.2.1
            (by simp [ha.2.2.1]) (by simp [hb.2.2.1]) e.2
          simp_all

end HeadDerivation

namespace Derivation

/-- Neither a parameter nor the end of an invocation can be taken for a part of its head. -/
theorem endsBefore_yieldAll {ds : List Derivation} (h : ValidAll ds) {c : Token}
    (hc : c.kind = .parenClose) (r : List Token) (head : HeadDerivation) :
    head.EndsBefore (yieldAll ds ++ c :: r) := by
  obtain ⟨t, ts, e, hb | rfl⟩ := exists_yieldAll_append_eq_cons h (c := c) r
  · rw [e]
    exact HeadDerivation.endsBefore_of_ne hb.kind_ne.2.2.1 hb.kind_ne.2.2.2.1 head ts
  · rw [e]
    exact HeadDerivation.endsBefore_of_ne (by simp [hc]) (by simp [hc]) head ts

mutual

/-- What a sequence of tokens begins with can be derived in one way only. -/
theorem yield_append_inj : (d e : Derivation) → d.Valid → e.Valid → (r s : List Token) →
    d.yield ++ r = e.yield ++ s → d = e ∧ r = s
  | .atom t, e, hd, he, r, s, h => by
      obtain ⟨x, hx⟩ := hd
      have hk := Token.kind_of_atom? hx
      cases e <;> simp_all [yield, Valid]
  | .quote mark inner, e, hd, he, r, s, h => by
      cases e with
      | atom t =>
          obtain ⟨x, hx⟩ := he
          have hk := Token.kind_of_atom? hx
          simp_all [yield, Valid]
      | quote mark' inner' =>
          simp only [yield, List.cons_append, List.cons.injEq] at h
          obtain ⟨rfl, rfl⟩ := yield_append_inj inner inner' hd.2 he.2 r s h.2
          exact ⟨by rw [h.1], rfl⟩
      | list => simp_all [yield, Valid]
      | invocation => simp_all [yield, Valid]
  | .list opening items closing, e, hd, he, r, s, h => by
      cases e with
      | atom t =>
          obtain ⟨x, hx⟩ := he
          have hk := Token.kind_of_atom? hx
          simp_all [yield, Valid]
      | quote => simp_all [yield, Valid]
      | list opening' items' closing' =>
          simp only [yield, List.cons_append, List.append_assoc, List.nil_append,
            List.cons.injEq] at h
          obtain ⟨rfl, rfl, rfl⟩ := yieldAll_append_inj items items' hd.2.1 he.2.1
            (.inr hd.2.2) (.inr he.2.2) r s h.2
          exact ⟨by rw [h.1], rfl⟩
      | invocation => simp_all [yield, Valid]
  | .invocation opening head parameters closing, e, hd, he, r, s, h => by
      cases e with
      | atom t =>
          obtain ⟨x, hx⟩ := he
          have hk := Token.kind_of_atom? hx
          simp_all [yield, Valid]
      | quote => simp_all [yield, Valid]
      | list => simp_all [yield, Valid]
      | invocation opening' head' parameters' closing' =>
          simp only [yield, List.cons_append, List.append_assoc, List.nil_append,
            List.cons.injEq] at h
          obtain ⟨rfl, hps⟩ := HeadDerivation.yield_append_inj hd.2.1 he.2.1
            (endsBefore_yieldAll hd.2.2.1 hd.2.2.2 r head)
            (endsBefore_yieldAll he.2.2.1 he.2.2.2 s head') h.2
          obtain ⟨rfl, rfl, rfl⟩ := yieldAll_append_inj parameters parameters' hd.2.2.1 he.2.2.1
            (.inl hd.2.2.2) (.inl he.2.2.2) r s hps
          exact ⟨by rw [h.1], rfl⟩

theorem yieldAll_append_inj : (ds es : List Derivation) → ValidAll ds → ValidAll es →
    {c c' : Token} → c.Closes → c'.Closes → (r s : List Token) →
    yieldAll ds ++ c :: r = yieldAll es ++ c' :: s → ds = es ∧ c = c' ∧ r = s
  | [], es, hd, he, c, c', hc, hc', r, s, h => by
      obtain ⟨t, ts, ht, hb | rfl⟩ := exists_yieldAll_append_eq_cons he (c := c') s
      · rw [ht] at h
        simp only [yieldAll, List.nil_append, List.cons.injEq] at h
        rcases hc with hc | hc
        · exact absurd (h.1 ▸ hc) hb.kind_ne.1
        · exact absurd (h.1 ▸ hc) hb.kind_ne.2.1
      · cases es with
        | nil => simpa [yieldAll] using h
        | cons e es =>
            obtain ⟨u, us, hu, hbu⟩ := exists_yield_eq_cons he.1
            simp only [yieldAll, hu, List.cons_append, List.nil_append, List.cons.injEq] at h
            rcases hc with hc | hc
            · exact absurd (h.1 ▸ hc) hbu.kind_ne.1
            · exact absurd (h.1 ▸ hc) hbu.kind_ne.2.1
  | d :: ds, es, hd, he, c, c', hc, hc', r, s, h => by
      cases es with
      | nil =>
          obtain ⟨u, us, hu, hbu⟩ := exists_yield_eq_cons hd.1
          simp only [yieldAll, hu, List.cons_append, List.nil_append, List.cons.injEq] at h
          rcases hc' with hc' | hc'
          · exact absurd (h.1 ▸ hc') hbu.kind_ne.1
          · exact absurd (h.1 ▸ hc') hbu.kind_ne.2.1
      | cons e es =>
          simp only [yieldAll, List.append_assoc] at h
          obtain ⟨rfl, hrest⟩ := yield_append_inj d e hd.1 he.1 _ _ h
          obtain ⟨rfl, hc, hr⟩ := yieldAll_append_inj ds es hd.2 he.2 hc hc' r s hrest
          exact ⟨rfl, hc, hr⟩

end

end Derivation

end HostedLisp
