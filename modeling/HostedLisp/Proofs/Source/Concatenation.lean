import HostedLisp.Proofs.Source.Acceptance
import HostedLisp.Proofs.Source.Boundary

namespace HostedLisp

open Segment Partition Derivation

/-- A text of some blanks. -/
def blanks (n : Nat) : String := String.ofList (List.replicate n ' ')

/-- The token at a later offset. -/
def Token.moved (k : Nat) (t : Token) : Token := { t with position := t.position + k }

def Span.moved (k : Nat) (s : Span) : Span := ⟨s.start.map (.moved k), s.stop.map (.moved k)⟩

namespace Node

mutual

/-- The node read at a later offset. -/
def moved (k : Nat) : Node → Node
  | error message span => error message (span.moved k)
  | quote inner span => quote (moved k inner) (span.moved k)
  | invocation head parameters span =>
      invocation (moved k head) (movedAll k parameters) (span.moved k)
  | list items span => list (movedAll k items) (span.moved k)
  | identifier name span => identifier name (span.moved k)
  | instanceMember member span => instanceMember member (span.moved k)
  | staticMember path member span => staticMember path member (span.moved k)
  | literal value span => literal value (span.moved k)

/-- The nodes read at later offsets. -/
def movedAll (k : Nat) : List Node → List Node
  | [] => []
  | x :: xs => moved k x :: movedAll k xs

end

theorem span_moved (k : Nat) (x : Node) : (x.moved k).span = x.span.moved k := by
  cases x <;> rfl

theorem movedAll_ne_nil (k : Nat) {xs : List Node} (h : xs ≠ []) : movedAll k xs ≠ [] := by
  cases xs with
  | nil => exact absurd rfl h
  | cons x xs => exact List.cons_ne_nil _ _

end Node

namespace Segment

variable {offset : Nat} {ss : List Segment} {ts : List Token} {rest : List Char}

theorem spell_before_newline (h : Spell offset ss ts rest) (r : List Char) :
    Spell offset ss ts (rest ++ '\n' :: r) :=
  spell_of_mayFollow h (.append_right rfl rest r)

theorem spell_moved (h : Spell offset ss ts rest) (k : Nat) :
    Spell (offset + k) ss (ts.map (Token.moved k)) rest := by
  induction ss generalizing offset ts with
  | nil =>
      cases ts with
      | nil => trivial
      | cons t ts => cases h
  | cons s ss ih =>
      cases ts with
      | nil => cases h
      | cons t ts =>
          obtain ⟨hgap, hposition, hlexeme, htail⟩ := h
          refine ⟨hgap, ?_, hlexeme.of_mayFollow (.refl _) _, ?_⟩
          · rw [Token.moved, hposition, Nat.add_right_comm]
          · rw [Nat.add_right_comm]
            exact ih htail

end Segment

namespace Lexer

variable {lx lx' : Lexer}

theorem tokens_of_next_eq (h : lx.next = lx'.next) : lx.tokens = lx'.tokens := by
  cases hfinal : lx'.next.1.isFinal with
  | true =>
      rw [tokens_of_final hfinal, tokens_of_final (by rw [h]; exact hfinal), h]
  | false =>
      rw [tokens_of_not_final hfinal, tokens_of_not_final (by rw [h]; exact hfinal), h]

theorem tokens_of_rest_eq (hrest : lx.rest = lx'.rest) (hposition : lx.position = lx'.position) :
    lx.tokens = lx'.tokens := by
  obtain ⟨p, ts, final, hdivides⟩ := exists_divides lx
  rw [hdivides.tokens_eq]
  rw [hrest, hposition] at hdivides
  rw [hdivides.tokens_eq]

theorem tokens_of_gap {gap s : List Char} (hgap : ∀ c ∈ gap, isGap c = true)
    (h : lx.rest = gap ++ s) : lx.tokens = (⟨s, lx.position + gap.length, 0⟩ : Lexer).tokens := by
  have hskip : lx.skipGap = (⟨s, lx.position + gap.length, lx.lastStart⟩ : Lexer).skipGap := by
    simp only [skipGap, h, List.dropWhile_append_of_pos hgap, List.takeWhile_append_of_pos hgap,
      List.length_append, Nat.add_assoc]
  have hnext : lx.next = (⟨s, lx.position + gap.length, lx.lastStart⟩ : Lexer).next := by
    rw [next, next, hskip]
  rw [tokens_of_next_eq hnext]
  exact tokens_of_rest_eq rfl rfl

end Lexer

section Texts

variable {a b : String} {ts : List Token} {eof : Token}

theorem exists_divides_of_tokenize (heof : eof.kind = .endOfInput) (h : tokenize a = ts ++ [eof]) :
    ∃ ss last, a.toList = charsOf ss ++ last ∧ Spell 0 ss ts last ∧ ∀ c ∈ last, isGap c = true := by
  obtain ⟨⟨ss, last, broken⟩, us, final, hp⟩ := exists_divides (Lexer.ofText a)
  have htokens : tokenize a = us ++ [final] := hp.tokens_eq
  obtain ⟨rfl, hlast⟩ := List.append_inj' (htokens.symm.trans h) rfl
  obtain rfl := List.singleton_inj.mp hlast
  rcases hp.final_eq with ⟨hnil, -⟩ | ⟨f, position, hfinal, -⟩
  · obtain rfl : broken = [] := hnil
    have hchars := hp.chars_eq
    have hspell := hp.spell
    simp only [List.append_nil] at hchars hspell
    exact ⟨ss, last, hchars, hspell, hp.last_gap⟩
  · rw [hfinal] at heof
    cases heof

theorem tokenize_blanks (k : Nat) (b : String) :
    tokenize (blanks k ++ b) = (⟨b.toList, k, 0⟩ : Lexer).tokens := by
  have hgap : ∀ c ∈ List.replicate k ' ', isGap c = true := by
    intro c hc
    rw [List.eq_of_mem_replicate hc]
    rfl
  have hrest : (Lexer.ofText (blanks k ++ b)).rest = List.replicate k ' ' ++ b.toList := by
    simp [Lexer.ofText, blanks]
  rw [tokenize, Lexer.tokens_of_gap hgap hrest, List.length_replicate]
  exact Lexer.tokens_of_rest_eq rfl (Nat.zero_add k)

theorem exists_tokenize_blanks (heof : eof.kind = .endOfInput) (h : tokenize b = ts ++ [eof])
    (k : Nat) :
    ∃ eof' : Token, eof'.kind = .endOfInput ∧
      tokenize (blanks k ++ b) = ts.map (Token.moved k) ++ [eof'] := by
  obtain ⟨ss, last, hchars, hspell, hlast⟩ := exists_divides_of_tokenize heof h
  let lx : Lexer := ⟨b.toList, k, 0⟩
  have hmoved : Spell lx.position ss (ts.map (Token.moved k)) (last ++ []) := by
    have := spell_moved hspell k
    rwa [Nat.zero_add, ← List.append_nil last] at this
  have hdivides : (⟨ss, last, []⟩ : Partition).Divides lx.position lx.rest (ts.map (Token.moved k))
      ⟨k + b.toList.length, .endOfInput, none⟩ :=
    ⟨by rw [List.append_nil]; exact hchars, hmoved, hlast, .inl ⟨rfl, rfl⟩⟩
  exact ⟨_, rfl, by rw [tokenize_blanks, ← hdivides.tokens_eq]⟩

theorem tokenize_lines (heof : eof.kind = .endOfInput) (h : tokenize a = ts ++ [eof]) (b : String) :
    tokenize (a ++ "\n" ++ b) = ts ++ tokenize (blanks (a.length + 1) ++ b) := by
  obtain ⟨ss, last, hchars, hspell, hlast⟩ := exists_divides_of_tokenize heof h
  have hrest : (Lexer.ofText (a ++ "\n" ++ b)).rest = charsOf ss ++ (last ++ '\n' :: b.toList) := by
    simp [Lexer.ofText, hchars]
  obtain ⟨lx, htokens, hrest', hposition⟩ :=
    exists_tokens_eq_append (spell_before_newline hspell b.toList) hrest
  have hgap : ∀ c ∈ last ++ ['\n'], isGap c = true := by
    intro c hc
    rcases List.mem_append.mp hc with hc | hc
    · exact hlast c hc
    · rw [List.mem_singleton.mp hc]
      rfl
  have hlength : lx.position + (last ++ ['\n']).length = a.length + 1 := by
    change lx.position = 0 + (charsOf ss).length at hposition
    rw [hposition, ← String.length_toList, hchars, List.length_append, List.length_append,
      List.length_singleton, Nat.zero_add, Nat.add_assoc]
  have hafter : lx.rest = last ++ ['\n'] ++ b.toList := by
    rw [hrest', List.append_assoc, List.singleton_append]
  rw [tokenize_blanks, tokenize, htokens, Lexer.tokens_of_gap hgap hafter, hlength]

end Texts

section Derivations

variable (k : Nat)

def HeadDerivation.moved : HeadDerivation → HeadDerivation
  | instanceMember dot name => instanceMember (dot.moved k) (name.moved k)
  | identifier name => identifier (name.moved k)
  | staticMember first more slash member =>
      staticMember (first.moved k) (more.map (Prod.map (Token.moved k) (Token.moved k)))
        (slash.moved k) (member.moved k)

namespace Derivation

mutual

/-- The derivation from tokens at later offsets. -/
def moved : Derivation → Derivation
  | atom t => atom (t.moved k)
  | quote mark inner => quote (mark.moved k) (moved inner)
  | list opening items closing => list (opening.moved k) (movedAll items) (closing.moved k)
  | invocation opening head parameters closing =>
      invocation (opening.moved k) (head.moved k) (movedAll parameters) (closing.moved k)

/-- The derivations from tokens at later offsets. -/
def movedAll : List Derivation → List Derivation
  | [] => []
  | d :: ds => moved d :: movedAll ds

end

end Derivation

theorem HeadDerivation.yield_moved (h : HeadDerivation) :
    (h.moved k).yield = h.yield.map (Token.moved k) := by
  cases h with
  | staticMember first more slash member =>
      have hsegments : segments (more.map (Prod.map (Token.moved k) (Token.moved k))) =
          (segments more).map (Token.moved k) := by
        rw [segments, segments, List.flatMap_map, List.map_flatMap]
        rfl
      simp [moved, yield, hsegments]
  | _ => rfl

theorem HeadDerivation.valid_moved {h : HeadDerivation} (hh : h.Valid) : (h.moved k).Valid := by
  cases h with
  | staticMember first more slash member =>
      obtain ⟨hfirst, hmore, hslash, hmember⟩ := hh
      refine ⟨hfirst, fun s' hs' => ?_, hslash, hmember⟩
      obtain ⟨s, hs, rfl⟩ := List.mem_map.mp hs'
      exact hmore s hs
  | _ => exact hh

theorem HeadDerivation.tree_moved (h : HeadDerivation) : (h.moved k).tree = h.tree.moved k := by
  cases h with
  | staticMember first more slash member =>
      rw [moved, tree, tree, List.map_map]
      rfl
  | _ => rfl

theorem Token.atom?_moved (t : Token) : (t.moved k).atom? = t.atom?.map (Node.moved k) := by
  unfold atom?
  change (if t.kind = .identifier then _ else t.literal?.map _) = _
  split
  · rfl
  · cases t.literal? <;> rfl

namespace Derivation

mutual

theorem yield_moved : (d : Derivation) → (d.moved k).yield = d.yield.map (Token.moved k)
  | atom t => rfl
  | quote mark inner => by rw [moved, yield, yield, yield_moved inner, List.map_cons]
  | list opening items closing => by simp [moved, yield, yieldAll_movedAll items]
  | invocation opening head parameters closing => by
      simp [moved, yield, head.yield_moved k, yieldAll_movedAll parameters]
termination_by structural d => d

theorem yieldAll_movedAll : (ds : List Derivation) →
    yieldAll (movedAll k ds) = (yieldAll ds).map (Token.moved k)
  | [] => rfl
  | d :: ds => by
      rw [movedAll, yieldAll, yieldAll, yield_moved d, yieldAll_movedAll ds, List.map_append]
termination_by structural ds => ds

end

mutual

theorem valid_moved : (d : Derivation) → d.Valid → (d.moved k).Valid
  | atom t, ⟨x, hx⟩ => ⟨x.moved k, by rw [t.atom?_moved, hx]; rfl⟩
  | quote mark inner, h => ⟨h.1, valid_moved inner h.2⟩
  | list opening items closing, h => ⟨h.1, validAll_movedAll items h.2.1, h.2.2⟩
  | invocation opening head parameters closing, h =>
      ⟨h.1, HeadDerivation.valid_moved k h.2.1, validAll_movedAll parameters h.2.2.1, h.2.2.2⟩
termination_by structural d => d

theorem validAll_movedAll : (ds : List Derivation) → ValidAll ds → ValidAll (movedAll k ds)
  | [], _ => trivial
  | d :: ds, h => ⟨valid_moved d h.1, validAll_movedAll ds h.2⟩
termination_by structural ds => ds

end

mutual

theorem tree_moved : (d : Derivation) → d.Valid → (d.moved k).tree = d.tree.moved k
  | atom t, ⟨x, hx⟩ => by rw [moved, tree, tree, t.atom?_moved, hx]; rfl
  | quote mark inner, h => by
      rw [moved, tree, tree, tree_moved inner h.2, Node.span_moved]
      rfl
  | list opening items closing, h => by
      rw [moved, tree, tree, treeAll_movedAll items h.2.1]
      rfl
  | invocation opening head parameters closing, h => by
      rw [moved, tree, tree, head.tree_moved, treeAll_movedAll parameters h.2.2.1]
      rfl
termination_by structural d => d

theorem treeAll_movedAll : (ds : List Derivation) → ValidAll ds →
    treeAll (movedAll k ds) = Node.movedAll k (treeAll ds)
  | [], _ => rfl
  | d :: ds, h => by
      rw [movedAll, treeAll, treeAll, Node.movedAll, tree_moved d h.1, treeAll_movedAll ds h.2]
termination_by structural ds => ds

end

theorem treeAll_append (ds es : List Derivation) :
    treeAll (ds ++ es) = treeAll ds ++ treeAll es := by
  induction ds with
  | nil => rfl
  | cons d ds ih => simp [treeAll, ih]

end Derivation

end Derivations

theorem parseMany_blanks {b : String} {ys : List Node} (h : parseMany b = .ok ys) (k : Nat) :
    parseMany (blanks k ++ b) = .ok (Node.movedAll k ys) := by
  obtain ⟨ds, hds, hspells, rfl⟩ := parseMany_eq_ok_iff.mp h
  obtain ⟨eof, heof, htokens⟩ := spells_iff.mp hspells
  obtain ⟨eof', heof', htokens'⟩ := exists_tokenize_blanks heof htokens k
  rw [← yieldAll_movedAll] at htokens'
  exact parseMany_eq_ok_iff.mpr ⟨_, validAll_movedAll k ds hds,
    spells_iff.mpr ⟨eof', heof', htokens'⟩, treeAll_movedAll k ds hds⟩

theorem parseMany_lines {a b : String} {xs ys : List Node} (ha : parseMany a = .ok xs)
    (hb : parseMany b = .ok ys) :
    parseMany (a ++ "\n" ++ b) = .ok (xs ++ Node.movedAll (a.length + 1) ys) := by
  obtain ⟨es, hes, hesSpells, htrees⟩ :=
    parseMany_eq_ok_iff.mp (parseMany_blanks hb (a.length + 1))
  obtain ⟨ds, hds, hdsSpells, rfl⟩ := parseMany_eq_ok_iff.mp ha
  obtain ⟨eof, heof, htokens⟩ := spells_iff.mp hdsSpells
  obtain ⟨eof', heof', htokens'⟩ := spells_iff.mp hesSpells
  have hlines : tokenize (a ++ "\n" ++ b) = yieldAll (ds ++ es) ++ [eof'] := by
    rw [tokenize_lines heof htokens, htokens', yieldAll_append, List.append_assoc]
  exact parseMany_eq_ok_iff.mpr ⟨ds ++ es, validAll_append.mpr ⟨hds, hes⟩,
    spells_iff.mpr ⟨eof', heof', hlines⟩, by rw [treeAll_append, htrees]⟩

end HostedLisp
