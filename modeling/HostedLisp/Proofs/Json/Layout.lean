import HostedLisp.Json.Printer
import HostedLisp.Proofs.Json.Numeral
import Mathlib.Data.List.Forall2

namespace HostedLisp.Json

open Number

section Strings

theorem hexValue?_hexDigit {n : Nat} (hn : n < 16) : hexValue? (Text.hexDigit n) = some n := by
  revert n
  decide

theorem unit?_hex {n : Nat} (hn : n < 0x10000) (rest : List Char) :
    unit? (Text.hex 4 n ++ rest) = some (n, rest) := by
  have hdigit (k : Nat) : hexValue? (Text.hexDigit (k % 16)) = some (k % 16) :=
    hexValue?_hexDigit (Nat.mod_lt k (by decide))
  simp only [Text.hex, List.nil_append, List.cons_append, unit?, hdigit, Option.bind_eq_bind,
    Option.bind_some, Option.pure_def, Option.some.injEq, Prod.mk.injEq, and_true]
  omega

/-- A control character is no half of a pair, so the escape behind it does not belong to it. -/
theorem numericEscape?_hex {c : Char} (hc : c.toNat < 32) (rest : List Char) :
    numericEscape? (Text.hex 4 c.toNat ++ rest) = some (c, rest) := by
  have hhigh : isHighUnit c.toNat = false := by
    rw [isHighUnit, decide_eq_false (by omega), Bool.false_and]
  have hchar : unitChar c.toNat = c := by
    rw [unitChar, if_neg (by omega), Char.ofNat_toNat]
  unfold numericEscape?
  rw [unit?_hex (by omega)]
  simp only [Option.bind_eq_bind, Option.bind_some, hhigh, hchar, Bool.false_and]
  split
  · split <;> rfl
  · rfl

theorem string_letter {c e : Char} (he : e ≠ 'u') (hletter : letterEscape? e = some c) (fuel : Nat)
    (s : List Char) :
    string (fuel + 1) ('\\' :: e :: s) = (string fuel s).map fun r => (c :: r.1, r.2) := by
  rw [string, if_neg (by decide), if_pos rfl, if_neg he, hletter]

theorem string_escapeChar (c : Char) (fuel : Nat) (s : List Char) :
    string (fuel + 1) (escapeChar c ++ s) = (string fuel s).map fun r => (c :: r.1, r.2) := by
  have hletter := fun {d e : Char} (heq : c = d) (he : e ≠ 'u')
    (hd : letterEscape? e = some d) => heq ▸ string_letter he hd fuel s
  unfold escapeChar
  split
  · exact hletter ‹_› (by decide) rfl
  split
  · exact hletter ‹_› (by decide) rfl
  split
  · exact hletter ‹_› (by decide) rfl
  split
  · exact hletter ‹_› (by decide) rfl
  split
  · exact hletter ‹_› (by decide) rfl
  split
  · exact hletter ‹_› (by decide) rfl
  split
  · exact hletter ‹_› (by decide) rfl
  split
  · rename_i hcontrol
    rw [List.cons_append, List.cons_append, string, if_neg (by decide), if_pos rfl, if_pos rfl,
      numericEscape?_hex hcontrol]
  · rename_i hquote hbackslash _ _ _ _ _ hcontrol
    rw [List.cons_append, List.nil_append, string.eq_def]
    dsimp only
    rw [if_neg hquote, if_neg hbackslash, if_neg hcontrol]

theorem string_escaped (cs : List Char) {fuel : Nat} (h : cs.length < fuel) (rest : List Char) :
    string fuel (cs.flatMap escapeChar ++ '"' :: rest) = .ok (cs, rest) := by
  induction cs generalizing fuel with
  | nil =>
      obtain ⟨fuel, rfl⟩ := Nat.exists_eq_succ_of_ne_zero (Nat.ne_of_gt h)
      rfl
  | cons c cs ih =>
      obtain ⟨fuel, rfl⟩ := Nat.exists_eq_succ_of_ne_zero (Nat.ne_of_gt (Nat.zero_lt_of_lt h))
      rw [List.flatMap_cons, List.append_assoc, Nat.succ_eq_add_one, string_escapeChar,
        ih (Nat.lt_of_succ_lt_succ h)]
      rfl

theorem length_le_escaped (cs : List Char) : cs.length ≤ (cs.flatMap escapeChar).length := by
  induction cs with
  | nil => exact Nat.le_refl 0
  | cons c cs ih =>
      have hc : 0 < (escapeChar c).length := by
        unfold escapeChar
        split_ifs <;> exact Nat.succ_pos _
      rw [List.flatMap_cons, List.length_append, List.length_cons]
      omega

theorem string_quoted (cs rest : List Char) :
    let s := cs.flatMap escapeChar ++ '"' :: rest
    string (s.length + 1) s = .ok (cs, rest) := by
  intro s
  have hlength := length_le_escaped cs
  refine string_escaped cs ?_ rest
  rw [List.length_append]
  omega

end Strings

theorem exists_fuel_of_lt {k fuel : Nat} (h : k < fuel) : ∃ fuel', fuel = fuel' + 1 ∧ k ≤ fuel' :=
  ⟨fuel - 1, by omega, by omega⟩

/-- Whether a text begins with a character other than white space and a closing bracket. -/
def Opens (text : List Char) : Prop :=
  ∃ c cs, text = c :: cs ∧ isSpace c = false ∧ c ≠ ']' ∧ c ≠ '}'

/-- Whether a text is read as a value, whatever stands behind it that does not go on with a
number. -/
structure ReadsAs (text : List Char) (v : Value) : Prop where
  opens : Opens text
  reads : ∀ {rest : List Char} {fuel : Nat}, Closes rest → text.length ≤ fuel →
    value fuel (text ++ rest) = .ok (v, rest)

section Scalars

theorem readsAs_of_scalar {text : List Char} {c : Char} {cs : List Char} {v : Value}
    (htext : text = c :: cs) (hc : isSpace c = false ∧ c ∉ ['"', '[', ']', '{', '}'])
    (h : ∀ rest, Closes rest → scalar (text ++ rest) = .ok (v, rest)) : ReadsAs text v := by
  obtain ⟨hspace, hspecial⟩ := hc
  simp only [List.mem_cons, List.not_mem_nil, or_false, not_or] at hspecial
  obtain ⟨hquote, hbracket, hbracket', hbrace, hbrace'⟩ := hspecial
  refine ⟨⟨c, cs, htext, hspace, hbracket', hbrace'⟩, fun {rest fuel} hrest hfuel => ?_⟩
  have hscalar := h rest hrest
  subst htext
  obtain ⟨fuel, rfl, -⟩ := exists_fuel_of_lt hfuel
  rw [List.cons_append] at hscalar ⊢
  rw [value, if_neg hquote, if_neg hbracket, if_neg hbrace, hscalar]

theorem readsAs_numeral {n : Numeral} {v : Value}
    (h : ∀ rest, Closes rest → scalar (n.text ++ rest) = .ok (v, rest)) : ReadsAs n.text v := by
  obtain ⟨c, cs, htext, hc⟩ := n.exists_text_eq_cons
  refine readsAs_of_scalar htext ?_ h
  rcases hc with rfl | hc
  · decide
  · have hne : ∀ d, isDigit d = false → c ≠ d := by
      rintro d hd rfl
      rw [hc] at hd
      cases hd
    simp [isSpace, hne ' ' rfl, hne '\t' rfl, hne '\n' rfl, hne '\r' rfl, hne '"' rfl, hne '[' rfl,
      hne ']' rfl, hne '{' rfl, hne '}' rfl]

theorem readsAs_int {n : Int} (hn : n.natAbs < pow10 digitLimit) :
    ReadsAs (intText n).toList (.int n) := by
  rw [intText, String.toList_ofList, ← text_ofInt]
  refine readsAs_numeral fun rest hrest => ?_
  rw [text_ofInt]
  exact scalar_integerText hn hrest

theorem readsAs_double {x : Binary} (hx : Format.double.Holds x) :
    ReadsAs (numberText x).toList (.double x) := by
  have htext : (numberText x).toList = x.text := by
    cases x with
    | finite negative m e => exact String.toList_ofList
    | infinite => cases hx
    | nan => cases hx
  obtain ⟨n, hn, -⟩ := isFractional_text hx
  rw [htext, hn]
  refine readsAs_numeral fun rest hrest => ?_
  rw [← hn]
  exact scalar_doubleText hx hrest

theorem readsAs_null : ReadsAs "null".toList .null :=
  readsAs_of_scalar rfl (by decide) fun _ _ => rfl

theorem readsAs_bool (b : Bool) : ReadsAs (booleanText b).toList (.bool b) := by
  cases b with
  | true => exact readsAs_of_scalar rfl (by decide) fun _ _ => rfl
  | false => exact readsAs_of_scalar rfl (by decide) fun _ _ => rfl

/-- The characters of a string, escaped and between quotes. -/
def quotedText (cs : List Char) : List Char := '"' :: (cs.flatMap escapeChar ++ ['"'])

theorem toList_stringText (s : String) : (stringText s).toList = quotedText s.toList := by
  rw [stringText, String.toList_ofList]
  rfl

theorem readsAs_string (s : String) : ReadsAs (stringText s).toList (.str s) := by
  rw [toList_stringText]
  refine ⟨⟨_, _, rfl, by decide⟩, fun {rest fuel} _ hfuel => ?_⟩
  obtain ⟨fuel, rfl, -⟩ := exists_fuel_of_lt hfuel
  rw [quotedText, List.cons_append, List.append_assoc, value, if_pos rfl, List.singleton_append,
    string_quoted, Except.map, String.ofList_toList]

end Scalars

section Brackets

/-- White space. -/
def IsGap (s : List Char) : Prop := ∀ c ∈ s, isSpace c = true

variable {gap gap' : List Char}

theorem skipSpace_gap (hgap : IsGap gap) {c : Char} (hc : isSpace c = false) (s : List Char) :
    skipSpace (gap ++ c :: s) = c :: s := by
  rw [skipSpace, List.dropWhile_append_of_pos hgap, List.dropWhile_cons_of_neg (by simp [hc])]

theorem Closes.cons {c : Char} (hc : Closes [c]) (s : List Char) : Closes (c :: s) := hc

theorem closes_gap (hgap : IsGap gap) {c : Char} (hc : Closes [c]) (s : List Char) :
    Closes (gap ++ c :: s) := by
  cases gap with
  | nil => exact hc.cons s
  | cons d gap =>
      rintro _ ⟨⟩
      have hd := hgap d List.mem_cons_self
      simp only [isSpace, Bool.or_eq_true, beq_iff_eq] at hd
      rcases hd with ((rfl | rfl) | rfl) | rfl <;> decide

theorem Opens.skipSpace_append {text : List Char} (h : Opens text) (hgap : IsGap gap)
    (s : List Char) : skipSpace (gap ++ (text ++ s)) = text ++ s := by
  obtain ⟨c, cs, rfl, hc, -⟩ := h
  exact skipSpace_gap hgap hc (cs ++ s)

theorem Opens.intercalate {text : List Char} (h : Opens text) (sep : List Char)
    (texts : List (List Char)) : Opens (sep.intercalate (text :: texts)) := by
  obtain ⟨c, cs, rfl, hc⟩ := h
  cases texts with
  | nil => exact ⟨c, _, List.intercalate_singleton, hc⟩
  | cons t texts => exact ⟨c, _, List.intercalate_cons_cons, hc⟩

section Items

variable {fuel : Nat} {s r r' rest : List Char} {v : Value} {vs : List Value}

theorem items_last (hvalue : value fuel s = .ok (v, r)) (hr : skipSpace r = ']' :: rest) :
    items (fuel + 1) s = .ok ([v], rest) := by
  rw [items, hvalue]
  dsimp only [bind, Except.bind]
  rw [hr]
  rfl

theorem items_more (hvalue : value fuel s = .ok (v, r)) (hr : skipSpace r = ',' :: r')
    (hrest : items fuel (skipSpace r') = .ok (vs, rest)) :
    items (fuel + 1) s = .ok (v :: vs, rest) := by
  rw [items, hvalue]
  dsimp only [bind, Except.bind]
  rw [hr]
  simp only [hrest]
  rfl

theorem items_joined {texts : List (List Char)} (h : List.Forall₂ ReadsAs texts vs)
    (hne : texts ≠ []) (hgap : IsGap gap) (hgap' : IsGap gap') (rest : List Char)
    (hfuel : ((',' :: gap).intercalate texts).length < fuel) :
    items fuel ((',' :: gap).intercalate texts ++ (gap' ++ ']' :: rest)) = .ok (vs, rest) := by
  induction h generalizing fuel with
  | nil => exact absurd rfl hne
  | @cons t v texts vs ht hts ih =>
      obtain ⟨fuel, rfl, hle⟩ := exists_fuel_of_lt hfuel
      cases hts with
      | nil =>
          rw [List.intercalate_singleton] at hle ⊢
          have hclosing : Closes (gap' ++ ']' :: rest) := closes_gap hgap' (by decide) rest
          exact items_last (ht.reads hclosing hle) (skipSpace_gap hgap' rfl rest)
      | @cons t' v' texts vs ht' hts =>
          rw [List.intercalate_cons_cons, List.length_append, List.length_append,
            List.length_cons] at hle
          have hshort : ((',' :: gap).intercalate (t' :: texts)).length < fuel := by omega
          have hrest := ih (List.cons_ne_nil _ _) hshort
          rw [List.intercalate_cons_cons, List.append_assoc, List.append_assoc, List.cons_append]
          have hclosing : ∀ s, Closes (',' :: s) := Closes.cons (by decide)
          refine items_more (ht.reads (hclosing _) (by omega)) rfl ?_
          rw [(ht'.opens.intercalate _ _).skipSpace_append hgap]
          exact hrest

end Items

section Entries

variable {fuel : Nat} {text r s rest : List Char} {v : Value} {es : List (Value × Value)}

/-- The text of an entry of a map: its key as a string and its value, with a colon between them. -/
def entryText (key text : List Char) : List Char := quotedText key ++ ':' :: ' ' :: text

/-- Whether a text is an entry of a map. -/
inductive IsEntry : List Char → Value × Value → Prop
  | intro (key : List Char) {text : List Char} {v : Value} (h : ReadsAs text v) :
      IsEntry (entryText key text) (.str (String.ofList key), v)

theorem IsEntry.opens {e : Value × Value} (h : IsEntry text e) : Opens text := by
  cases h
  exact ⟨'"', _, rfl, by decide⟩

theorem entryText_append (key text r : List Char) :
    entryText key text ++ r =
      '"' :: (key.flatMap escapeChar ++ '"' :: ':' :: ' ' :: (text ++ r)) := by
  simp only [entryText, quotedText, List.cons_append, List.append_assoc, List.nil_append]

theorem value_of_entry (h : ReadsAs text v) (hr : Closes r) (hfuel : text.length ≤ fuel) :
    value fuel (skipSpace (' ' :: (text ++ r))) = .ok (v, r) := by
  have hspace : IsGap [' '] := List.forall_mem_singleton.mpr rfl
  have hskip := h.opens.skipSpace_append hspace r
  rw [List.singleton_append] at hskip
  rw [hskip]
  exact h.reads hr hfuel

theorem entries_last (h : ReadsAs text v) (hclosing : Closes r) (hfuel : text.length ≤ fuel)
    (hr : skipSpace r = '}' :: rest) (key : List Char) :
    entries (fuel + 1) (entryText key text ++ r) = .ok ([(.str (String.ofList key), v)], rest) := by
  have hcolon : ∀ s, skipSpace (':' :: s) = ':' :: s := fun _ => rfl
  rw [entryText_append, entries, string_quoted]
  simp only [bind, Except.bind, hcolon, value_of_entry h hclosing hfuel, hr]
  rfl

theorem entries_more (h : ReadsAs text v) (hclosing : Closes r) (hfuel : text.length ≤ fuel)
    (hr : skipSpace r = ',' :: s) (hrest : entries fuel (skipSpace s) = .ok (es, rest))
    (key : List Char) :
    entries (fuel + 1) (entryText key text ++ r) =
      .ok ((.str (String.ofList key), v) :: es, rest) := by
  have hcolon : ∀ s, skipSpace (':' :: s) = ':' :: s := fun _ => rfl
  rw [entryText_append, entries, string_quoted]
  simp only [bind, Except.bind, hcolon, value_of_entry h hclosing hfuel, hr, hrest]
  rfl

theorem length_le_entryText (key text : List Char) : text.length ≤ (entryText key text).length := by
  rw [entryText, List.length_append, List.length_cons, List.length_cons]
  omega

theorem entries_joined {texts : List (List Char)} (h : List.Forall₂ IsEntry texts es)
    (hne : texts ≠ []) (hgap : IsGap gap) (hgap' : IsGap gap') (rest : List Char)
    (hfuel : ((',' :: gap).intercalate texts).length < fuel) :
    entries fuel ((',' :: gap).intercalate texts ++ (gap' ++ '}' :: rest)) = .ok (es, rest) := by
  induction h generalizing fuel with
  | nil => exact absurd rfl hne
  | @cons t e texts es he hes ih =>
      obtain ⟨fuel, rfl, hle⟩ := exists_fuel_of_lt hfuel
      obtain @⟨key, text, v, hv⟩ := he
      have hlength := length_le_entryText key text
      cases hes with
      | nil =>
          rw [List.intercalate_singleton] at hle ⊢
          have hclosing : Closes (gap' ++ '}' :: rest) := closes_gap hgap' (by decide) rest
          exact entries_last hv hclosing (Nat.le_trans hlength hle) (skipSpace_gap hgap' rfl rest)
            key
      | @cons t' e' texts es he' hes =>
          rw [List.intercalate_cons_cons, List.length_append, List.length_append,
            List.length_cons] at hle
          have hshort : ((',' :: gap).intercalate (t' :: texts)).length < fuel := by omega
          have hrest := ih (List.cons_ne_nil _ _) hshort
          rw [List.intercalate_cons_cons, List.append_assoc, List.append_assoc, List.cons_append]
          have hclosing : ∀ s, Closes (',' :: s) := Closes.cons (by decide)
          refine entries_more hv (hclosing _) (by omega) rfl ?_ key
          rw [(he'.opens.intercalate _ _).skipSpace_append hgap]
          exact hrest

end Entries

section Values

variable {s text rest : List Char} {fuel : Nat} {texts : List (List Char)} {inner : List Char}

theorem value_listOf {vs : List Value} (htext : Opens text) (hs : skipSpace s = text ++ rest)
    {left : List Char} (h : items fuel (text ++ rest) = .ok (vs, left)) :
    value (fuel + 1) ('[' :: s) = .ok (.listOf vs, left) := by
  obtain ⟨c, cs, rfl, -, hc, -⟩ := htext
  rw [value, if_neg (by decide), if_pos rfl, hs]
  split
  · rename_i heq
    exact absurd (List.cons.inj heq).1 hc
  · rw [h]
    rfl

theorem value_mapOf {es : List (Value × Value)} (htext : Opens text)
    (hs : skipSpace s = text ++ rest) {left : List Char}
    (h : entries fuel (text ++ rest) = .ok (es, left)) :
    value (fuel + 1) ('{' :: s) = .ok (.mapOf es, left) := by
  obtain ⟨c, cs, rfl, -, -, hc⟩ := htext
  rw [value, if_neg (by decide), if_neg (by decide), if_pos rfl, hs]
  split
  · rename_i heq
    exact absurd (List.cons.inj heq).1 hc
  · rw [h]
    rfl

/-- Texts between a bracket and another one, with white space at both ends and behind each comma. -/
def bracketed (opening closing : Char) (inner gap gap' : List Char) (texts : List (List Char)) :
    List Char :=
  opening :: (inner ++ ((',' :: gap).intercalate texts ++ (gap' ++ [closing])))

theorem readsAs_list {vs : List Value} (h : List.Forall₂ ReadsAs texts vs) (hne : texts ≠ [])
    (hinner : IsGap inner) (hgap : IsGap gap) (hgap' : IsGap gap') :
    ReadsAs (bracketed '[' ']' inner gap gap' texts) (.listOf vs) := by
  refine ⟨⟨'[', _, rfl, by decide⟩, fun {rest fuel} _ hfuel => ?_⟩
  obtain ⟨fuel, rfl, hle⟩ := exists_fuel_of_lt hfuel
  have hopens : Opens ((',' :: gap).intercalate texts) := by
    cases h with
    | nil => exact absurd rfl hne
    | cons ht _ => exact ht.opens.intercalate _ _
  simp only [bracketed, List.cons_append, List.append_assoc, List.nil_append]
  simp only [List.length_append, List.length_singleton] at hle
  exact value_listOf hopens (hopens.skipSpace_append hinner _)
    (items_joined h hne hgap hgap' rest (by omega))

theorem readsAs_map {es : List (Value × Value)} (h : List.Forall₂ IsEntry texts es)
    (hne : texts ≠ []) (hinner : IsGap inner) (hgap : IsGap gap) (hgap' : IsGap gap') :
    ReadsAs (bracketed '{' '}' inner gap gap' texts) (.mapOf es) := by
  refine ⟨⟨'{', _, rfl, by decide⟩, fun {rest fuel} _ hfuel => ?_⟩
  obtain ⟨fuel, rfl, hle⟩ := exists_fuel_of_lt hfuel
  have hopens : Opens ((',' :: gap).intercalate texts) := by
    cases h with
    | nil => exact absurd rfl hne
    | cons he _ => exact he.opens.intercalate _ _
  simp only [bracketed, List.cons_append, List.append_assoc, List.nil_append]
  simp only [List.length_append, List.length_singleton] at hle
  exact value_mapOf hopens (hopens.skipSpace_append hinner _)
    (entries_joined h hne hgap hgap' rest (by omega))

theorem readsAs_nil : ReadsAs ['[', ']'] (.listOf []) := by
  refine ⟨⟨'[', _, rfl, by decide⟩, fun {rest fuel} _ hfuel => ?_⟩
  obtain ⟨fuel, rfl, -⟩ := exists_fuel_of_lt hfuel
  rw [List.cons_append, value, if_neg (by decide), if_pos rfl]
  rfl

theorem readsAs_empty : ReadsAs ['{', '}'] (.map []) := by
  refine ⟨⟨'{', _, rfl, by decide⟩, fun {rest fuel} _ hfuel => ?_⟩
  obtain ⟨fuel, rfl, -⟩ := exists_fuel_of_lt hfuel
  rw [List.cons_append, value, if_neg (by decide), if_neg (by decide), if_pos rfl]
  rfl

end Values

end Brackets

end HostedLisp.Json
