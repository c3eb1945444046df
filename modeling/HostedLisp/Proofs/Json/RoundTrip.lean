import HostedLisp.Proofs.Evaluation.PrintedData
import HostedLisp.Proofs.Json.Layout
import HostedLisp.Proofs.Value.PlainData
import HostedLisp.Proofs.Value.Reading

/-!
Data as JSON text and back. Main statement: the JSON text of a list or map is taken for JSON without
being told so, and is read as the plain data of the value, in either layout; and the text of that
plain data is the same again.
-/

namespace HostedLisp

open Number

namespace Value

section Keys

/-- Whether all keys of a map are texts, and no two of them are the same. -/
structure HasTextKeys (entries : List (Value × Value)) : Prop where
  isText : ∀ e ∈ entries, ∃ s, e.1 = str s
  nodup : (entries.map Prod.fst).Nodup

variable {entries : List (Value × Value)} {key value : Value}

theorem same_str (s t : String) : (str s).same (str t) = (s == t) := by
  simp only [same]

theorem insertEntry_of_new (h : ∀ e ∈ entries, e.1.same key = false) :
    insertEntry key value entries = entries ++ [(key, value)] := by
  induction entries with
  | nil => rfl
  | cons e entries ih =>
      obtain ⟨hfirst, hrest⟩ := List.forall_mem_cons.mp h
      rw [insertEntry, hfirst, ih hrest]
      rfl

theorem map_fst_insertEntry_of_mem (h : ¬ ∀ e ∈ entries, e.1.same key = false) :
    (insertEntry key value entries).map Prod.fst = entries.map Prod.fst := by
  induction entries with
  | nil => exact absurd (List.forall_mem_nil _) h
  | cons e entries ih =>
      rw [insertEntry]
      split
      · rfl
      · rename_i hfirst
        have hrest : ¬ ∀ e ∈ entries, e.1.same key = false := fun hrest =>
          h (List.forall_mem_cons.mpr ⟨Bool.eq_false_iff.mpr hfirst, hrest⟩)
        exact congrArg (e.1 :: ·) (ih hrest)

theorem notMem_keys_of_new {s : String} (h : ∀ e ∈ entries, e.1.same (str s) = false) :
    str s ∉ entries.map Prod.fst := by
  intro hmem
  obtain ⟨e, he, hkey⟩ := List.mem_map.mp hmem
  have hsame := h e he
  rw [hkey, same_str, beq_self_eq_true] at hsame
  cases hsame

theorem HasTextKeys.insertEntry (h : HasTextKeys entries) (s : String) (value : Value) :
    HasTextKeys (insertEntry (str s) value entries) where
  isText e he := by
    have hall : ∀ e ∈ entries, (∃ s, e.1 = str s) ∧ True := fun e he => ⟨h.isText e he, trivial⟩
    exact (forall_mem_insertEntry (P := fun k => ∃ s, k = str s) (Q := fun _ => True) hall
      ⟨s, rfl⟩ trivial e he).1
  nodup := by
    by_cases hnew : ∀ e ∈ entries, e.1.same (str s) = false
    · rw [insertEntry_of_new hnew, List.map_append, List.map_singleton]
      refine List.nodup_append.mpr ⟨h.nodup, List.nodup_singleton _, fun k hk k' hk' => ?_⟩
      rw [List.mem_singleton.mp hk']
      rintro rfl
      exact notMem_keys_of_new hnew hk
    · rw [map_fst_insertEntry_of_mem hnew]
      exact h.nodup

theorem hasTextKeys_insertEntries (h : ∀ e ∈ entries, ∃ s, e.1 = str s) :
    HasTextKeys (entries.foldl (fun m e => insertEntry e.1 e.2 m) []) := by
  have hfold : ∀ built, HasTextKeys built →
      HasTextKeys (entries.foldl (fun m e => insertEntry e.1 e.2 m) built) := by
    induction entries with
    | nil => exact fun _ => id
    | cons e entries ih =>
        obtain ⟨⟨s, hs⟩, hrest⟩ := List.forall_mem_cons.mp h
        intro built hbuilt
        rw [List.foldl_cons, hs]
        exact ih hrest _ (hbuilt.insertEntry s e.2)
  exact hfold [] ⟨List.forall_mem_nil _, List.nodup_nil⟩

theorem mapOf_eq_map (h : HasTextKeys entries) : mapOf entries = map entries := by
  have hfold : ∀ built, HasTextKeys (built ++ entries) →
      entries.foldl (fun m e => Value.insertEntry e.1 e.2 m) built = built ++ entries := by
    clear h
    induction entries with
    | nil => exact fun built _ => (List.append_nil built).symm
    | cons e entries ih =>
        intro built hall
        have hnew : ∀ e' ∈ built, e'.1.same e.1 = false := by
          intro e' he'
          obtain ⟨s, hs⟩ := hall.isText e' (List.mem_append_left _ he')
          obtain ⟨t, ht⟩ := hall.isText e (List.mem_append_right _ List.mem_cons_self)
          have hne : e'.1 ≠ e.1 := by
            have hnodup := hall.nodup
            rw [List.map_append] at hnodup
            exact (List.nodup_append.mp hnodup).2.2 _ (List.mem_map_of_mem he') _
              (List.mem_map_of_mem List.mem_cons_self)
          rw [hs, ht] at hne ⊢
          rw [same_str, beq_eq_false_iff_ne]
          exact fun heq => hne (congrArg str heq)
        rw [List.foldl_cons, insertEntry_of_new hnew, ih, List.append_assoc]
        · rfl
        · rw [List.append_assoc]
          exact hall
  exact congrArg map (hfold [] h)

end Keys

mutual

/-- Whether a value is what a JSON text stands for: null, a truth value, an integer that can be
written, a finite double, a text, a list, or a map with distinct texts as keys. -/
def IsJson : Value → Prop
  | null => True
  | bool _ => True
  | int n => n.natAbs < pow10 digitLimit
  | double x => Format.double.Holds x
  | str _ => True
  | list id items => id = 0 ∧ AllJson items
  | map entries => HasTextKeys entries ∧ EntriesJson entries
  | _ => False
termination_by structural v => v

/-- Whether all values are such ones. -/
def AllJson : List Value → Prop
  | [] => True
  | v :: vs => IsJson v ∧ AllJson vs
termination_by structural vs => vs

/-- Whether the values of all keys are such ones. -/
def EntriesJson : List (Value × Value) → Prop
  | [] => True
  | (_, v) :: rest => IsJson v ∧ EntriesJson rest
termination_by structural entries => entries

end

mutual

/-- Whether a value has a JSON text that can be read back: it is built from null, truth values,
integers that can be written, finite numbers of the other kinds, texts and well-formed code in
lists, tuples and maps, whose keys are any that can be written. -/
def IsJsonable [HostClasses] : Value → Prop
  | null => True
  | bool _ => True
  | int n => n.natAbs < pow10 digitLimit
  | double x => Format.double.Holds x
  | float x => Format.single.Holds x
  | decimal d => d.isFinite = true
  | str _ => True
  | list _ items => AllJsonable items
  | tuple items => AllJsonable items
  | map entries => EntriesJsonable entries
  | code x => x.WellFormed
  | _ => False
termination_by structural v => v

/-- Whether all values have such texts. -/
def AllJsonable [HostClasses] : List Value → Prop
  | [] => True
  | v :: vs => IsJsonable v ∧ AllJsonable vs
termination_by structural vs => vs

/-- Whether the values of all keys have such texts. -/
def EntriesJsonable [HostClasses] : List (Value × Value) → Prop
  | [] => True
  | (k, v) :: rest => (∃ text, k.display? = .ok text) ∧ IsJsonable v ∧ EntriesJsonable rest
termination_by structural entries => entries

end

theorem entriesJson_iff {entries : List (Value × Value)} :
    EntriesJson entries ↔ ∀ e ∈ entries, e.2.IsJson := by
  induction entries with
  | nil => simp [EntriesJson]
  | cons e entries ih => simp [EntriesJson, ih]

theorem exceedsDigitLimit_eq_false {n : Int} (h : n.natAbs < pow10 digitLimit) :
    exceedsDigitLimit n = false :=
  decide_eq_false (Nat.not_le.mpr h)

theorem isJson_mapOf {entries : List (Value × Value)} (htext : ∀ e ∈ entries, ∃ s, e.1 = str s)
    (hjson : EntriesJson entries) : (mapOf entries).IsJson := by
  refine ⟨hasTextKeys_insertEntries htext, entriesJson_iff.mpr fun e he => ?_⟩
  have hall : ∀ e ∈ entries, True ∧ e.2.IsJson :=
    fun e he => ⟨trivial, entriesJson_iff.mp hjson e he⟩
  exact (forall_mem_insertEntries (P := fun _ => True) (List.forall_mem_nil _) hall e he).2

variable [HostClasses]

mutual

theorem checkTexts_of_isJsonable : (v : Value) → v.IsJsonable → v.checkTexts = .ok ()
  | null, _ | bool _, _ | int _, _ | str _, _ | double _, _ | float _, _ | decimal _, _ => rfl
  | code x, h => by
      rw [checkTexts, x.text?_eq (x.isUnwritable_of_wellFormed h)]
      rfl
  | list _ items, h => checkTextsAll_of_allJsonable items h
  | tuple items, h => checkTextsAll_of_allJsonable items h
  | map entries, h => checkTextsEntries_of_entriesJsonable entries h
  | date _, h | bytes _, h | object .., h | handle _, h | callable _, h | token _, h
  | nodeKind _, h => h.elim
termination_by structural v => v

theorem checkTextsAll_of_allJsonable : (vs : List Value) → AllJsonable vs →
    checkTextsAll vs = .ok ()
  | [], _ => rfl
  | v :: vs, h => by
      rw [checkTextsAll, checkTexts_of_isJsonable v h.1]
      exact checkTextsAll_of_allJsonable vs h.2
termination_by structural vs => vs

theorem checkTextsEntries_of_entriesJsonable : (entries : List (Value × Value)) →
    EntriesJsonable entries → checkTextsEntries entries = .ok ()
  | [], _ => rfl
  | (k, v) :: rest, h => by
      obtain ⟨⟨key, hkey⟩, hv, hrest⟩ := h
      rw [checkTextsEntries, hkey, checkTexts_of_isJsonable v hv]
      exact checkTextsEntries_of_entriesJsonable rest hrest
termination_by structural entries => entries

end

theorem isText_plainEntries (entries : List (Value × Value)) :
    ∀ e ∈ plainEntries entries, ∃ s, e.1 = str s := by
  induction entries with
  | nil => exact List.forall_mem_nil _
  | cons e entries ih => exact List.forall_mem_cons.mpr ⟨⟨_, rfl⟩, ih⟩

mutual

theorem isJson_plain : (v : Value) → v.IsJsonable → v.plain.IsJson
  | null, _ | bool _, _ | str _, _ | decimal _, _ | code _, _ => trivial
  | int _, h => h
  | double _, h => h
  | float _, h => Format.holds_double_of_single h
  | list _ items, h => ⟨rfl, allJson_plainAll items h⟩
  | tuple items, h => ⟨rfl, allJson_plainAll items h⟩
  | map entries, h =>
      isJson_mapOf (isText_plainEntries entries) (entriesJson_plainEntries entries h)
  | date _, h | bytes _, h | object .., h | handle _, h | callable _, h | token _, h
  | nodeKind _, h => h.elim
termination_by structural v => v

theorem allJson_plainAll : (vs : List Value) → AllJsonable vs → AllJson (plainAll vs)
  | [], _ => trivial
  | v :: vs, h => ⟨isJson_plain v h.1, allJson_plainAll vs h.2⟩
termination_by structural vs => vs

theorem entriesJson_plainEntries : (entries : List (Value × Value)) → EntriesJsonable entries →
    EntriesJson (plainEntries entries)
  | [], _ => trivial
  | (_, v) :: rest, h => ⟨isJson_plain v h.2.1, entriesJson_plainEntries rest h.2.2⟩
termination_by structural entries => entries

end

mutual

theorem plain_eq_self : (v : Value) → v.IsJson → v.plain = v
  | null, _ | bool _, _ | str _, _ | int _, _ | double _, _ => rfl
  | list id items, h => by
      rw [plain, plainAll_eq_self items h.2, h.1]
      rfl
  | map entries, h => by
      rw [plain, plainEntries_eq_self entries h.1.isText h.2, mapOf_eq_map h.1]
  | float _, h | decimal _, h | tuple _, h | code _, h | date _, h | bytes _, h | object .., h
  | handle _, h | callable _, h | token _, h | nodeKind _, h => h.elim
termination_by structural v => v

theorem plainAll_eq_self : (vs : List Value) → AllJson vs → plainAll vs = vs
  | [], _ => rfl
  | v :: vs, h => by rw [plainAll, plain_eq_self v h.1, plainAll_eq_self vs h.2]
termination_by structural vs => vs

theorem plainEntries_eq_self : (entries : List (Value × Value)) →
    (∀ e ∈ entries, ∃ s, e.1 = str s) → EntriesJson entries → plainEntries entries = entries
  | [], _, _ => rfl
  | (k, v) :: rest, htext, h => by
      obtain ⟨⟨s, hs⟩, hrest⟩ := List.forall_mem_cons.mp htext
      obtain rfl : k = str s := hs
      rw [plainEntries, plain_eq_self v h.1, plainEntries_eq_self rest hrest h.2]
      rfl
termination_by structural entries => entries

end

mutual

theorem isJsonable_of_isJson : (v : Value) → v.IsJson → v.IsJsonable
  | null, _ | bool _, _ | str _, _ => trivial
  | int _, h | double _, h => h
  | list _ items, h => allJsonable_of_allJson items h.2
  | map entries, h => entriesJsonable_of_entriesJson entries h.1.isText h.2
  | float _, h | decimal _, h | tuple _, h | code _, h | date _, h | bytes _, h | object .., h
  | handle _, h | callable _, h | token _, h | nodeKind _, h => h.elim
termination_by structural v => v

theorem allJsonable_of_allJson : (vs : List Value) → AllJson vs → AllJsonable vs
  | [], _ => trivial
  | v :: vs, h => ⟨isJsonable_of_isJson v h.1, allJsonable_of_allJson vs h.2⟩
termination_by structural vs => vs

theorem entriesJsonable_of_entriesJson : (entries : List (Value × Value)) →
    (∀ e ∈ entries, ∃ s, e.1 = str s) → EntriesJson entries → EntriesJsonable entries
  | [], _, _ => trivial
  | (k, v) :: rest, htext, h => by
      obtain ⟨⟨s, hs⟩, hrest⟩ := List.forall_mem_cons.mp htext
      obtain rfl : k = str s := hs
      exact ⟨⟨s, rfl⟩, isJsonable_of_isJson v h.1, entriesJsonable_of_entriesJson rest hrest h.2⟩
termination_by structural entries => entries

end

end Value

namespace Json

open Value

section Printing

variable (layout : Layout) (level : Nat)

theorem isGap_edge : IsGap (layout.edge level).toList := by
  cases layout with
  | oneLine => exact List.forall_mem_nil _
  | indented step =>
      simp only [Layout.edge, String.toList_append, String.toList_ofList]
      intro c hc
      rcases List.mem_append.mp hc with hc | hc
      · rw [List.mem_singleton.mp hc]
        rfl
      · rw [List.eq_of_mem_replicate hc]
        rfl

theorem exists_separator_eq :
    ∃ gap, IsGap gap ∧ (layout.separator level).toList = ',' :: gap := by
  cases layout with
  | oneLine =>
      refine ⟨[' '], List.forall_mem_singleton.mpr rfl, ?_⟩
      rw [Layout.separator]
      rfl
  | indented step =>
      refine ⟨_, isGap_edge (.indented step) level, ?_⟩
      rw [Layout.separator, String.toList_append]
      · rfl
      · exact nofun

theorem exists_enclosed_eq (opening closing : Char) {texts : List String} (hne : texts ≠ []) :
    ∃ inner gap gap', IsGap inner ∧ IsGap gap ∧ IsGap gap' ∧
      (enclosed layout level opening.toString closing.toString texts).toList =
        bracketed opening closing inner gap gap' (texts.map String.toList) := by
  obtain ⟨gap, hgap, hseparator⟩ := exists_separator_eq layout (level + 1)
  refine ⟨_, gap, _, isGap_edge layout (level + 1), hgap, isGap_edge layout level, ?_⟩
  have hempty : texts.isEmpty = false := by simpa using hne
  rw [enclosed, hempty]
  simp [String.toList_append, String.toList_intercalate, hseparator, bracketed]

theorem readsAs_enclosed_list {texts : List String} {vs : List Value}
    (h : List.Forall₂ (fun t v => ReadsAs t.toList v) texts vs) :
    ReadsAs (enclosed layout level "[" "]" texts).toList (.listOf vs) := by
  cases h with
  | nil =>
      rw [enclosed, List.isEmpty_nil, if_pos rfl, String.toList_append]
      exact readsAs_nil
  | @cons t v texts vs ht hts =>
      obtain ⟨inner, gap, gap', hinner, hgap, hgap', htext⟩ :=
        exists_enclosed_eq layout level '[' ']' (List.cons_ne_nil t texts)
      have hall : List.Forall₂ ReadsAs ((t :: texts).map String.toList) (v :: vs) :=
        List.forall₂_map_left_iff.mpr (.cons ht hts)
      exact htext ▸ readsAs_list hall (List.cons_ne_nil _ _) hinner hgap hgap'

theorem readsAs_enclosed_map {texts : List String} {es : List (Value × Value)}
    (h : List.Forall₂ (fun t e => IsEntry t.toList e) texts es) :
    ReadsAs (enclosed layout level "\x7b" "\x7d" texts).toList (.mapOf es) := by
  cases h with
  | nil =>
      rw [enclosed, List.isEmpty_nil, if_pos rfl, String.toList_append]
      exact readsAs_empty
  | @cons t e texts es ht hts =>
      obtain ⟨inner, gap, gap', hinner, hgap, hgap', htext⟩ :=
        exists_enclosed_eq layout level '{' '}' (List.cons_ne_nil t texts)
      have hall : List.Forall₂ IsEntry ((t :: texts).map String.toList) (e :: es) :=
        List.forall₂_map_left_iff.mpr (.cons ht hts)
      exact htext ▸ readsAs_map hall (List.cons_ne_nil _ _) hinner hgap hgap'

theorem isEntry_printed {text : String} {v : Value} (h : ReadsAs text.toList v) (s : String) :
    IsEntry (stringText s ++ ": " ++ text).toList (.str s, v) := by
  have hentry := IsEntry.intro s.toList h
  rw [String.ofList_toList, entryText, ← toList_stringText] at hentry
  rw [String.toList_append, String.toList_append, List.append_assoc]
  exact hentry

mutual

/-- What a JSON text stands for is printed, and read back from the text. -/
theorem exists_print_eq [HostClasses] : (v : Value) → v.IsJson → ∀ level,
    ∃ text, print layout level v = .ok text ∧ ReadsAs text.toList v
  | .null, _, _ => ⟨_, rfl, readsAs_null⟩
  | .bool b, _, _ => ⟨_, rfl, readsAs_bool b⟩
  | .int _, h, _ =>
      ⟨_, by rw [print, intText?_eq (exceedsDigitLimit_eq_false h)], readsAs_int h⟩
  | .double _, h, _ => ⟨_, rfl, readsAs_double h⟩
  | .str s, _, _ => ⟨_, rfl, readsAs_string s⟩
  | .list id items, h, level => by
      obtain ⟨texts, hprint, htexts⟩ := exists_printAll_eq items h.2 (level + 1)
      have hread := readsAs_enclosed_list layout level htexts
      rw [Value.listOf, ← h.1] at hread
      exact ⟨_, by rw [print, hprint]; rfl, hread⟩
  | .map entries, h, level => by
      obtain ⟨texts, hprint, htexts⟩ := exists_printEntries_eq entries h.1.isText h.2 (level + 1)
      have hread := readsAs_enclosed_map layout level htexts
      rw [mapOf_eq_map h.1] at hread
      exact ⟨_, by rw [print, hprint]; rfl, hread⟩
  | .float _, h, _ | .decimal _, h, _ | .tuple _, h, _ | .code _, h, _ | .date _, h, _
  | .bytes _, h, _ | .object .., h, _ | .handle _, h, _ | .callable _, h, _ | .token _, h, _
  | .nodeKind _, h, _ => h.elim
termination_by structural v => v

theorem exists_printAll_eq [HostClasses] : (vs : List Value) → AllJson vs → ∀ level,
    ∃ texts, printAll layout level vs = .ok texts ∧
      List.Forall₂ (fun t v => ReadsAs t.toList v) texts vs
  | [], _, _ => ⟨[], rfl, .nil⟩
  | v :: vs, h, level => by
      obtain ⟨text, hprint, htext⟩ := exists_print_eq v h.1 level
      obtain ⟨texts, hprints, htexts⟩ := exists_printAll_eq vs h.2 level
      exact ⟨text :: texts, by rw [printAll, hprint, hprints]; rfl, .cons htext htexts⟩
termination_by structural vs => vs

theorem exists_printEntries_eq [HostClasses] : (entries : List (Value × Value)) →
    (∀ e ∈ entries, ∃ s, e.1 = .str s) → EntriesJson entries → ∀ level,
    ∃ texts, printEntries layout level entries = .ok texts ∧
      List.Forall₂ (fun t e => IsEntry t.toList e) texts entries
  | [], _, _, _ => ⟨[], rfl, .nil⟩
  | (k, v) :: rest, htext, h, level => by
      obtain ⟨⟨s, hs⟩, hrest⟩ := List.forall_mem_cons.mp htext
      obtain rfl : k = .str s := hs
      obtain ⟨text, hprint, hread⟩ := exists_print_eq v h.1 level
      obtain ⟨texts, hprints, htexts⟩ := exists_printEntries_eq rest hrest h.2 level
      exact ⟨_, by rw [printEntries, hprint, hprints]; rfl, .cons (isEntry_printed hread s) htexts⟩
termination_by structural entries => entries

end

theorem head?_enclosed (opening closing : Char) (texts : List String) :
    (enclosed layout level opening.toString closing.toString texts).toList.head? =
      some opening := by
  unfold enclosed
  split <;> simp [String.toList_append]

end Printing

theorem parse_of_readsAs {text : List Char} {v : Value} (h : ReadsAs text v)
    (hmark : text.head? ≠ some '\uFEFF') : parse text = .ok v := by
  have hgap : IsGap [] := List.forall_mem_nil _
  have hskip := h.opens.skipSpace_append hgap []
  rw [List.nil_append, List.append_nil] at hskip
  have hread : value (2 * text.length + 2) (text ++ []) = .ok (v, []) :=
    h.reads (by decide) (by omega)
  rw [List.append_nil] at hread
  rw [parse, if_neg hmark, hskip, hread]
  rfl

end Json

section Documents

variable {v : Value}

theorem exists_head?_print [HostClasses] {layout : Json.Layout} {level : Nat} {text : String}
    (htype : v.type = .list ∨ v.type = .map) (h : Json.print layout level v = .ok text) :
    ∃ c, text.toList.head? = some c ∧ (c = '{' ∨ c = '[') := by
  cases v with
  | list id items =>
      rw [Json.print] at h
      cases hitems : Json.printAll layout (level + 1) items with
      | error f =>
          rw [hitems] at h
          cases h
      | ok texts =>
          rw [hitems] at h
          cases h
          exact ⟨'[', Json.head?_enclosed layout level '[' ']' texts, .inr rfl⟩
  | map entries =>
      rw [Json.print] at h
      cases hentries : Json.printEntries layout (level + 1) entries with
      | error f =>
          rw [hentries] at h
          cases h
      | ok texts =>
          rw [hentries] at h
          cases h
          exact ⟨'{', Json.head?_enclosed layout level '{' '}' texts, .inl rfl⟩
  | handle x => cases x <;> rcases htype with h | h <;> cases h
  | _ => rcases htype with h | h <;> cases h

theorem ofText?_of_head? {text : List Char} {c : Char} (hhead : text.head? = some c)
    (hc : c = '{' ∨ c = '[') : DataFormat.ofText? text = some .json := by
  obtain ⟨cs, rfl⟩ : ∃ cs, text = c :: cs := by
    cases text with
    | nil => cases hhead
    | cons d cs => exact ⟨cs, by rw [Option.some.inj hhead]⟩
  have hblank : Text.isBlank c = false := by rcases hc with rfl | rfl <;> decide
  have htrim : Text.trimLeft (c :: cs) = c :: cs := Text.trimLeft_eq_self fun d hd => by
    rw [← Option.some.inj hd]
    exact hblank
  rw [DataFormat.ofText?, htrim]
  exact if_pos hc

variable [HostClasses]

theorem exists_write_json_eq (hv : v.IsJson) (htype : v.type = .list ∨ v.type = .map)
    (pretty : Bool) :
    ∃ text, write .json pretty v = .ok text ∧ DataFormat.ofText? text.toList = some .json ∧
      Json.parse text.toList = .ok v := by
  have htexts := v.checkTexts_of_isJsonable (v.isJsonable_of_isJson hv)
  obtain ⟨text, hprint, hread⟩ :=
    Json.exists_print_eq (if pretty then .indented 2 else .oneLine) v hv 0
  obtain ⟨c, hhead, hc⟩ := exists_head?_print htype hprint
  have hmark : text.toList.head? ≠ some '\uFEFF' := by
    rw [hhead]
    rcases hc with rfl | rfl <;> decide
  refine ⟨text, ?_, ofText?_of_head? hhead hc, Json.parse_of_readsAs hread hmark⟩
  rw [write, htexts, v.plain_eq_self hv]
  exact hprint

theorem type_plain (htype : v.type = .list ∨ v.type = .tuple ∨ v.type = .map) :
    v.plain.type = .list ∨ v.plain.type = .map := by
  cases v with
  | list | tuple => exact .inl rfl
  | map => exact .inr rfl
  | handle x => cases x <;> rcases htype with h | h | h <;> cases h
  | _ => rcases htype with h | h | h <;> cases h

theorem write_json_plain (hv : v.IsJsonable) (pretty : Bool) :
    write .json pretty v = write .json pretty v.plain := by
  have hplain := v.isJson_plain hv
  rw [write, write, v.checkTexts_of_isJsonable hv,
    v.plain.checkTexts_of_isJsonable (v.plain.isJsonable_of_isJson hplain),
    v.plain.plain_eq_self hplain]

theorem serialize_json (pretty : Bool) (v : Value) :
    serialize (some "json") pretty v = write .json pretty v := by
  have hname : DataFormat.ofName? (String.ofList (Text.asciiLower "json".toList)) = some .json := by
    decide
  rw [serialize]
  dsimp only [Option.getD_some]
  rw [hname]

/-- The JSON text of a list, tuple or map is taken for JSON when nothing tells its format, in either
layout. It is read as the plain data of the value, and the text of what was read is the same. -/
theorem serialize_json_decodes (hv : v.IsJsonable)
    (htype : v.type = .list ∨ v.type = .tuple ∨ v.type = .map) (pretty : Bool) :
    ∃ text, serialize (some "json") pretty v = .ok text ∧
      detectFormat [] (some text.toList) = some .json ∧
      deserialize (.str text) [] "" = .ok v.plain ∧
      serialize (some "json") pretty v.plain = .ok text := by
  obtain ⟨text, hwrite, hformat, hparse⟩ :=
    exists_write_json_eq (v.isJson_plain hv) (type_plain htype) pretty
  have hdetect : detectFormat [] (some text.toList) = some .json := hformat
  refine ⟨text, ?_, hdetect, ?_, ?_⟩
  · rw [serialize_json, write_json_plain hv, hwrite]
  · have htext : dataText [] (.str text) = .ok text.toList := rfl
    have hempty : "".isEmpty = true := rfl
    rw [deserialize, htext]
    dsimp only [bind, Except.bind]
    rw [if_pos hempty, hdetect]
    dsimp only [DataFormat.read]
    rw [hparse]
  · rw [serialize_json, hwrite]

end Documents

open scoped Sample

/-- A map in which two keys have one text, with characters that are escaped, and with code. -/
theorem serialize_json_decodes_map :
    let v : Value := .map [
      (.int 1, .tuple [.bool true, .int 1, .double (.finite false 3 (-1))]),
      (.str "1", .list 7 [.decimal (.finite false 10 (-1)), .str "\"\n\u0001é"]),
      (.null, .code (.quote (.identifier "x" .absent) .absent))]
    ∃ text, serialize (some "json") false v = .ok text ∧
      detectFormat [] (some text.toList) = some .json ∧
      deserialize (.str text) [] "" = .ok v.plain ∧
      serialize (some "json") false v.plain = .ok text := by
  intro v
  have hdouble : Format.double.Holds (.finite false 3 (-1)) :=
    .inr ⟨rfl, by decide, by decide, by decide⟩
  have hone : (1 : Int).natAbs < pow10 digitLimit :=
    Nat.lt_of_lt_of_le (show 1 < pow10 1 by decide) (pow10_le_pow10 (by decide))
  have hname : (Node.quote (.identifier "x" .absent) .absent).WellFormed :=
    ⟨'x', [], rfl, rfl, List.forall_mem_nil _, rfl⟩
  have hkey : ∃ text, (Value.int 1).display? = .ok text :=
    Value.exists_display?_of_builtFrom (p := fun _ => False) nofun _
      (Value.exceedsDigitLimit_eq_false hone)
  have hv : v.IsJsonable := ⟨hkey, ⟨trivial, hone, hdouble, trivial⟩, ⟨_, rfl⟩,
    ⟨rfl, trivial, trivial⟩, ⟨_, rfl⟩, hname, trivial⟩
  exact serialize_json_decodes hv (.inr (.inr rfl)) false

end HostedLisp
