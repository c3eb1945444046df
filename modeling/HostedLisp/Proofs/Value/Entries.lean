import HostedLisp.Host.Sample
import HostedLisp.Proofs.Json.RoundTrip
import HostedLisp.Proofs.Scope.Views
import Mathlib.Data.List.Dedup

namespace HostedLisp.Value

/-- The value of the last entry whose key has a text. -/
def lastValue? [HostClasses] (text : String) (entries : List (Value × Value)) : Option Value :=
  (entries.reverse.find? fun e => e.1.display == text).map Prod.snd

/-- A step into a value: to an item of a list or tuple, counted from zero, or to what a map has
under a text. -/
inductive Step where
  | item (index : Nat)
  | entry (text : String)

/-- What a step into a value leads to. -/
def part? [HostClasses] : Value → Step → Option Value
  | list _ items, .item i => items[i]?
  | tuple items, .item i => items[i]?
  | map entries, .entry text => lastValue? text entries
  | _, _ => none

/-- What stands in a value where some steps lead. -/
def at? [HostClasses] (v : Value) : List Step → Option Value
  | [] => some v
  | step :: path => (v.part? step).bind fun w => w.at? path

/-- The texts of the keys of entries, in their order. -/
def keyTexts [HostClasses] (entries : List (Value × Value)) : List String :=
  entries.map fun e => e.1.display

/-- Whether entries are those that the plain data of a map has: a text for each text of a key, with
the plain data of the last value under it. There are as many of them as different texts, so that
none is lost just if no two keys have one text. -/
structure KeptIn [HostClasses] (entries kept : List (Value × Value)) : Prop where
  textKeys : HasTextKeys kept
  mem_iff : ∀ text v, (str text, v) ∈ kept ↔
    ∃ w, lastValue? text entries = some w ∧ v = w.plain
  length_eq : kept.length = (keyTexts entries).dedup.length
  length_eq_iff : kept.length = entries.length ↔ (keyTexts entries).Nodup
  eq_of_nodup : (keyTexts entries).Nodup →
    kept = entries.map fun e => (str e.1.display, e.2.plain)

section LastValue

variable [HostClasses] {entries : List (Value × Value)} {text : String}

theorem lastValue?_concat (text : String) (entries : List (Value × Value)) (e : Value × Value) :
    lastValue? text (entries ++ [e]) =
      if e.1.display = text then some e.2 else lastValue? text entries := by
  rw [lastValue?, List.reverse_append, List.reverse_singleton, List.singleton_append,
    List.find?_cons]
  by_cases h : e.1.display = text
  · simp [h]
  · rw [if_neg h, beq_eq_false_iff_ne.mpr h]
    rfl

theorem exists_lastValue?_iff :
    (∃ v, lastValue? text entries = some v) ↔ text ∈ keyTexts entries := by
  rw [← Option.isSome_iff_exists, lastValue?, Option.isSome_map, List.find?_isSome]
  simp [keyTexts]

theorem HasTextKeys.lastValue?_eq_some_iff (h : HasTextKeys entries) {v : Value} :
    lastValue? text entries = some v ↔ (str text, v) ∈ entries := by
  have hkey : ∀ e ∈ entries, e.1.display = text → e.1 = str text := by
    intro e he htext
    obtain ⟨s, hs⟩ := h.isText e he
    rw [hs] at htext ⊢
    exact congrArg str htext
  constructor
  · intro hlast
    obtain ⟨e, hfind, rfl⟩ := Option.map_eq_some_iff.mp hlast
    have hmem := List.mem_reverse.mp (List.mem_of_find?_eq_some hfind)
    have htext : e.1.display = text := by simpa using List.find?_some hfind
    rw [← hkey e hmem htext]
    exact hmem
  · intro hmem
    have htext : text ∈ keyTexts entries := List.mem_map.mpr ⟨_, hmem, rfl⟩
    obtain ⟨w, hw⟩ := exists_lastValue?_iff.mpr htext
    obtain ⟨e, hfind, rfl⟩ := Option.map_eq_some_iff.mp hw
    have he := List.mem_reverse.mp (List.mem_of_find?_eq_some hfind)
    have hefirst := hkey e he (by simpa using List.find?_some hfind)
    obtain rfl := List.inj_on_of_nodup_map h.nodup he hmem hefirst
    exact hw

end LastValue

section Kept

variable {entries kept : List (Value × Value)}

theorem plainEntries_eq_map [HostClasses] (entries : List (Value × Value)) :
    plainEntries entries = entries.map fun e => (str e.1.display, e.2.plain) := by
  induction entries with
  | nil => rfl
  | cons e rest ih => rw [plainEntries, ih, List.map_cons]

theorem plainAll_eq_map [HostClasses] (items : List Value) : plainAll items = items.map plain := by
  induction items with
  | nil => rfl
  | cons v rest ih => rw [plainAll, ih, List.map_cons]

theorem HasTextKeys.distinctKeys (h : HasTextKeys entries) : DistinctKeys entries := by
  refine (List.pairwise_map.mp h.nodup).imp_of_mem fun {e e'} he _ hne => ?_
  obtain ⟨s, hs⟩ := h.isText e he
  rw [hs] at hne ⊢
  exact Bool.eq_false_iff.mpr fun hsame => hne (str_same_iff.mp hsame).symm

variable [HostClasses]

theorem mem_insertEntry_concat (htexts : HasTextKeys kept)
    (h : ∀ text v, (str text, v) ∈ kept ↔ ∃ w, lastValue? text entries = some w ∧ v = w.plain)
    (e : Value × Value) (text : String) (v : Value) :
    (str text, v) ∈ insertEntry (str e.1.display) e.2.plain kept ↔
      ∃ w, lastValue? text (entries ++ [e]) = some w ∧ v = w.plain := by
  have hkeys : ∀ e' ∈ kept, e'.1.same (str e.1.display) = true → e'.1 = str e.1.display := by
    intro e' he' hsame
    obtain ⟨s, hs⟩ := htexts.isText e' he'
    rw [hs] at hsame ⊢
    exact (str_same_iff.mp hsame).symm
  rw [mem_insertEntry_iff htexts.distinctKeys hkeys, h, lastValue?_concat, same_str,
    str.injEq, beq_eq_false_iff_ne]
  by_cases htext : e.1.display = text
  · simp [htext]
  · simp [htext, Ne.symm htext]

theorem kept_insertEntries (entries : List (Value × Value)) :
    let kept := (plainEntries entries).foldl (fun m e => insertEntry e.1 e.2 m) []
    HasTextKeys kept ∧
      ∀ text v, (str text, v) ∈ kept ↔ ∃ w, lastValue? text entries = some w ∧ v = w.plain := by
  refine ⟨hasTextKeys_insertEntries (isText_plainEntries entries), ?_⟩
  -- From the last entry backwards: it is the one that counts for the text of its key.
  induction entries using List.reverseRecOn with
  | nil => simp [plainEntries, lastValue?]
  | append_singleton entries e ih =>
      have htexts := hasTextKeys_insertEntries (isText_plainEntries entries)
      rw [plainEntries_eq_map, List.map_append, List.foldl_append, ← plainEntries_eq_map]
      exact mem_insertEntry_concat htexts ih e

/-- The keys are the different texts of the keys before. -/
theorem perm_keys (htexts : HasTextKeys kept)
    (h : ∀ text v, (str text, v) ∈ kept ↔ ∃ w, lastValue? text entries = some w ∧ v = w.plain) :
    (kept.map Prod.fst).Perm ((keyTexts entries).dedup.map str) := by
  have hnodup : ((keyTexts entries).dedup.map str).Nodup :=
    (List.nodup_dedup _).map fun _ _ => str.inj
  refine (List.perm_ext_iff_of_nodup htexts.nodup hnodup).mpr fun key => ?_
  constructor
  · intro hkey
    obtain ⟨e, he, rfl⟩ := List.mem_map.mp hkey
    obtain ⟨s, hs⟩ := htexts.isText e he
    have hmem : (str s, e.2) ∈ kept := hs ▸ he
    obtain ⟨w, hw, -⟩ := (h s e.2).mp hmem
    rw [hs]
    exact List.mem_map_of_mem (List.mem_dedup.mpr (exists_lastValue?_iff.mp ⟨w, hw⟩))
  · intro hkey
    obtain ⟨text, htext, rfl⟩ := List.mem_map.mp hkey
    obtain ⟨w, hw⟩ := exists_lastValue?_iff.mpr (List.mem_dedup.mp htext)
    exact List.mem_map_of_mem (f := Prod.fst) ((h text w.plain).mpr ⟨w, hw, rfl⟩)

theorem keptIn_insertEntries (entries : List (Value × Value)) :
    KeptIn entries ((plainEntries entries).foldl (fun m e => insertEntry e.1 e.2 m) []) := by
  obtain ⟨htexts, hmem⟩ := kept_insertEntries entries
  have hlength := (perm_keys htexts hmem).length_eq
  rw [List.length_map, List.length_map] at hlength
  refine ⟨htexts, hmem, hlength, ?_, fun hnodup => ?_⟩
  · rw [hlength, ← List.dedup_eq_self]
    constructor
    · intro h
      exact (List.dedup_sublist _).eq_of_length (h.trans (List.length_map _).symm)
    · intro h
      rw [h, keyTexts, List.length_map]
  · have hnodup' : ((keyTexts entries).map str).Nodup := hnodup.map fun _ _ => str.inj
    have hkeys : HasTextKeys (plainEntries entries) := by
      refine ⟨isText_plainEntries entries, ?_⟩
      rw [plainEntries_eq_map, List.map_map]
      rwa [keyTexts, List.map_map] at hnodup'
    exact (map.inj (mapOf_eq_map hkeys)).trans (plainEntries_eq_map entries)

end Kept

section Places

variable [HostClasses]

theorem part?_plain (v : Value) (step : Step) : v.plain.part? step = (v.part? step).map plain := by
  cases v with
  | list id items =>
      cases step with
      | item i => simp [plain, listOf, part?, plainAll_eq_map]
      | entry text => rfl
  | tuple items =>
      cases step with
      | item i => simp [plain, listOf, part?, plainAll_eq_map]
      | entry text => rfl
  | map entries =>
      cases step with
      | item i => rfl
      | entry text =>
          obtain ⟨htexts, hmem⟩ := kept_insertEntries entries
          refine Option.ext fun w => ?_
          rw [plain, mapOf, part?, part?, Option.map_eq_some_iff]
          refine (htexts.lastValue?_eq_some_iff.trans (hmem text w)).trans ?_
          simp only [eq_comm]
  | _ => rfl

theorem at?_plain (v : Value) (path : List Step) : v.plain.at? path = (v.at? path).map plain := by
  induction path generalizing v with
  | nil => rfl
  | cons step path ih =>
      rw [at?, at?, part?_plain]
      cases v.part? step with
      | none => rfl
      | some w => exact ih w

end Places

/-- What stands at a place of a value stands there in its plain data, as plain data. A map has there
one entry for each text of its keys, with the plain data of the last value under that text; as many
as before, and for each key one with the value of this key, just if no two keys have one text. -/
theorem plain_keeps_last_entries [HostClasses] (v : Value) (path : List Step) :
    v.plain.at? path = (v.at? path).map plain ∧
      ∀ entries, v.at? path = some (.map entries) →
        ∃ kept, v.plain.at? path = some (.map kept) ∧ KeptIn entries kept := by
  refine ⟨at?_plain v path, fun entries hentries => ?_⟩
  refine ⟨_, ?_, keptIn_insertEntries entries⟩
  rw [at?_plain, hentries]
  rfl

open scoped Sample

/-- A map inside a tuple, a map and a list, in which a number and a text have one text. -/
theorem plain_keeps_last_entries_of_number_and_text :
    let entries := [(int 1, str "one"), (null, str "none"), (str "1", str "uno")]
    let v := listOf [map [(bool true, tuple [map entries])]]
    let path : List Step := [.item 0, .entry "True", .item 0]
    ∃ kept, v.plain.at? path = some (map kept) ∧ kept.length = 2 ∧ (str "1", str "uno") ∈ kept ∧
      (str "None", str "none") ∈ kept := by
  intro entries v path
  obtain ⟨-, hkept⟩ := plain_keeps_last_entries v path
  obtain ⟨kept, hplace, h⟩ := hkept entries rfl
  refine ⟨kept, hplace, ?_, ?_, ?_⟩
  · have htexts : keyTexts entries = ["1", "None", "1"] := by decide +kernel
    rw [h.length_eq, htexts]
    decide
  · exact (h.mem_iff _ _).mpr ⟨str "uno", rfl, rfl⟩
  · exact (h.mem_iff _ _).mpr ⟨str "none", by cbv, rfl⟩

/-- Of two keys that are different values, but have one text, only the later one's entry is left. -/
theorem serialize_loses_entry_of_number :
    let v := map [(int 1, str "one"), (str "1", str "uno")]
    (int 1).same (str "1") = false ∧ v.plain = map [(str "1", str "uno")] ∧
      serialize (some "json") false v = .ok "\x7b\"1\": \"uno\"\x7d" := by
  intro v
  have hnumber : (int 1).display = "1" := by decide +kernel
  have htext : (str "1").display = "1" := rfl
  refine ⟨rfl, ?_, by decide +kernel⟩
  simp [v, plain, plainEntries, mapOf, insertEntry, same, hnumber, htext]

end HostedLisp.Value
