import HostedLisp.Globals
import HostedLisp.Proofs.Value.Placement

namespace HostedLisp

/-- Whether a result, if there is one, has a property. -/
def Yields {ε α : Type} (P : α → Prop) (x : Except ε α) : Prop := ∀ a, x = .ok a → P a

namespace Yields

variable {ε α β : Type} {P : β → Prop} {Q : α → Prop} {x : Except ε α}

theorem ok {b : β} (h : P b) : Yields P (.ok b : Except ε β) := by
  rintro b' ⟨⟩
  exact h

theorem error (e : ε) : Yields P (.error e : Except ε β) := nofun

theorem map {f : α → β} (h : Yields (fun a => P (f a)) x) : Yields P (x.map f) := by
  cases x with
  | ok a => exact ok (h a rfl)
  | error e => exact error e

theorem mapError {ε' : Type} {f : ε → ε'} (h : Yields Q x) : Yields Q (x.mapError f) := by
  cases x with
  | ok a => exact ok (h a rfl)
  | error e => exact error (f e)

theorem bind {k : α → Except ε β} (h : Yields Q x) (hk : ∀ a, Q a → Yields P (k a)) :
    Yields P (x >>= k) := by
  cases x with
  | ok a => exact hk a (h a rfl)
  | error e => exact error e

theorem bind_any {k : α → Except ε β} (hk : ∀ a, Yields P (k a)) : Yields P (x >>= k) :=
  bind (Q := fun _ => True) (fun _ _ => trivial) fun a _ => hk a

end Yields

namespace Value

/-- Whether no store has given an identity to a list or an object in a value. -/
def IsNew (v : Value) : Prop := ∀ i ∈ v.identities, i = 0

/-- Whether the keys and values of a map are new. -/
def AllNew (entries : List (Value × Value)) : Prop := ∀ e ∈ entries, e.1.IsNew ∧ e.2.IsNew

theorem isNew_leaf {v : Value} (h : v.identities = []) : v.IsNew := by
  intro i hi
  rw [h] at hi
  exact absurd hi List.not_mem_nil

theorem mem_identitiesAll {i : Identity} {xs : List Value} :
    i ∈ identitiesAll xs ↔ ∃ v ∈ xs, i ∈ v.identities := by
  induction xs with
  | nil => simp [identitiesAll]
  | cons x xs ih => simp [identitiesAll, ih]

theorem mem_entryIdentities {i : Identity} {entries : List (Value × Value)} :
    i ∈ entryIdentities entries ↔
      ∃ e ∈ entries, i ∈ e.1.identities ∨ i ∈ e.2.identities := by
  induction entries with
  | nil => simp [entryIdentities]
  | cons e entries ih => simp [entryIdentities, ih, or_assoc]

theorem isNew_listOf {items : List Value} (h : ∀ v ∈ items, v.IsNew) : (listOf items).IsNew := by
  intro i hi
  rcases List.mem_cons.mp hi with rfl | hi
  · rfl
  · obtain ⟨v, hv, hi⟩ := mem_identitiesAll.mp hi
    exact h v hv i hi

theorem isNew_map_iff {entries : List (Value × Value)} :
    (map entries).IsNew ↔ AllNew entries := by
  constructor
  · intro h e he
    exact ⟨fun i hi => h i (mem_entryIdentities.mpr ⟨e, he, .inl hi⟩),
      fun i hi => h i (mem_entryIdentities.mpr ⟨e, he, .inr hi⟩)⟩
  · intro h i hi
    obtain ⟨e, he, hi⟩ := mem_entryIdentities.mp hi
    exact hi.elim ((h e he).1 i) ((h e he).2 i)

theorem isNew_mapOf {entries : List (Value × Value)} (h : AllNew entries) :
    (mapOf entries).IsNew :=
  isNew_map_iff.mpr (forall_mem_insertEntries (List.forall_mem_nil _) h)

end Value

open Value

namespace Json

theorem isNew_number (negative : Bool) (s : List Char) :
    Yields (·.1.IsNew) (number negative s) := by
  unfold number
  dsimp only
  split
  · exact .error _
  · split
    · split
      · exact .error _
      · exact .ok (isNew_leaf rfl)
    · split
      · exact .ok (isNew_leaf rfl)
      · exact .error _

theorem isNew_scalar (s : List Char) : Yields (·.1.IsNew) (scalar s) := by
  unfold scalar
  dsimp only
  split
  · rename_i r hword
    obtain ⟨w, hw, hr⟩ := List.exists_of_findSome?_eq_some hword
    obtain ⟨rest, -, rfl⟩ := Option.map_eq_some_iff.mp hr
    simp only [List.mem_cons, List.not_mem_nil, or_false] at hw
    rcases hw with rfl | rfl | rfl | rfl | rfl | rfl <;> exact .ok (isNew_leaf rfl)
  · split
    · exact isNew_number true _
    · exact isNew_number false _

/-- Whether all that is read with some fuel is new. -/
structure ReadsNew (fuel : Nat) : Prop where
  value : ∀ s, Yields (·.1.IsNew) (Json.value fuel s)
  items : ∀ s, Yields (fun r => ∀ v ∈ r.1, v.IsNew) (Json.items fuel s)
  entries : ∀ s, Yields (fun r => AllNew r.1) (Json.entries fuel s)

section Step

variable {fuel : Nat}

theorem isNew_value_succ (h : ReadsNew fuel) (s : List Char) :
    Yields (·.1.IsNew) (value (fuel + 1) s) := by
  cases s with
  | nil => exact .error _
  | cons c rest =>
      rw [value]
      split
      · exact .map fun _ _ => isNew_leaf rfl
      · split
        · split
          · exact .ok (isNew_listOf nofun)
          · exact .map fun r hr => isNew_listOf (h.items _ r hr)
        · split
          · split
            · exact .ok (isNew_map_iff.mpr nofun)
            · exact .map fun r hr => isNew_mapOf (h.entries _ r hr)
          · exact isNew_scalar _

theorem isNew_items_succ (h : ReadsNew fuel) (s : List Char) :
    Yields (fun r => ∀ v ∈ r.1, v.IsNew) (items (fuel + 1) s) := by
  rw [items]
  refine .bind (h.value s) fun r hr => ?_
  dsimp only
  split
  · exact .bind (h.items _) fun r' hr' => .ok (List.forall_mem_cons.mpr ⟨hr, hr'⟩)
  · exact .ok (List.forall_mem_singleton.mpr hr)
  · exact .error _

theorem isNew_entries_succ (h : ReadsNew fuel) (s : List Char) :
    Yields (fun r => AllNew r.1) (entries (fuel + 1) s) := by
  rw [entries.eq_def]
  dsimp only
  split
  · refine .bind_any fun key => ?_
    split
    · refine .bind (h.value _) fun r hr => ?_
      split
      · refine .bind (h.entries _) fun r' hr' => .ok ?_
        exact List.forall_mem_cons.mpr ⟨⟨isNew_leaf rfl, hr⟩, hr'⟩
      · exact .ok (List.forall_mem_singleton.mpr ⟨isNew_leaf rfl, hr⟩)
      · exact .error _
    · exact .error _
  · exact .error _

end Step

theorem readsNew (fuel : Nat) : ReadsNew fuel := by
  induction fuel with
  | zero =>
      refine ⟨fun s => ?_, fun s => ?_, fun s => ?_⟩
      · rw [value]
        exact .error _
      · rw [items]
        exact .error _
      · rw [entries]
        exact .error _
  | succ fuel ih => exact ⟨isNew_value_succ ih, isNew_items_succ ih, isNew_entries_succ ih⟩

theorem isNew_parse (s : List Char) : Yields IsNew (parse s) := by
  unfold parse
  split
  · exact .error _
  · refine .bind ((readsNew _).value _) fun r hr => ?_
    dsimp only
    split
    · exact .ok hr
    · exact .error _

end Json

namespace Yaml

/-- Whether the keys and values of entries, where they have no faults, are new. -/
def Entries.AllNew (entries : Entries) : Prop :=
  ∀ e ∈ entries, Yields IsNew e.1 ∧ Yields IsNew e.2

/-- Whether all values in what a node means are new. -/
structure Meaning.IsNew (m : Meaning) : Prop where
  value : Yields Value.IsNew m.value
  entries : ∀ es ∈ m.entries, es.AllNew
  merged : ∀ es ∈ m.merged, es.AllNew

theorem isNew_readDouble (s : List Char) : Yields Value.IsNew (readDouble s) := by
  refine .bind_any fun (negative, body) => ?_
  dsimp only
  split
  · exact .ok (isNew_leaf rfl)
  · split
    · exact .ok (isNew_leaf rfl)
    · split
      · exact .bind_any fun _ => .ok (isNew_leaf rfl)
      · exact .bind_any fun _ => .ok (isNew_leaf rfl)

theorem isNew_scalarValue (tag : Tag) (s : List Char) : Yields Value.IsNew (scalarValue tag s) := by
  unfold scalarValue
  split
  · exact .ok (isNew_leaf rfl)
  · unfold readBool
    dsimp only
    split
    · exact .ok (isNew_leaf rfl)
    · exact .error _
  · exact .bind_any fun _ => .bind_any fun _ => .ok (isNew_leaf rfl)
  · exact isNew_readDouble s
  · unfold readBytes
    split
    · exact .ok (isNew_leaf rfl)
    · exact .error _
  · unfold readDate
    split
    · exact .map fun _ _ => isNew_leaf rfl
    · split <;> exact .error _
  · exact .ok (isNew_leaf rfl)
  · exact .error _

theorem isNew_valueOfText (tag : Tag) (text : Option (List Char)) :
    Yields Value.IsNew (valueOfText tag text) := by
  unfold valueOfText
  split
  · exact .error _
  · split
    · exact .mapError (isNew_scalarValue _ _)
    · exact .error _

theorem isNew_allValues {rs : List Result} (h : ∀ r ∈ rs, Yields Value.IsNew r) :
    Yields (fun vs => ∀ v ∈ vs, Value.IsNew v) (allValues rs) := by
  unfold allValues
  split
  · exact .error _
  · refine .ok fun v hv => ?_
    obtain ⟨r, hr, hok⟩ := List.mem_filterMap.mp hv
    cases r with
    | ok w => exact h _ hr v (congrArg Except.ok (Option.some.inj hok))
    | error f => cases hok

theorem allNew_mapOfPairs : ∀ {vs : List Value}, (∀ v ∈ vs, Value.IsNew v) →
    Value.AllNew (mapOfPairs vs)
  | [], _ | [_], _ => nofun
  | k :: v :: rest, h => by
      simp only [List.forall_mem_cons] at h
      exact List.forall_mem_cons.mpr ⟨⟨h.1, h.2.1⟩, allNew_mapOfPairs h.2.2⟩

theorem exists_of_mem_mapM {α β : Type} {f : α → Option β} {xs : List α} {ys : List β}
    (h : xs.mapM f = some ys) {y : β} (hy : y ∈ ys) : ∃ x ∈ xs, f x = some y := by
  induction xs generalizing ys with
  | nil =>
      cases h
      cases hy
  | cons x xs ih =>
      rw [List.mapM_cons] at h
      obtain ⟨first, hfirst, h⟩ := Option.bind_eq_some_iff.mp h
      obtain ⟨rest, hrest, h⟩ := Option.bind_eq_some_iff.mp h
      cases h
      rcases List.mem_cons.mp hy with rfl | hy
      · exact ⟨x, List.mem_cons_self, hfirst⟩
      · obtain ⟨x', hx', hf⟩ := ih hrest hy
        exact ⟨x', List.mem_cons_of_mem x hx', hf⟩

namespace EntryMeaning

def IsNew (e : EntryMeaning) : Prop := e.key.IsNew ∧ e.value.IsNew

variable {es : List EntryMeaning}

theorem isNew_keyResult {e : EntryMeaning} (h : e.IsNew) : Yields Value.IsNew e.keyResult := by
  unfold keyResult
  split
  · exact .error _
  · split
    · exact isNew_valueOfText _ _
    · exact h.1.value

theorem allNew_flattened (h : ∀ e ∈ es, e.IsNew) :
    ∀ entries ∈ flattened es, entries.AllNew := by
  intro entries hentries
  obtain ⟨merged, hmerged, hentries⟩ := Option.bind_eq_some_iff.mp hentries
  cases hentries
  intro e he
  rcases List.mem_append.mp he with he | he
  · obtain ⟨part, hpart, he⟩ := List.mem_flatten.mp he
    obtain ⟨source, hsource, hpart⟩ := exists_of_mem_mapM hmerged hpart
    exact (h source (List.mem_filter.mp hsource).1).2.merged part hpart e he
  · obtain ⟨own, hown, rfl⟩ := List.mem_map.mp he
    have hnew := h own (List.mem_filter.mp hown).1
    exact ⟨isNew_keyResult hnew, hnew.2.value⟩

end EntryMeaning

theorem isNew_sequenceValue (tag : Tag) {items : List Meaning} (h : ∀ m ∈ items, m.IsNew) :
    Yields Value.IsNew (sequenceValue tag items) := by
  unfold sequenceValue
  split
  · have hvalues : ∀ r ∈ items.map (·.value), Yields Value.IsNew r :=
      List.forall_mem_map.mpr fun m hm => (h m hm).value
    exact .map fun vs hvs => isNew_listOf (isNew_allValues hvalues vs hvs)
  · exact isNew_valueOfText _ _

theorem isNew_mappingValue (tag : Tag) {es : List EntryMeaning} (h : ∀ e ∈ es, e.IsNew) :
    Yields Value.IsNew (mappingValue tag es) := by
  unfold mappingValue
  split
  · split
    · exact .error _
    · rename_i entries hentries
      have hnew := EntryMeaning.allNew_flattened h entries hentries
      have hvalues : ∀ r ∈ entries.flatMap fun e => [e.1, e.2], Yields Value.IsNew r := by
        intro r hr
        obtain ⟨e, he, hr⟩ := List.mem_flatMap.mp hr
        simp only [List.mem_cons, List.not_mem_nil, or_false] at hr
        rcases hr with rfl | rfl
        · exact (hnew e he).1
        · exact (hnew e he).2
      exact .map fun vs hvs => isNew_mapOf (allNew_mapOfPairs (isNew_allValues hvalues vs hvs))
  · exact isNew_valueOfText _ _

mutual

theorem Node.isNew_meaning : ∀ x : Node, x.meaning.IsNew
  | .scalar tag s => ⟨isNew_valueOfText tag (some s), nofun, nofun⟩
  | .sequence tag items => by
      -- A sequence is merged by the entries of its items, each of which is a mapping.
      have hitems := isNew_meanings items
      refine ⟨isNew_sequenceValue tag hitems, nofun, fun merged hmerged => ?_⟩
      obtain ⟨parts, hparts, rfl⟩ := Option.map_eq_some_iff.mp hmerged
      intro e he
      obtain ⟨part, hpart, he⟩ := List.mem_flatten.mp he
      obtain ⟨m, hm, hpart⟩ := exists_of_mem_mapM hparts (List.mem_reverse.mp hpart)
      exact (hitems m hm).entries part hpart e he
  | .mapping tag entries => by
      have hentries := isNew_entryMeanings entries
      have hflat := EntryMeaning.allNew_flattened hentries
      exact ⟨isNew_mappingValue tag hentries, hflat, hflat⟩

theorem isNew_meanings : ∀ xs : List Node, ∀ m ∈ meanings xs, m.IsNew
  | [] => List.forall_mem_nil _
  | x :: xs => List.forall_mem_cons.mpr ⟨x.isNew_meaning, isNew_meanings xs⟩

theorem isNew_entryMeanings : ∀ entries : List (Node × Node), ∀ e ∈ entryMeanings entries, e.IsNew
  | [] => List.forall_mem_nil _
  | (k, v) :: rest =>
      List.forall_mem_cons.mpr ⟨⟨k.isNew_meaning, v.isNew_meaning⟩, isNew_entryMeanings rest⟩

end

theorem isNew_read (s : List Char) : Yields Value.IsNew (read s) := by
  unfold read
  split
  · exact .error _
  · exact .ok (isNew_leaf rfl)
  · exact .mapError (Node.isNew_meaning _).value

end Yaml

theorem DataFormat.isNew_read (format : DataFormat) (text : List Char) :
    Yields IsNew (format.read text) := by
  unfold read
  split
  · exact Yaml.isNew_read text
  · split
    · rename_i v hv
      exact .ok (Json.isNew_parse text v hv)
    · exact .error _
    · exact Yaml.isNew_read text

variable [HostClasses]

theorem isNew_deserialize (data : Value) (mediaType : List Char) (format : String) :
    Yields IsNew (deserialize data mediaType format) := by
  refine .bind_any fun text => ?_
  dsimp only
  split
  · exact DataFormat.isNew_read _ text
  · exact .ok (isNew_leaf rfl)

namespace Globals

theorem isNew_parse (p : Path) (text : List Char) : Yields AllNew (parse p text) := by
  unfold parse
  split
  · exact .ok nofun
  · refine .bind (isNew_deserialize _ _ _) fun v hv => ?_
    split
    · exact .ok nofun
    · exact .bind_any fun _ => .ok (isNew_map_iff.mp hv)
    · exact .error _

theorem isNew_load (files : Files) (name : String) : Yields AllNew (load files name) :=
  .bind_any fun text => isNew_parse _ text

end Globals

end HostedLisp
