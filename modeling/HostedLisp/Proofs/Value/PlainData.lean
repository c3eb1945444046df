import HostedLisp.Proofs.Value.Placement
import HostedLisp.Value.Plain

namespace HostedLisp

open Number

namespace Value

mutual

/-- Whether a value is built from null, truth values, numbers that can be written, texts, and code
of some kind, in lists, tuples and maps. -/
def BuiltFrom (code? : Node → Prop) : Value → Prop
  | null => True
  | bool _ => True
  | int n => exceedsDigitLimit n = false
  | double _ => True
  | float _ => True
  | decimal _ => True
  | str _ => True
  | list _ items => AllBuiltFrom code? items
  | tuple items => AllBuiltFrom code? items
  | map entries => EntriesBuiltFrom code? entries
  | code x => code? x
  | _ => False
termination_by structural v => v

/-- Whether all values are built so. -/
def AllBuiltFrom (code? : Node → Prop) : List Value → Prop
  | [] => True
  | v :: vs => BuiltFrom code? v ∧ AllBuiltFrom code? vs
termination_by structural vs => vs

/-- Whether all keys and values are built so. -/
def EntriesBuiltFrom (code? : Node → Prop) : List (Value × Value) → Prop
  | [] => True
  | (k, v) :: rest => BuiltFrom code? k ∧ BuiltFrom code? v ∧ EntriesBuiltFrom code? rest
termination_by structural entries => entries

end

/-- Whether a value is plain data, with no code in it. -/
def IsPlain (v : Value) : Prop := v.BuiltFrom fun _ => False

section Writing

variable {p q : Node → Prop}

theorem allBuiltFrom_iff {vs : List Value} : AllBuiltFrom p vs ↔ ∀ v ∈ vs, v.BuiltFrom p := by
  induction vs with
  | nil => simp [AllBuiltFrom]
  | cons v vs ih => simp [AllBuiltFrom, ih]

theorem entriesBuiltFrom_iff {entries : List (Value × Value)} :
    EntriesBuiltFrom p entries ↔ ∀ e ∈ entries, e.1.BuiltFrom p ∧ e.2.BuiltFrom p := by
  induction entries with
  | nil => simp [EntriesBuiltFrom]
  | cons e entries ih => simp [EntriesBuiltFrom, ih, and_assoc]

mutual

theorem BuiltFrom.mono (hpq : ∀ x, p x → q x) : (v : Value) → v.BuiltFrom p → v.BuiltFrom q
  | null, _ | bool _, _ | double _, _ | float _, _ | decimal _, _ | str _, _ => trivial
  | int _, h => h
  | list _ items, h => AllBuiltFrom.mono hpq items h
  | tuple items, h => AllBuiltFrom.mono hpq items h
  | map entries, h => EntriesBuiltFrom.mono hpq entries h
  | code x, h => hpq x h
  | date _, h | bytes _, h | object .., h | handle _, h | callable _, h | token _, h
  | nodeKind _, h => h.elim
termination_by structural v => v

theorem AllBuiltFrom.mono (hpq : ∀ x, p x → q x) : (vs : List Value) → AllBuiltFrom p vs →
    AllBuiltFrom q vs
  | [], _ => trivial
  | v :: vs, h => ⟨BuiltFrom.mono hpq v h.1, AllBuiltFrom.mono hpq vs h.2⟩
termination_by structural vs => vs

theorem EntriesBuiltFrom.mono (hpq : ∀ x, p x → q x) : (entries : List (Value × Value)) →
    EntriesBuiltFrom p entries → EntriesBuiltFrom q entries
  | [], _ => trivial
  | (k, v) :: rest, h =>
      ⟨BuiltFrom.mono hpq k h.1, BuiltFrom.mono hpq v h.2.1, EntriesBuiltFrom.mono hpq rest h.2.2⟩
termination_by structural entries => entries

end

section Texts

variable [HostClasses]

mutual

theorem exists_inspect?_of_builtFrom (hp : ∀ x, p x → x.isUnwritable = false) :
    (v : Value) → v.BuiltFrom p → ∃ text, v.inspect? = .ok text
  | null, _ | bool _, _ | double _, _ | float _, _ | decimal _, _ | str _, _ => ⟨_, rfl⟩
  | int n, h => ⟨_, intText?_eq h⟩
  | list _ items, h => by
      obtain ⟨texts, htexts⟩ := exists_inspectAll?_of_allBuiltFrom hp items h
      exact ⟨_, by rw [inspect?, htexts, Except.map]⟩
  | tuple items, h => by
      obtain ⟨texts, htexts⟩ := exists_inspectAll?_of_allBuiltFrom hp items h
      exact ⟨_, by rw [inspect?, htexts, Except.map]⟩
  | map entries, h => by
      obtain ⟨texts, htexts⟩ := exists_inspectEntries?_of_entriesBuiltFrom hp entries h
      exact ⟨_, by rw [inspect?, htexts, Except.map]⟩
  | code x, h => ⟨_, x.inspect?_eq (hp x h)⟩
  | date _, h | bytes _, h | object .., h | handle _, h | callable _, h | token _, h
  | nodeKind _, h => h.elim
termination_by structural v => v

theorem exists_inspectAll?_of_allBuiltFrom (hp : ∀ x, p x → x.isUnwritable = false) :
    (vs : List Value) → AllBuiltFrom p vs → ∃ texts, inspectAll? vs = .ok texts
  | [], _ => ⟨_, rfl⟩
  | v :: vs, h => by
      obtain ⟨text, htext⟩ := exists_inspect?_of_builtFrom hp v h.1
      obtain ⟨texts, htexts⟩ := exists_inspectAll?_of_allBuiltFrom hp vs h.2
      exact ⟨_, by rw [inspectAll?, htext, htexts]; rfl⟩
termination_by structural vs => vs

theorem exists_inspectEntries?_of_entriesBuiltFrom (hp : ∀ x, p x → x.isUnwritable = false) :
    (entries : List (Value × Value)) → EntriesBuiltFrom p entries →
      ∃ texts, inspectEntries? entries = .ok texts
  | [], _ => ⟨_, rfl⟩
  | (k, v) :: rest, h => by
      obtain ⟨key, hkey⟩ := exists_inspect?_of_builtFrom hp k h.1
      obtain ⟨text, htext⟩ := exists_inspect?_of_builtFrom hp v h.2.1
      obtain ⟨texts, htexts⟩ := exists_inspectEntries?_of_entriesBuiltFrom hp rest h.2.2
      exact ⟨_, by rw [inspectEntries?, hkey, htext, htexts]; rfl⟩
termination_by structural entries => entries

end

theorem exists_display?_of_builtFrom (hp : ∀ x, p x → x.isUnwritable = false) (v : Value)
    (h : v.BuiltFrom p) : ∃ text, v.display? = .ok text := by
  cases v with
  | str _ | decimal _ => exact ⟨_, rfl⟩
  | date _ | nodeKind _ | object _ _ _ => exact h.elim
  | _ => exact exists_inspect?_of_builtFrom hp _ h

theorem exists_toText?_of_builtFrom (hp : ∀ x, p x → x.isUnwritable = false) (v : Value)
    (h : v.BuiltFrom p) : ∃ text, v.toText? = .ok text := by
  have hdisplay := exists_display?_of_builtFrom hp v h
  cases v with
  | null | bool _ | decimal _ => exact ⟨_, rfl⟩
  | code x =>
      cases x with
      | quote inner span => exact ⟨_, Node.text?_eq (hp _ h)⟩
      | _ => exact hdisplay
  | _ => exact hdisplay

theorem toText?_eq_toText {v : Value} (h : ∃ text, v.toText? = .ok text) :
    v.toText? = .ok v.toText := by
  obtain ⟨text, htext⟩ := h
  rw [toText, htext]
  rfl

mutual

theorem checkTexts_of_builtFrom (hp : ∀ x, p x → x.isUnwritable = false) :
    (v : Value) → v.BuiltFrom p → v.checkTexts = .ok ()
  | null, _ | bool _, _ | int _, _ | double _, _ | float _, _ | decimal _, _ | str _, _ => rfl
  | list _ items, h => checkTextsAll_of_allBuiltFrom hp items h
  | tuple items, h => checkTextsAll_of_allBuiltFrom hp items h
  | map entries, h => checkTextsEntries_of_entriesBuiltFrom hp entries h
  | code x, h => by
      rw [checkTexts, x.text?_eq (hp x h)]
      rfl
  | date _, h | bytes _, h | object .., h | handle _, h | callable _, h | token _, h
  | nodeKind _, h => h.elim
termination_by structural v => v

theorem checkTextsAll_of_allBuiltFrom (hp : ∀ x, p x → x.isUnwritable = false) :
    (vs : List Value) → AllBuiltFrom p vs → checkTextsAll vs = .ok ()
  | [], _ => rfl
  | v :: vs, h => by
      rw [checkTextsAll, checkTexts_of_builtFrom hp v h.1]
      exact checkTextsAll_of_allBuiltFrom hp vs h.2
termination_by structural vs => vs

theorem checkTextsEntries_of_entriesBuiltFrom (hp : ∀ x, p x → x.isUnwritable = false) :
    (entries : List (Value × Value)) → EntriesBuiltFrom p entries →
      checkTextsEntries entries = .ok ()
  | [], _ => rfl
  | (k, v) :: rest, h => by
      obtain ⟨key, hkey⟩ := exists_display?_of_builtFrom hp k h.1
      rw [checkTextsEntries, hkey, checkTexts_of_builtFrom hp v h.2.1]
      exact checkTextsEntries_of_entriesBuiltFrom hp rest h.2.2
termination_by structural entries => entries

end

mutual

theorem isPlain_plain : (v : Value) → v.BuiltFrom p → v.plain.IsPlain
  | null, _ | bool _, _ | double _, _ | float _, _ | decimal _, _ | str _, _ | code _, _ => trivial
  | int _, h => h
  | list _ items, h | tuple items, h => allBuiltFrom_iff.mpr (isPlain_of_mem_plainAll items h)
  | map entries, h =>
      entriesBuiltFrom_iff.mpr <|
        forall_mem_insertEntries (List.forall_mem_nil _) (isPlain_of_mem_plainEntries entries h)
  | date _, h | bytes _, h | object .., h | handle _, h | callable _, h | token _, h
  | nodeKind _, h => h.elim
termination_by structural v => v

theorem isPlain_of_mem_plainAll : (vs : List Value) → AllBuiltFrom p vs →
    ∀ v ∈ plainAll vs, v.IsPlain
  | [], _ => List.forall_mem_nil _
  | v :: vs, h => List.forall_mem_cons.mpr ⟨isPlain_plain v h.1, isPlain_of_mem_plainAll vs h.2⟩
termination_by structural vs => vs

theorem isPlain_of_mem_plainEntries : (entries : List (Value × Value)) →
    EntriesBuiltFrom p entries → ∀ e ∈ plainEntries entries, e.1.IsPlain ∧ e.2.IsPlain
  | [], _ => List.forall_mem_nil _
  | (_, v) :: rest, h =>
      List.forall_mem_cons.mpr
        ⟨⟨trivial, isPlain_plain v h.2.1⟩, isPlain_of_mem_plainEntries rest h.2.2⟩
termination_by structural entries => entries

end

end Texts

end Writing

theorem updateAll_eq_map (c : Change) (items : List Value) :
    updateAll c items = items.map (update c) := by
  induction items with
  | nil => rfl
  | cons v items ih => rw [updateAll, ih, List.map_cons]

theorem updateEntries_eq_map (c : Change) (entries : List (Value × Value)) :
    updateEntries c entries = entries.map (Prod.map (update c) (update c)) := by
  induction entries with
  | nil => rfl
  | cons e entries ih => rw [updateEntries, ih, List.map_cons, Prod.map]

end Value

namespace Store

variable {s : Store}

/-- The entries of a map as they are after all changes. -/
def settleEntries (s : Store) (entries : List (Value × Value)) : List (Value × Value) :=
  entries.map (Prod.map s.settle s.settle)

theorem settle_of_update_eq {v : Value} (h : ∀ c, v.update c = v) : s.settle v = v := by
  unfold settle
  induction s.changes with
  | nil => rfl
  | cons c changes ih => rw [List.foldl_cons, h, ih]

theorem settle_tuple (items : List Value) :
    s.settle (.tuple items) = .tuple (s.settleAll items) := by
  unfold settleAll settle
  induction s.changes generalizing items with
  | nil => exact congrArg Value.tuple (List.map_id' items).symm
  | cons c changes ih =>
      rw [List.foldl_cons, Value.update, ih, Value.updateAll_eq_map, List.map_map]
      rfl

theorem settle_map (entries : List (Value × Value)) :
    s.settle (.map entries) = .map (s.settleEntries entries) := by
  unfold settleEntries settle
  induction s.changes generalizing entries with
  | nil => exact congrArg Value.map (List.map_id' entries).symm
  | cons c changes ih =>
      rw [List.foldl_cons, Value.update, ih, Value.updateEntries_eq_map, List.map_map]
      rfl

/-- The contents of a list are those of the last change to it, whatever they were before; or no
change is about the list, and its items are brought up to date one by one. -/
theorem settle_list (s : Store) (id : Identity) :
    (∃ contents, ∀ items, s.settle (.list id items) = .list id contents) ∨
      ∀ items, s.settle (.list id items) = .list id (s.settleAll items) := by
  unfold settleAll settle
  induction s.changes with
  | nil => exact .inr fun items => congrArg (Value.list id) (List.map_id' items).symm
  | cons c changes ih =>
      cases hc : c.itemsOf? id with
      | some contents =>
          rcases ih with ⟨contents', h⟩ | h
          · refine .inl ⟨contents', fun items => ?_⟩
            simp only [List.foldl_cons, Value.update, hc, h]
          · refine .inl ⟨contents.map fun v => changes.foldl (fun v c => v.update c) v, ?_⟩
            intro items
            simp only [List.foldl_cons, Value.update, hc, h]
      | none =>
          rcases ih with ⟨contents', h⟩ | h
          · refine .inl ⟨contents', fun items => ?_⟩
            simp only [List.foldl_cons, Value.update, hc, h]
          · refine .inr fun items => ?_
            simp only [List.foldl_cons, Value.update, hc, h, Value.updateAll_eq_map, List.map_map]
            rfl

theorem settle_list_of_itemsOf? {id : Identity} (h : ∀ c ∈ s.changes, c.itemsOf? id = none)
    (items : List Value) : s.settle (.list id items) = .list id (s.settleAll items) := by
  unfold settleAll settle
  revert h
  induction s.changes generalizing items with
  | nil => exact fun _ => congrArg (Value.list id) (List.map_id' items).symm
  | cons c changes ih =>
      intro h
      have hc := h c List.mem_cons_self
      have hrest := ih (items.map (Value.update c)) fun c' hc' =>
        h c' (List.mem_cons_of_mem _ hc')
      simp only [List.foldl_cons, Value.update, hc, Value.updateAll_eq_map]
      rw [hrest, List.map_map]
      rfl

/-- Whether all identities that changes are about or hold were given out. -/
def Issued (s : Store) : Prop := ∀ c ∈ s.changes, ∀ i ∈ c.identities, i < s.nextIdentity

theorem Issued.itemsOf?_eq_none (hs : s.Issued) {id : Identity} (hid : s.nextIdentity ≤ id) :
    ∀ c ∈ s.changes, c.itemsOf? id = none := by
  intro c hc
  cases c with
  | member => rfl
  | items i contents =>
      have hi : i < s.nextIdentity := hs _ hc i List.mem_cons_self
      have hne : i ≠ id := Nat.ne_of_lt (Nat.lt_of_lt_of_le hi hid)
      simp [Change.itemsOf?, hne]

theorem settle_listOf (items : List Value) :
    s.settle (.listOf items) = .listOf (s.settleAll items) :=
  settle_list_of_itemsOf? (fun c _ => by cases c <;> simp [Change.itemsOf?]) items

theorem settle_object (id : Identity) (className : String) (attributes : List (String × Value)) :
    ∃ attributes', s.settle (.object id className attributes) =
      .object id className attributes' := by
  unfold settle
  induction s.changes generalizing attributes with
  | nil => exact ⟨attributes, rfl⟩
  | cons c changes ih =>
      rw [List.foldl_cons, Value.update]
      split <;> exact ih _

section Closure

variable {p : Node → Prop}

mutual

theorem builtFrom_settle_place (hs : s.Issued) : (v : Value) → ∀ {next : Identity},
    s.nextIdentity ≤ next → (s.settle v).BuiltFrom p → (s.settle (v.place next).1).BuiltFrom p
  | .list id items, next, hnext, h => by
      have hitems := allBuiltFrom_settle_placeAll hs items hnext
      simp only [Value.place]
      split
      · rename_i hid
        have hle := Nat.le_trans hnext (Value.le_placeAll items next)
        rw [hid, ← Value.listOf, settle_listOf] at h
        rw [settle_list_of_itemsOf? (hs.itemsOf?_eq_none hle)]
        exact hitems h
      · rcases s.settle_list id with ⟨contents, hcontents⟩ | hupdated
        · rw [hcontents] at h ⊢
          exact h
        · rw [hupdated] at h ⊢
          exact hitems h
  | .tuple items, next, hnext, h => by
      simp only [Value.place]
      rw [settle_tuple] at h ⊢
      exact allBuiltFrom_settle_placeAll hs items hnext h
  | .map entries, next, hnext, h => by
      simp only [Value.place]
      rw [settle_map] at h ⊢
      exact entriesBuiltFrom_settle_placeEntries hs entries hnext h
  | .object id className attributes, next, hnext, h => by
      obtain ⟨attributes', hsettle⟩ := s.settle_object id className attributes
      rw [hsettle] at h
      exact h.elim
  | .null, _, _, h | .bool _, _, _, h | .int _, _, _, h | .double _, _, _, h | .float _, _, _, h
  | .decimal _, _, _, h | .str _, _, _, h | .code _, _, _, h | .date _, _, _, h
  | .bytes _, _, _, h | .handle _, _, _, h | .callable _, _, _, h | .token _, _, _, h
  | .nodeKind _, _, _, h => h
termination_by structural v => v

theorem allBuiltFrom_settle_placeAll (hs : s.Issued) : (vs : List Value) → ∀ {next : Identity},
    s.nextIdentity ≤ next → Value.AllBuiltFrom p (s.settleAll vs) →
      Value.AllBuiltFrom p (s.settleAll (Value.placeAll vs next).1)
  | [], _, _, h => h
  | v :: vs, next, hnext, h =>
      ⟨builtFrom_settle_place hs v hnext h.1,
        allBuiltFrom_settle_placeAll hs vs (Nat.le_trans hnext (Value.le_place v next)) h.2⟩
termination_by structural vs => vs

theorem entriesBuiltFrom_settle_placeEntries (hs : s.Issued) : (entries : List (Value × Value)) →
    ∀ {next : Identity}, s.nextIdentity ≤ next →
      Value.EntriesBuiltFrom p (s.settleEntries entries) →
        Value.EntriesBuiltFrom p (s.settleEntries (Value.placeEntries entries next).1)
  | [], _, _, h => h
  | (k, v) :: rest, next, hnext, h => by
      have hk := Nat.le_trans hnext (Value.le_place k next)
      have hv := Nat.le_trans hk (Value.le_place v _)
      exact ⟨builtFrom_settle_place hs k hnext h.1, builtFrom_settle_place hs v hk h.2.1,
        entriesBuiltFrom_settle_placeEntries hs rest hv h.2.2⟩
termination_by structural entries => entries

end

theorem builtFrom_settle_of_update_eq {v : Value} (hv : ∀ c, v.update c = v)
    (h : (s.settle v).BuiltFrom p) : (s.settle (s.settle v)).BuiltFrom p := by
  rwa [settle_of_update_eq hv]

mutual

theorem builtFrom_settle_settle : (v : Value) → (s.settle v).BuiltFrom p →
    (s.settle (s.settle v)).BuiltFrom p
  | .list id items, h => by
      rcases s.settle_list id with ⟨contents, hcontents⟩ | hupdated
      · rw [hcontents] at h
        rw [hcontents, hcontents]
        exact h
      · rw [hupdated] at h
        rw [hupdated, hupdated]
        exact allBuiltFrom_settleAll_settleAll items h
  | .tuple items, h => by
      rw [settle_tuple] at h
      rw [settle_tuple, settle_tuple]
      exact allBuiltFrom_settleAll_settleAll items h
  | .map entries, h => by
      rw [settle_map] at h
      rw [settle_map, settle_map]
      exact entriesBuiltFrom_settleEntries_settleEntries entries h
  | .object id className attributes, h => by
      obtain ⟨attributes', hsettle⟩ := s.settle_object id className attributes
      rw [hsettle] at h
      exact h.elim
  | .null, h | .bool _, h | .int _, h | .double _, h | .float _, h | .decimal _, h | .str _, h
  | .code _, h | .date _, h | .bytes _, h | .handle _, h | .callable _, h | .token _, h
  | .nodeKind _, h => builtFrom_settle_of_update_eq (fun _ => rfl) h
termination_by structural v => v

theorem allBuiltFrom_settleAll_settleAll : (vs : List Value) →
    Value.AllBuiltFrom p (s.settleAll vs) → Value.AllBuiltFrom p (s.settleAll (s.settleAll vs))
  | [], h => h
  | v :: vs, h => ⟨builtFrom_settle_settle v h.1, allBuiltFrom_settleAll_settleAll vs h.2⟩
termination_by structural vs => vs

theorem entriesBuiltFrom_settleEntries_settleEntries : (entries : List (Value × Value)) →
    Value.EntriesBuiltFrom p (s.settleEntries entries) →
      Value.EntriesBuiltFrom p (s.settleEntries (s.settleEntries entries))
  | [], h => h
  | (k, v) :: rest, h =>
      ⟨builtFrom_settle_settle k h.1, builtFrom_settle_settle v h.2.1,
        entriesBuiltFrom_settleEntries_settleEntries rest h.2.2⟩
termination_by structural entries => entries

end

end Closure

end Store

end HostedLisp
