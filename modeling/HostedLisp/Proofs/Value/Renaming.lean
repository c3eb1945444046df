import HostedLisp.Value.Change
import HostedLisp.Value.Equality
import HostedLisp.Value.Printer

namespace HostedLisp

/-- A renaming of identities, which keeps different ones apart and gives none to what has none. -/
structure Renaming where
  toFun : Identity → Identity
  injective : Function.Injective toFun
  map_zero : toFun 0 = 0

namespace Renaming

instance : CoeFun Renaming fun _ => Identity → Identity := ⟨toFun⟩

variable (ρ : Renaming) {i j : Identity}

theorem eq_iff : ρ i = ρ j ↔ i = j := ρ.injective.eq_iff

theorem eq_zero_iff : ρ i = 0 ↔ i = 0 := by
  have h : ρ i = ρ 0 ↔ i = 0 := ρ.eq_iff
  rwa [ρ.map_zero] at h

end Renaming

namespace Value

mutual

/-- The value with other identities. -/
def rename (ρ : Renaming) : Value → Value
  | list id items => list (ρ id) (renameAll ρ items)
  | tuple items => tuple (renameAll ρ items)
  | map entries => map (renameEntries ρ entries)
  | object id className attributes => object (ρ id) className (renameAttributes ρ attributes)
  | v => v
termination_by structural v => v

/-- The values with other identities. -/
def renameAll (ρ : Renaming) : List Value → List Value
  | [] => []
  | x :: xs => rename ρ x :: renameAll ρ xs
termination_by structural xs => xs

/-- The entries of a map with other identities. -/
def renameEntries (ρ : Renaming) : List (Value × Value) → List (Value × Value)
  | [] => []
  | (k, v) :: rest => (rename ρ k, rename ρ v) :: renameEntries ρ rest
termination_by structural xs => xs

/-- The attributes of an object with other identities. -/
def renameAttributes (ρ : Renaming) : List (String × Value) → List (String × Value)
  | [] => []
  | (name, v) :: rest => (name, rename ρ v) :: renameAttributes ρ rest
termination_by structural xs => xs

end

variable (ρ : Renaming)

theorem renameAll_eq_map (xs : List Value) : renameAll ρ xs = xs.map (rename ρ) := by
  induction xs with
  | nil => rfl
  | cons x xs ih => rw [renameAll, ih, List.map_cons]

theorem renameEntries_eq_map (entries : List (Value × Value)) :
    renameEntries ρ entries = entries.map (Prod.map (rename ρ) (rename ρ)) := by
  induction entries with
  | nil => rfl
  | cons e rest ih =>
      obtain ⟨k, v⟩ := e
      rw [renameEntries, ih, List.map_cons]
      rfl

@[simp] theorem length_renameEntries (entries : List (Value × Value)) :
    (renameEntries ρ entries).length = entries.length := by
  rw [renameEntries_eq_map, List.length_map]

@[simp] theorem isEmpty_renameAll (xs : List Value) : (renameAll ρ xs).isEmpty = xs.isEmpty := by
  cases xs <;> rfl

@[simp] theorem isEmpty_renameEntries (entries : List (Value × Value)) :
    (renameEntries ρ entries).isEmpty = entries.isEmpty := by
  cases entries <;> rfl

@[simp] theorem rename_ofLiteral (l : Literal) : (ofLiteral l).rename ρ = ofLiteral l := by
  cases l <;> rfl

@[simp] theorem rename_listOf (items : List Value) :
    (listOf items).rename ρ = listOf (renameAll ρ items) := by
  rw [listOf, rename, ρ.map_zero, listOf]

section Kinds

@[simp] theorem type_rename (v : Value) : (v.rename ρ).type = v.type := by
  cases v <;> rfl

@[simp] theorem isNull_rename (v : Value) : (v.rename ρ).isNull = v.isNull := by
  cases v <;> rfl

@[simp] theorem isOf_rename (v : Value) (t : ValueType) : (v.rename ρ).isOf t = v.isOf t := by
  rw [isOf, type_rename, isOf]

@[simp] theorem numeric?_rename (v : Value) : (v.rename ρ).numeric? = v.numeric? := by
  cases v <;> rfl

@[simp] theorem scalarKind?_rename (v : Value) : (v.rename ρ).scalarKind? = v.scalarKind? := by
  cases v <;> rfl

end Kinds

end Value

/-- The object with other identities. Its attributes are shown as before. -/
def ObjectView.rename (ρ : Renaming) (o : ObjectView) : ObjectView :=
  ⟨ρ o.id, o.className, o.attributes.map fun a => (a.1, a.2.1.rename ρ, a.2.2)⟩

/-- Classes that show an object alike under all identities, so that no text tells which one it
is. -/
class HostClasses.Anonymous [HostClasses] : Prop where
  inspectObject_rename : ∀ (ρ : Renaming) (o : ObjectView),
    inspectObject (o.rename ρ) = inspectObject o
  displayObject_rename : ∀ (ρ : Renaming) (o : ObjectView),
    displayObject (o.rename ρ) = displayObject o

namespace Value

section Texts

open HostClasses.Anonymous

variable (ρ : Renaming) [HostClasses]

mutual

@[simp] theorem inspect?_rename [HostClasses.Anonymous] :
    ∀ v : Value, (v.rename ρ).inspect? = v.inspect?
  | list _ items => by simp only [rename, inspect?, inspectAll?_rename items]
  | tuple items => by simp only [rename, inspect?, inspectAll?_rename items]
  | map entries => by simp only [rename, inspect?, inspectEntries?_rename entries]
  | object id className attributes => by
      rw [rename, inspect?, inspect?, inspectAttributes_rename attributes]
      exact inspectObject_rename ρ ⟨id, className, inspectAttributes attributes⟩
  | null | bool _ | int _ | double _ | float _ | decimal _ | str _ | code _ | date _ | bytes _
  | handle _ | callable _ | token _ | nodeKind _ => rfl

theorem inspectAll?_rename [HostClasses.Anonymous] :
    ∀ xs : List Value, inspectAll? (renameAll ρ xs) = inspectAll? xs
  | [] => rfl
  | x :: xs => by simp only [renameAll, inspectAll?, inspect?_rename x, inspectAll?_rename xs]

theorem inspectEntries?_rename [HostClasses.Anonymous] : ∀ entries : List (Value × Value),
    inspectEntries? (renameEntries ρ entries) = inspectEntries? entries
  | [] => rfl
  | (k, v) :: rest => by
      simp only [renameEntries, inspectEntries?, inspect?_rename k, inspect?_rename v,
        inspectEntries?_rename rest]

theorem inspectAttributes_rename [HostClasses.Anonymous] : ∀ attributes : List (String × Value),
    inspectAttributes (renameAttributes ρ attributes) =
      (inspectAttributes attributes).map fun a => (a.1, a.2.1.rename ρ, a.2.2)
  | [] => rfl
  | (name, v) :: rest => by
      rw [renameAttributes, inspectAttributes, inspectAttributes, inspect?_rename v,
        inspectAttributes_rename rest, List.map_cons]

end

@[simp] theorem display?_rename [HostClasses.Anonymous] (v : Value) :
    (v.rename ρ).display? = v.display? := by
  cases v with
  | list id items => exact inspect?_rename ρ (list id items)
  | tuple items => exact inspect?_rename ρ (tuple items)
  | map entries => exact inspect?_rename ρ (map entries)
  | object id className attributes =>
      rw [rename, display?, display?, inspectAttributes_rename ρ attributes]
      exact displayObject_rename ρ ⟨id, className, inspectAttributes attributes⟩
  | _ => rfl

mutual

@[simp] theorem source?_rename [HostClasses.Anonymous] :
    ∀ v : Value, (v.rename ρ).source? = v.source?
  | list _ items => by simp only [rename, source?, sourceAll?_rename items]
  | tuple items => by simp only [rename, source?, sourceAll?_rename items]
  | map entries => inspect?_rename ρ (map entries)
  | object id className attributes => inspect?_rename ρ (object id className attributes)
  | null | bool _ | int _ | double _ | float _ | decimal _ | str _ | code _ | date _ | bytes _
  | handle _ | callable _ | token _ | nodeKind _ => rfl

theorem sourceAll?_rename [HostClasses.Anonymous] :
    ∀ xs : List Value, sourceAll? (renameAll ρ xs) = sourceAll? xs
  | [] => rfl
  | x :: xs => by simp only [renameAll, sourceAll?, source?_rename x, sourceAll?_rename xs]

end

@[simp] theorem toText?_rename [HostClasses.Anonymous] (v : Value) :
    (v.rename ρ).toText? = v.toText? := by
  cases v with
  | list id items => exact display?_rename ρ (list id items)
  | tuple items => exact display?_rename ρ (tuple items)
  | map entries => exact display?_rename ρ (map entries)
  | object id className attributes => exact display?_rename ρ (object id className attributes)
  | _ => rfl

@[simp] theorem display_rename [HostClasses.Anonymous] (v : Value) :
    (v.rename ρ).display = v.display := by
  rw [display, display?_rename, display]

end Texts

section Equality

variable (ρ : Renaming)

mutual

theorem same_rename : ∀ v w : Value, (v.rename ρ).same (w.rename ρ) = v.same w
  | list _ xs, w => by cases w <;> simp only [rename, same, sameItems_rename xs]
  | tuple xs, w => by cases w <;> simp only [rename, same, sameItems_rename xs]
  | map xs, w => by
      cases w <;> simp only [rename, same, sameEntries_rename xs, length_renameEntries]
  | object i _ _, w => by
      cases w with
      | object j _ _ => exact Bool.eq_iff_iff.mpr (by simp [rename, same, ρ.eq_iff])
      | _ => rfl
  | bool b, w => congrArg (Number.Exact.same (bool b).numeric?) (numeric?_rename ρ w)
  | int n, w => congrArg (Number.Exact.same (int n).numeric?) (numeric?_rename ρ w)
  | double x, w => congrArg (Number.Exact.same (double x).numeric?) (numeric?_rename ρ w)
  | float x, w => congrArg (Number.Exact.same (float x).numeric?) (numeric?_rename ρ w)
  | decimal d, w => congrArg (Number.Exact.same (decimal d).numeric?) (numeric?_rename ρ w)
  | null, w | str _, w | code _, w | date _, w | bytes _, w | handle _, w | callable _, w
  | token _, w | nodeKind _, w => by cases w <;> rfl

theorem sameItems_rename : ∀ xs ys : List Value,
    sameItems (renameAll ρ xs) (renameAll ρ ys) = sameItems xs ys
  | [], [] => rfl
  | [], _ :: _ => rfl
  | _ :: _, [] => rfl
  | x :: xs, y :: ys => by
      simp only [renameAll, sameItems, same_rename x y, sameItems_rename xs ys]

theorem sameEntries_rename : ∀ xs ys : List (Value × Value),
    sameEntries (renameEntries ρ xs) (renameEntries ρ ys) = sameEntries xs ys
  | [], _ => rfl
  | (k, v) :: rest, ys => by
      have hk : (fun e : Value × Value => (k.rename ρ).same e.1) ∘ Prod.map (rename ρ) (rename ρ) =
          fun e => k.same e.1 := funext fun e => same_rename k e.1
      rw [renameEntries, sameEntries, sameEntries, sameEntries_rename rest ys,
        renameEntries_eq_map ρ ys, List.find?_map, hk]
      cases ys.find? fun e => k.same e.1 with
      | none => rfl
      | some e => simp only [Option.map_some, Prod.map_snd, same_rename v e.2]

end

theorem valuesEqual_rename (v w : Value) :
    valuesEqual (v.rename ρ) (w.rename ρ) = valuesEqual v w := by
  simp only [valuesEqual, isNull_rename, scalarKind?_rename, same_rename ρ]

theorem entry?_rename (entries : List (Value × Value)) (key : Value) :
    entry? (renameEntries ρ entries) (key.rename ρ) =
      (Value.entry? entries key).map (rename ρ) := by
  have hkey : (fun e : Value × Value => e.1.same (key.rename ρ)) ∘ Prod.map (rename ρ) (rename ρ) =
      fun e => e.1.same key := funext fun e => same_rename ρ e.1 key
  unfold entry?
  rw [renameEntries_eq_map, List.find?_map, hkey]
  cases entries.find? fun e => e.1.same key <;> rfl

theorem insertEntry_rename (key value : Value) (entries : List (Value × Value)) :
    insertEntry (key.rename ρ) (value.rename ρ) (renameEntries ρ entries) =
      renameEntries ρ (insertEntry key value entries) := by
  induction entries with
  | nil => rfl
  | cons e rest ih =>
      obtain ⟨k, v⟩ := e
      simp only [renameEntries, insertEntry, same_rename ρ, ih]
      split <;> rfl

theorem mapOf_rename (entries : List (Value × Value)) :
    mapOf (renameEntries ρ entries) = (mapOf entries).rename ρ := by
  have hfold : ∀ entries acc : List (Value × Value),
      (renameEntries ρ entries).foldl (fun m e => insertEntry e.1 e.2 m) (renameEntries ρ acc) =
        renameEntries ρ (entries.foldl (fun m e => insertEntry e.1 e.2 m) acc) := by
    intro entries
    induction entries with
    | nil => exact fun _ => rfl
    | cons e rest ih =>
        intro acc
        obtain ⟨k, v⟩ := e
        rw [renameEntries, List.foldl_cons, List.foldl_cons, insertEntry_rename ρ, ih]
  rw [mapOf, mapOf, rename]
  exact congrArg map (hfold entries [])

end Equality

end Value

section Changes

def Owner.rename (ρ : Renaming) : Owner → Owner
  | object id => object (ρ id)
  | handle h => handle h

def Change.rename (ρ : Renaming) : Change → Change
  | items id contents => items (ρ id) (Value.renameAll ρ contents)
  | member owner name value => member (owner.rename ρ) name (value.rename ρ)

variable (ρ : Renaming)

theorem setAttribute_rename (name : String) (value : Value) (attributes : List (String × Value)) :
    setAttribute name (value.rename ρ) (Value.renameAttributes ρ attributes) =
      Value.renameAttributes ρ (setAttribute name value attributes) := by
  induction attributes with
  | nil => rfl
  | cons a rest ih =>
      obtain ⟨n, v⟩ := a
      simp only [Value.renameAttributes, setAttribute, ih]
      split <;> rfl

theorem Change.attributeOf?_rename (c : Change) (owner : Owner) :
    (c.rename ρ).attributeOf? (owner.rename ρ) =
      (c.attributeOf? owner).map (Prod.map id (Value.rename ρ)) := by
  have howner : ∀ o : Owner, o.rename ρ = owner.rename ρ ↔ o = owner := by
    intro o
    cases o <;> cases owner <;> simp [Owner.rename, ρ.eq_iff]
  cases c with
  | items id contents => rfl
  | member o name value =>
      simp only [Change.rename, attributeOf?, howner]
      split <;> rfl

theorem Change.itemsOf?_rename (c : Change) (id : Identity) :
    (c.rename ρ).itemsOf? (ρ id) = (c.itemsOf? id).map (Value.renameAll ρ) := by
  have hne : ρ id ≠ 0 ↔ id ≠ 0 := not_congr ρ.eq_zero_iff
  cases c with
  | items i contents =>
      simp only [Change.rename, itemsOf?, ρ.eq_iff, hne]
      split <;> rfl
  | member owner name value => rfl

namespace Value

mutual

theorem update_rename (c : Change) : ∀ v : Value,
    (v.rename ρ).update (c.rename ρ) = (v.update c).rename ρ
  | list id items => by
      rw [rename, update, update, c.itemsOf?_rename ρ]
      cases c.itemsOf? id with
      | none => simp only [Option.map_none, updateAll_rename c items, rename]
      | some contents => rfl
  | tuple items => by simp only [rename, update, updateAll_rename c items]
  | map entries => by simp only [rename, update, updateEntries_rename c entries]
  | object id className attributes => by
      have howner := c.attributeOf?_rename ρ (.object id)
      rw [Owner.rename] at howner
      simp only [rename, update, updateAttributes_rename c attributes, howner]
      cases c.attributeOf? (.object id) with
      | none => rfl
      | some a => simp only [Option.map_some, Prod.map, id_eq, setAttribute_rename, rename]
  | null | bool _ | int _ | double _ | float _ | decimal _ | str _ | code _ | date _ | bytes _
  | handle _ | callable _ | token _ | nodeKind _ => rfl

theorem updateAll_rename (c : Change) : ∀ xs : List Value,
    updateAll (c.rename ρ) (renameAll ρ xs) = renameAll ρ (updateAll c xs)
  | [] => rfl
  | x :: xs => by simp only [renameAll, updateAll, update_rename c x, updateAll_rename c xs]

theorem updateEntries_rename (c : Change) : ∀ entries : List (Value × Value),
    updateEntries (c.rename ρ) (renameEntries ρ entries) =
      renameEntries ρ (updateEntries c entries)
  | [] => rfl
  | (k, v) :: rest => by
      simp only [renameEntries, updateEntries, update_rename c k, update_rename c v,
        updateEntries_rename c rest]

theorem updateAttributes_rename (c : Change) : ∀ attributes : List (String × Value),
    updateAttributes (c.rename ρ) (renameAttributes ρ attributes) =
      renameAttributes ρ (updateAttributes c attributes)
  | [] => rfl
  | (name, v) :: rest => by
      simp only [renameAttributes, updateAttributes, update_rename c v,
        updateAttributes_rename c rest]

end

end Value

end Changes

end HostedLisp
