import HostedLisp.Host.Builtin
import HostedLisp.Host.Reflection
import HostedLisp.Host.Sample
import HostedLisp.Proofs.Evaluation.Uniformity

namespace HostedLisp

open Drift

namespace Value

variable (ρ : Renaming)

mutual

theorem changeablePart?_rename : ∀ v : Value, (v.rename ρ).changeablePart? = v.changeablePart?
  | tuple items => by simp only [rename, changeablePart?, firstChangeable?_rename items]
  | list _ _ | map _ | object _ _ _ | null | bool _ | int _ | double _ | float _ | decimal _
  | str _ | code _ | date _ | bytes _ | handle _ | callable _ | token _ | nodeKind _ => rfl

theorem firstChangeable?_rename : ∀ xs : List Value,
    firstChangeable? (renameAll ρ xs) = firstChangeable? xs
  | [] => rfl
  | x :: xs => by
      simp only [renameAll, firstChangeable?, changeablePart?_rename x, firstChangeable?_rename xs]

end

theorem checkKey_rename (v : Value) : (v.rename ρ).checkKey = v.checkKey := by
  rw [checkKey, changeablePart?_rename, checkKey]

end Value

theorem missingAttribute_rename (ρ : Renaming) (v : Value) (name : String) :
    missingAttribute (v.rename ρ) name = missingAttribute v name := by
  cases v <;> rfl

namespace Builtin

open Value

variable (ρ : Renaming)

section Attributes

theorem attribute?_rename (v : Value) (name : String) :
    attribute? (v.rename ρ) name = attribute? v name := by
  cases v <;> rfl

theorem rename_readNode (n : Node) (name : String) :
    (readNode n name).map (rename ρ) = readNode n name := by
  have hcodes : ∀ xs : List Node, (tuple (xs.map code)).rename ρ = tuple (xs.map code) := by
    intro xs
    rw [rename, renameAll_eq_map, List.map_map]
    rfl
  have htexts : ∀ xs : List String, (tuple (xs.map str)).rename ρ = tuple (xs.map str) := by
    intro xs
    rw [rename, renameAll_eq_map, List.map_map]
    rfl
  have htoken : ∀ t : Option Token, (tokenValue t).rename ρ = tokenValue t := by
    intro t
    cases t <;> rfl
  unfold readNode
  split
  case h_3 | h_4 => exact congrArg some (htoken _)
  case h_9 | h_11 => exact congrArg some (hcodes _)
  case h_14 => exact congrArg some (htexts _)
  case h_17 => exact congrArg some (rename_ofLiteral ρ _)
  all_goals rfl

theorem rename_readData (v : Value) (name : String) :
    (readData v name).map (rename ρ) = readData v name := by
  unfold readData
  split
  case h_1 => exact rename_readNode ρ _ name
  case h_6 t => cases t.text <;> rfl
  case h_10 => split <;> rfl
  case h_12 => cases v <;> rfl
  all_goals rfl

theorem rename_of_data {v : Value} {name : String} (h : attribute? v name = some .data) :
    v.rename ρ = v := by
  cases v with
  | list _ _ | tuple _ | map _ | object _ _ _ =>
      unfold attribute? at h
      split at h <;> cases h
  | _ => rfl

end Attributes

section Arguments

theorem bound_rename (length : Nat) (v : Value) (absent : Nat) :
    cut.bound length (v.rename ρ) absent = cut.bound length v absent := by
  cases v <;> rfl

theorem cut_rename (length : Nat) (bounds : List Value) :
    cut length (bounds.map (rename ρ)) = cut length bounds := by
  match bounds with
  | [] => rfl
  | [a] => simp only [List.map, cut, bound_rename]
  | a :: b :: _ => simp only [List.map, cut, bound_rename]

theorem sought_rename (v : Value) : sought (v.rename ρ) = sought v := by
  cases v <;> rfl

theorem beginsWith_rename (s : List Char) (v : Value) :
    beginsWith s (v.rename ρ) = beginsWith s v := by
  cases v with
  | tuple parts =>
      rw [rename, renameAll_eq_map, beginsWith, beginsWith, List.foldlM_map]
      congr 1
      funext found p
      cases p <;> rfl
  | _ => rfl

theorem expectCount_map (name : String) (most : Nat) (f : Value → Value) (arguments : List Value) :
    expectCount name most (arguments.map f) = expectCount name most arguments := by
  rw [expectCount, expectCount, List.length_map, List.isEmpty_map]

end Arguments

section Results

theorem map_bind_eq_self {α : Type} {f : Value → Value} (r : Except Failure α)
    {k : α → Except Failure Value} (h : ∀ a, (k a).map f = k a) :
    (r >>= k).map f = r >>= k := by
  cases r with
  | error x => rfl
  | ok a => exact h a

theorem map_rename_searchText (s : List Char) (name : String) (arguments : List Value) :
    (searchText s name arguments).map (rename ρ) = searchText s name arguments := by
  cases arguments with
  | nil => rfl
  | cons part bounds =>
      unfold searchText
      dsimp only
      split
      · rfl
      · refine map_bind_eq_self _ fun range => ?_
        -- What is sought is checked for some of the searches only.
        split
        all_goals
          refine map_bind_eq_self _ fun check => ?_
          split
          · exact map_bind_eq_self _ fun found => rfl
          · split
            · split <;> rfl
            · rfl
          · split <;> rfl

theorem searchText_rename (s : List Char) (name : String) (arguments : List Value) :
    searchText s name (arguments.map (rename ρ)) = searchText s name arguments := by
  cases arguments with
  | nil => rfl
  | cons part bounds =>
      simp only [List.map_cons, searchText, List.length_map, cut_rename, sought_rename,
        beginsWith_rename, List.length_cons]

theorem withoutArguments_rename (name : String) (arguments : List Value) {v : Value}
    (h : v.rename ρ = v) :
    withoutArguments name (arguments.map (rename ρ)) v =
      (withoutArguments name arguments v).map (rename ρ) := by
  rw [withoutArguments, withoutArguments, List.isEmpty_map, List.length_map]
  split
  · exact congrArg Except.ok h.symm
  · rfl

theorem countIn_rename (items : List Value) (arguments : List Value) (name : String) :
    withOneArgument name (arguments.map (rename ρ)) (countIn (renameAll ρ items)) =
      (withOneArgument name arguments (countIn items)).map (rename ρ) := by
  match arguments with
  | [] => rfl
  | [x] =>
      have hsame : (fun item => item.same (x.rename ρ)) ∘ rename ρ = fun item => item.same x :=
        funext fun item => same_rename ρ item x
      simp only [List.map, withOneArgument, countIn, renameAll_eq_map, List.filter_map, hsame,
        List.length_map]
      rfl
  | _ :: _ :: _ => simp only [List.map, withOneArgument, List.length_cons, List.length_map]; rfl

theorem indexIn_rename (items : List Value) {notFound : Value → Except Failure Failure}
    (hnotFound : ∀ x : Value, notFound (x.rename ρ) = notFound x) (arguments : List Value) :
    indexIn (renameAll ρ items) notFound (arguments.map (rename ρ)) =
      (indexIn items notFound arguments).map (rename ρ) := by
  unfold indexIn
  rw [expectCount_map]
  cases expectCount "index" 3 arguments with
  | error f => rfl
  | ok _ =>
      cases arguments with
      | nil => rfl
      | cons x bounds =>
          have hsame : (fun item => item.same (x.rename ρ)) ∘ rename ρ = fun item => item.same x :=
            funext fun item => same_rename ρ item x
          simp only [List.map_cons, renameAll_eq_map, List.length_map, cut_rename, hnotFound]
          cases cut items.length bounds with
          | error f => rfl
          | ok range =>
              dsimp only [bind, Except.bind]
              rw [← List.map_take, ← List.map_drop, List.findIdx?_map, hsame]
              cases ((items.take range.2).drop range.1).findIdx? fun item => item.same x with
              | some place => rfl
              | none => cases notFound x <;> rfl

theorem getEntry_rename (entries : List (Value × Value)) (arguments : List Value) :
    getEntry (renameEntries ρ entries) (arguments.map (rename ρ)) =
      (getEntry entries arguments).map (rename ρ) := by
  unfold getEntry
  rw [expectCount_map]
  cases expectCount "get" 2 arguments with
  | error f => rfl
  | ok _ =>
      cases arguments with
      | nil => rfl
      | cons key rest =>
          simp only [List.map_cons, checkKey_rename, entry?_rename, List.head?_map]
          cases key.checkKey with
          | error f => rfl
          | ok _ =>
              cases Value.entry? entries key with
              | some v => rfl
              | none => cases rest.head? <;> rfl

variable [HostClasses]

theorem notInList_rename [HostClasses.Anonymous] (x : Value) : notInList
    (x.rename ρ) = notInList x := by
  rw [notInList, inspect?_rename, notInList]

theorem result_rename [HostClasses.Anonymous] (v : Value) (name : String) (arguments : List Value) :
    result (v.rename ρ) name (arguments.map (rename ρ)) =
      (result v name arguments).map (rename ρ) := by
  cases v with
  | str s =>
      by_cases hupper : name = "upper"
      · subst hupper
        exact withoutArguments_rename ρ _ arguments rfl
      · by_cases hlower : name = "lower"
        · subst hlower
          exact withoutArguments_rename ρ _ arguments rfl
        · simp only [rename, result, searchText_rename, map_rename_searchText]
  | list id xs =>
      by_cases hcount : name = "count"
      · subst hcount
        exact countIn_rename ρ xs arguments _
      · simp only [rename, result, indexIn_rename ρ xs (notInList_rename ρ)]
  | tuple xs =>
      by_cases hcount : name = "count"
      · subst hcount
        exact countIn_rename ρ xs arguments _
      · simp only [rename, result, indexIn_rename ρ xs fun _ => (rfl : notInTuple _ = notInTuple _)]
  | map entries => exact getEntry_rename ρ entries arguments
  | object id className attributes => rfl
  | bool b => exact withoutArguments_rename ρ _ arguments rfl
  | int n => exact withoutArguments_rename ρ _ arguments rfl
  | double x => exact withoutArguments_rename ρ _ arguments rfl
  | float x => exact withoutArguments_rename ρ _ arguments rfl
  | date d => exact withoutArguments_rename ρ _ arguments rfl
  | _ => rfl

end Results

variable {δ : Drift}

theorem effects_read (v : Value) (name : String) :
    δ.Effects δ.value (read v name) (read (δ.value v) name) := by
  have hattribute : attribute? (δ.value v) name = attribute? v name := attribute?_rename _ v name
  unfold read
  rw [hattribute]
  cases h : attribute? v name with
  | none =>
      rw [value, missingAttribute_rename]
      exact .fail _
  | some a =>
      cases a with
      | method signature marked => exact Effects.pure (Value.callable name)
      | data =>
          have hread := rename_readData δ.shifted v name
          rw [value, rename_of_data δ.shifted h]
          cases hv : readData v name with
          | none => exact Effects.pure Value.null
          | some w =>
              rw [hv] at hread
              have hw : δ.value w = w := Option.some.inj hread
              have hpure := Effects.pure (δ := δ) (f := δ.value) w
              rwa [hw] at hpure

theorem effects_write (v : Value) (name : String) :
    δ.Effects id (write v name) (write (δ.value v) name) := by
  cases v <;> exact .fail _

theorem value_list (i : Identity) (items : List Value) :
    δ.value (.list i items) = .list (δ.shifted i) (items.map δ.value) := by
  rw [value, rename, renameAll_eq_map]
  rfl

theorem effects_setItems (i : Identity) (items : List Value) :
    δ.Effects id (.modify fun s => s.setItems i items)
      (.modify fun s => s.setItems (δ.shifted i) (items.map δ.value)) := by
  intro s s' h
  refine ⟨rfl, ?_, h.next_eq, h.first_le⟩
  change s'.changes ++ [Change.items (δ.shifted i) (s'.settleAll (items.map δ.value))] =
    (s.changes ++ [Change.items i (s.settleAll items)]).map (Change.rename δ.shifted)
  rw [h.changes_eq, h.settleAll_eq, List.map_append, List.map_singleton, Change.rename,
    renameAll_eq_map]
  rfl

variable [HostClasses]

theorem effects_result [HostClasses.Anonymous] (v : Value) (name : String)
    (arguments : List Value) : δ.Effects δ.value (.ofExcept (result v name arguments))
      (.ofExcept (result (δ.value v) name (arguments.map δ.value))) := by
  have hresult : result (δ.value v) name (arguments.map δ.value) =
      (result v name arguments).map δ.value := result_rename δ.shifted v name arguments
  rw [hresult]
  cases result v name arguments with
  | ok w => exact .pure w
  | error f => exact .fail f

theorem effects_append (i : Identity) (items arguments : List Value) :
    δ.Effects δ.value (call (.list i items) "append" arguments)
      (call (δ.value (.list i items)) "append" (arguments.map δ.value)) := by
  rw [value_list]
  match arguments with
  | [] => exact Effects.fail _
  | [x] =>
      have hset := effects_setItems (δ := δ) i (items ++ [x])
      rw [List.map_append] at hset
      exact hset.bind fun _ => Effects.pure Value.null
  | x :: y :: rest =>
      change δ.Effects δ.value (.fail (wrongCount _ _ (rest.length + 2)))
        (.fail (wrongCount _ _ ((rest.map δ.value).length + 2)))
      rw [List.length_map]
      exact .fail _

theorem call_of_ne {name : String} (h : name ≠ "append") (v : Value) (arguments : List Value) :
    call v name arguments = .ofExcept (result v name arguments) := by
  unfold call
  split
  · exact absurd rfl h
  · rfl

theorem effects_call [HostClasses.Anonymous] (v : Value) (name : String) (arguments : List Value) :
    δ.Effects δ.value (call v name arguments) (call (δ.value v) name (arguments.map δ.value)) := by
  cases v with
  | list i items =>
      by_cases happend : name = "append"
      · rw [happend]
        exact effects_append i items arguments
      · rw [call_of_ne happend, call_of_ne happend]
        exact effects_result _ name arguments
  | _ => exact effects_result _ name arguments

theorem admits_catalogue [HostClasses.Anonymous] (δ : Drift) : δ.AdmitsCatalogue catalogue where
  attribute? _ _ v name _ := attribute?_rename δ.shifted v name
  read := effects_read
  write v name _ := effects_write v name
  call := effects_call
  module? _ := rfl

end Builtin

namespace Reflection

variable {δ : Drift} {r : Reflection}

theorem effects_reach (h : δ.AdmitsCatalogue r.catalogue) (access : Event) (target : Value)
    (name : String) :
    δ.Effects id (r.reach access target name) (r.reach access (δ.value target) name) := by
  unfold reach
  refine (Effects.record _ _).bind fun _ => Effects.read_bind fun s s' hs => ?_
  rw [h.attribute? s s' target name hs]
  exact Effects.pure (f := id) _

theorem effects_importModule (h : δ.AdmitsCatalogue r.catalogue) (path : String) :
    δ.Effects (Option.map δ.value) (.ofExcept (r.importModule path))
      (.ofExcept (r.importModule path)) := by
  unfold importModule
  split
  · exact .fail _
  · exact .fail _
  · have hpure := Effects.pure (δ := δ) (f := Option.map δ.value) (r.catalogue.module? path)
    rwa [h.module?] at hpure

theorem value_of_mem_types (htypes : ∀ t ∈ r.types, ∀ i ∈ t.2.identities, i < δ.first)
    {path : String} {v : Value} (hv : findAttribute? path r.types = some v) : δ.value v = v := by
  obtain ⟨t, ht, rfl⟩ := Option.map_eq_some_iff.mp hv
  have hmem : t ∈ r.types := List.mem_of_find?_eq_some ht
  exact t.2.rename_eq_self fun i hi => Renaming.shift_of_lt (htypes t hmem i hi)

theorem effects_resolveType (h : δ.AdmitsCatalogue r.catalogue)
    (htypes : ∀ t ∈ r.types, ∀ i ∈ t.2.identities, i < δ.first) (segments : List String) :
    δ.Effects (Option.map δ.value) (r.resolveType segments) (r.resolveType segments) := by
  unfold resolveType
  split
  · exact Effects.pure none
  · rename_i v _ hv
    have hsettle := Effects.settle (δ := δ) v
    rw [value_of_mem_types htypes hv] at hsettle
    exact hsettle.bind fun v => Effects.pure (some v)
  · split
    · exact Effects.pure none
    · refine (effects_importModule h _).bind fun found => ?_
      cases found with
      | some m => exact Effects.pure (some m)
      | none =>
          dsimp only [Option.map]
          split
          · exact Effects.pure none
          · refine (effects_importModule h _).bind fun found => ?_
            cases found with
            | none => exact Effects.pure none
            | some m =>
                refine (effects_reach h _ m _).bind fun a => ?_
                cases a with
                | none => exact Effects.pure none
                | some a => exact (h.read m _).bind fun v => Effects.pure (some v)

theorem effects_resolveMember [HostClasses] (h : δ.AdmitsCatalogue r.catalogue) (target : Value)
    (name : String) (types : Option (List ValueType)) :
    δ.Effects (Option.map (Member.rename δ.shifted)) (r.resolveMember target name types)
      (r.resolveMember (δ.value target) name types) := by
  unfold resolveMember
  split
  · exact Effects.pure none
  · refine (effects_reach h _ target name).bind fun a => ?_
    rcases a with _ | (⟨signature, marked⟩ | _)
    · exact Effects.pure none
    · dsimp only [id]
      split
      · exact Effects.pure none
      · cases types with
        | none => exact Effects.pure (some (Member.mk target name false))
        | some ts =>
            dsimp only
            refine (Effects.ofExcept _).bind fun accepted => ?_
            cases accepted with
            | true => exact Effects.pure (some (Member.mk target name false))
            | false => exact Effects.pure none
    · exact Effects.pure (some (Member.mk target name true))

theorem effects_callProperty {c : Catalogue} (h : δ.AdmitsCatalogue c) (target : Value)
    (name : String) (arguments : List Value) :
    δ.Effects δ.value (callProperty c target name arguments)
      (callProperty c (δ.value target) name (arguments.map δ.value)) := by
  match arguments with
  | [] => exact (Effects.record _ _).bind fun _ => h.read target name
  | [v] =>
      refine (Effects.record _ _).bind fun _ => (h.write target name v).bind fun _ => ?_
      exact Effects.pure v
  | x :: y :: rest =>
      change δ.Effects δ.value
        (.fail (.typeError (_ ++ toString (rest.length + 2))))
        (.fail (.typeError (_ ++ toString ((rest.map δ.value).length + 2))))
      rw [List.length_map]
      exact .fail _

theorem effects_call (h : δ.AdmitsCatalogue r.catalogue) (m : Member) (arguments : List Value) :
    δ.Effects δ.value (r.call m arguments)
      (r.call (m.rename δ.shifted) (arguments.map δ.value)) := by
  obtain ⟨target, name, isProperty⟩ := m
  cases isProperty with
  | true => exact effects_callProperty h target name arguments
  | false => exact h.call target name arguments

/-- A host that exposes a catalogue which answers the same does so as well. -/
theorem admits_host [HostClasses] (h : δ.AdmitsCatalogue r.catalogue)
    (htypes : ∀ t ∈ r.types, ∀ i ∈ t.2.identities, i < δ.first) : δ.AdmitsHost r.host where
  resolveType := effects_resolveType h htypes
  resolveMember := effects_resolveMember h
  call := effects_call h

end Reflection

namespace Sample

theorem inspectObject_rename (ρ : Renaming) (o : ObjectView) :
    inspectObject (o.rename ρ) = inspectObject o := by
  have hlookup : ∀ attributes : List (String × Value × Except Failure String),
      (attributes.map fun a => (a.1, a.2.1.rename ρ, a.2.2)).lookup "count" =
        (attributes.lookup "count").map fun a => (a.1.rename ρ, a.2) := by
    intro attributes
    induction attributes with
    | nil => rfl
    | cons a rest ih =>
        obtain ⟨name, v, text⟩ := a
        rw [List.map_cons, List.lookup_cons, List.lookup_cons, ih]
        dsimp only
        cases "count" == name <;> rfl
  rw [inspectObject, inspectObject, ObjectView.rename, hlookup]
  cases o.attributes.lookup "count" <;> rfl

/-- The classes of the sample application show no identities. -/
scoped instance anonymous : HostClasses.Anonymous where
  inspectObject_rename := inspectObject_rename
  displayObject_rename := inspectObject_rename

end Sample

end HostedLisp
