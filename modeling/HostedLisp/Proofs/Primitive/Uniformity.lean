import HostedLisp.Primitive.Library
import HostedLisp.Primitive.Standard
import HostedLisp.Proofs.Evaluation.Uniformity
import HostedLisp.Proofs.Value.Formats

namespace HostedLisp

namespace Template

open Drift

variable {δ : Drift} {c : Catalogue}

theorem effects_member? (h : δ.AdmitsCatalogue c) (v : Value) (name : String) :
    δ.Effects (Option.map δ.value) (member? c v name) (member? c (δ.value v) name) := by
  -- All values but maps are looked into alike.
  by_cases hmap : ∃ entries, v = .map entries
  · obtain ⟨entries, rfl⟩ := hmap
    change δ.Effects (Option.map δ.value) (Effect.pure (Value.entry? entries (.str name)))
      (Effect.pure (Value.entry? (Value.renameEntries δ.shifted entries)
        ((Value.str name).rename δ.shifted)))
    rw [Value.entry?_rename]
    exact .pure _
  · have hv : ∀ entries, v = .map entries → False := fun entries h => hmap ⟨entries, h⟩
    have hv' : ∀ entries, δ.value v = .map entries → False := by
      intro entries hentries
      cases v with
      | map entries => exact hv entries rfl
      | _ => cases hentries
    have hreached : hasAttributes (δ.value v) = hasAttributes v := hasAttributes_rename _ v
    rw [member?.eq_2 c v name hv, member?.eq_2 c (δ.value v) name hv', hreached]
    split
    · refine Effects.read_bind fun s s' hs => ?_
      dsimp only
      rw [hs.settle_eq, h.attribute? s s' _ name hs]
      cases c.attribute? s (s.settle v) name with
      | none => exact Effects.pure none
      | some a =>
          cases a with
          | method signature marked =>
              refine (h.call _ name []).bind fun v => (Effects.adopt v).bind fun v => ?_
              exact Effects.pure (some v)
          | data => exact (h.read _ name).bind fun v => Effects.pure (some v)
    · exact Effects.pure none

theorem effects_search? (h : δ.AdmitsCatalogue c) (name : String) (stack : List Value) :
    δ.Effects (Option.map δ.value) (search? c name stack)
      (search? c name (stack.map δ.value)) := by
  induction stack with
  | nil => exact .pure none
  | cons v rest ih =>
      refine (effects_member? h v name).bind fun found => ?_
      cases found with
      | none => exact ih
      | some w => exact .pure (some w)

theorem effects_follow? (h : δ.AdmitsCatalogue c) (path : List String) (found : Option Value) :
    δ.Effects (Option.map δ.value) (follow? c path found)
      (follow? c path (found.map δ.value)) := by
  induction path generalizing found with
  | nil => cases found <;> exact .pure _
  | cons name path ih =>
      cases found with
      | none => exact .pure none
      | some v => exact (effects_member? h v name).bind fun found => ih found

theorem effects_resolve (h : δ.AdmitsCatalogue c) (stack : List Value) (key : String) :
    δ.Effects δ.value (resolve c stack key) (resolve c (stack.map δ.value) key) := by
  have hsettle : ∀ found : Option Value, δ.Effects δ.value (Effect.settle (found.getD (.str "")))
      (Effect.settle ((found.map δ.value).getD (.str ""))) := by
    intro found
    cases found with
    | none => exact .settle (.str "")
    | some v => exact .settle v
  unfold resolve
  dsimp only
  split
  · rw [List.head?_map]
    exact hsettle stack.head?
  · split
    · exact hsettle none
    · rename_i first path _
      refine (effects_search? h first stack).bind fun found => ?_
      exact (effects_follow? h path found).bind hsettle

theorem effects_joinAll {f f' : Value → Effect String}
    (h : ∀ v, δ.Effects id (f v) (f' (δ.value v))) (vs : List Value) :
    δ.Effects id (joinAll f vs) (joinAll f' (vs.map δ.value)) := by
  induction vs with
  | nil => exact .pure ""
  | cons v vs ih => exact (h v).bind fun s => ih.bind fun t => .pure (s ++ t)

mutual

theorem effects_renderPart [HostClasses] [HostClasses.Anonymous] (h : δ.AdmitsCatalogue c) : ∀
    (p : Part) (stack : List Value),
    δ.Effects id (renderPart c p stack) (renderPart c p (stack.map δ.value))
  | .text s, _ => .pure s
  | .value key isEscaped, stack => by
      rw [renderPart, renderPart]
      refine (effects_resolve h stack key).bind fun v => ?_
      rw [value, Value.display?_rename]
      exact (Effects.ofExcept v.display?).bind fun s => .pure _
  | .group key inverted body, stack => by
      rw [renderPart, renderPart]
      refine (effects_resolve h stack key).bind fun v => ?_
      rw [value, isTrue_rename, sectionItems_rename, Value.renameAll_eq_map]
      split
      · split
        · exact .pure ""
        · exact effects_renderParts h body stack
      · exact effects_joinAll (fun item => effects_renderParts h body (item :: stack)) _

theorem effects_renderParts [HostClasses] [HostClasses.Anonymous] (h : δ.AdmitsCatalogue c) : ∀
    (ps : List Part) (stack : List Value),
    δ.Effects id (renderParts c ps stack) (renderParts c ps (stack.map δ.value))
  | [], _ => .pure ""
  | p :: ps, stack => by
      rw [renderParts, renderParts]
      exact (effects_renderPart h p stack).bind fun s =>
        (effects_renderParts h ps stack).bind fun t => .pure (s ++ t)

end

theorem effects_render [HostClasses] [HostClasses.Anonymous] (h : δ.AdmitsCatalogue c)
    (template : String) (names : List (Value × Value)) :
    δ.Effects id (render c template names)
      (render c template (Value.renameEntries δ.shifted names)) := by
  unfold render
  cases parse template with
  | ok parts => exact effects_renderParts h parts [.map names]
  | error f => exact .fail _

end Template

namespace Primitive

open Drift

variable {δ : Drift}

theorem actions_ofExcept {α : Type} {next next' : α → Action} (r : Except Failure α)
    (h : ∀ a, δ.Actions (next a) (next' a)) :
    δ.Actions (Action.ofExcept r next) (Action.ofExcept r next') := by
  cases r with
  | ok a => exact h a
  | error f => exact .fail f

theorem actions_evalAll {next next' : List Value → Action} (xs : List Node)
    (h : ∀ vs, δ.Actions (next vs) (next' (vs.map δ.value))) :
    δ.Actions (Action.evalAll xs next) (Action.evalAll xs next') := by
  have hgo : ∀ xs vs, δ.Actions (Action.evalAll.go next xs vs)
      (Action.evalAll.go next' xs (vs.map δ.value)) := by
    intro xs
    induction xs with
    | nil =>
        intro vs
        rw [Action.evalAll.go, Action.evalAll.go, ← List.map_reverse]
        exact .settle _ h
    | cons x rest ih =>
        intro vs
        exact .eval x fun v => ih (v :: vs)
  exact hgo xs []

theorem actions_expecting {next next' : Value → Action} (x : Node) (wanted : ValueType)
    (h : ∀ v, δ.Actions (next v) (next' (δ.value v))) :
    δ.Actions (Action.expecting x wanted next) (Action.expecting x wanted next') := by
  refine .eval x fun v => ?_
  rw [value, Value.isOf_rename, Value.type_rename]
  split
  · exact h v
  · exact .fail _

theorem actions_text (s : String) : δ.Actions (.done (.str s)) (.done (.str s)) := .done (.str s)

theorem admits_force : δ.Admits force := by
  intro e
  unfold force
  split
  · refine .eval _ fun v => ?_
    cases v with
    | code x =>
        cases x with
        | quote inner span => exact .eval inner .done
        | _ => exact .fail _
    | _ => exact .fail _
  · exact .fail _

theorem truth?_rename (ρ : Renaming) (v : Value) : truth? (v.rename ρ) = truth? v := by
  cases v <;> rfl

theorem admits_choose : δ.Admits choose := by
  intro e
  unfold choose
  split
  · refine .eval _ fun v => .trace _ _ ?_
    rw [value, truth?_rename, Value.type_rename]
    split
    · exact .eval _ .done
    · exact .eval _ .done
    · exact .fail _
  · exact .fail _

theorem admits_compare (name : String) (wanted : Bool) : δ.Admits (compare name wanted) := by
  intro e
  unfold compare
  split
  · refine actions_evalAll _ fun vs => ?_
    match vs with
    | [] => exact .fail _
    | [_] => exact .fail _
    | [a, b] =>
        have hequal : valuesEqual (δ.value a) (δ.value b) = valuesEqual a b :=
          Value.valuesEqual_rename δ.shifted a b
        dsimp only [List.map]
        rw [hequal]
        exact .done (.bool _)
    | _ :: _ :: _ :: _ => exact .fail _
  · exact .fail _

theorem admits_textOf [HostClasses] [HostClasses.Anonymous] : δ.Admits textOf := by
  intro e
  unfold textOf
  split
  · refine .eval _ fun v => ?_
    rw [value, Value.toText?_rename]
    exact actions_ofExcept _ actions_text
  · exact .fail _

theorem admits_concat [HostClasses] [HostClasses.Anonymous] : δ.Admits concat := by
  intro e
  refine actions_evalAll _ fun vs => ?_
  have htexts : (vs.map δ.value).mapM Value.toText? = vs.mapM Value.toText? := by
    rw [List.mapM_map]
    exact congrArg (vs.mapM ·) (funext (Value.toText?_rename δ.shifted))
  rw [htexts]
  exact actions_ofExcept _ fun texts => actions_text _

theorem textItems_rename (ρ : Renaming) (name : String) (number : Nat) (vs : List Value) :
    textItems name number (Value.renameAll ρ vs) = textItems name number vs := by
  induction vs generalizing number with
  | nil => rfl
  | cons v vs ih => cases v <;> simp only [Value.renameAll, Value.rename, textItems, ih]

theorem admits_columns (name : String) (column : String → String → String) :
    δ.Admits (columns name column) := by
  intro e
  unfold columns
  split
  · refine actions_expecting _ _ fun table => actions_expecting _ _ fun names => ?_
    cases table with
    | str table =>
        cases names with
        | list id vs =>
            simp only [value, Value.rename, textItems_rename]
            exact actions_ofExcept _ fun names => actions_text _
        | _ => exact .done .null
    | _ => exact .done .null
  · exact .fail _

theorem admits_serializeValue [HostClasses] [HostClasses.Anonymous] : δ.Admits serializeValue := by
  intro e
  unfold serializeValue
  split
  · refine actions_expecting _ _ fun format => .eval _ fun v => ?_
    rw [value, value, Value.display_rename, serialize_rename]
    split
    · exact actions_text _
    · exact .fail _
  · exact .fail _

theorem actions_renderOver [HostClasses] [HostClasses.Anonymous] {c : Catalogue}
    (h : δ.AdmitsCatalogue c) (template : Value) (names : List (Value × Value)) :
    δ.Actions (renderOver c template names)
      (renderOver c (δ.value template) (Value.renameEntries δ.shifted names)) := by
  unfold renderOver
  rw [value, Value.display_rename]
  exact .effect ((Template.effects_render h _ names).bind fun s => Effects.pure (Value.str s)) .done

theorem namesInScope_drift (flat : List (String × Value)) :
    namesInScope (δ.names flat) = Value.renameEntries δ.shifted (namesInScope flat) := by
  rw [namesInScope, names, List.map_map, namesInScope, Value.renameEntries_eq_map, List.map_map]
  refine List.map_congr_left fun b _ => ?_
  exact congrArg (Prod.mk (Value.str b.1)) (Template.data_rename δ.shifted b.2)

theorem insertAll_rename (ρ : Renaming) (entries names : List (Value × Value)) :
    (Value.renameEntries ρ entries).foldl
        (fun names entry => Value.insertEntry entry.1 entry.2 names) (Value.renameEntries ρ names) =
      Value.renameEntries ρ (entries.foldl
        (fun names entry => Value.insertEntry entry.1 entry.2 names) names) := by
  induction entries generalizing names with
  | nil => rfl
  | cons e rest ih =>
      obtain ⟨k, v⟩ := e
      rw [Value.renameEntries, List.foldl_cons, List.foldl_cons, Value.insertEntry_rename, ih]

theorem admits_render [HostClasses] [HostClasses.Anonymous] {c : Catalogue}
    (h : δ.AdmitsCatalogue c) : δ.Admits (render c) := by
  intro e
  unfold render
  split
  · refine actions_expecting _ _ fun template => .view fun flat => ?_
    rw [namesInScope_drift]
    exact actions_renderOver h template _
  · refine actions_expecting _ _ fun template => .view fun flat => .eval _ fun context => ?_
    cases context with
    | map entries =>
        simp only [value, Value.rename, Template.dataEntries_rename]
        rw [namesInScope_drift, insertAll_rename]
        exact actions_renderOver h template _
    | _ => exact .fail _
  · exact .fail _

theorem admits_standard (δ : Drift) {entry : String × Primitive} (h : entry ∈ standard) :
    δ.Admits entry.2 := by
  simp only [standard, List.mem_cons, List.not_mem_nil, or_false] at h
  rcases h with rfl | rfl | rfl | rfl
  · exact admits_compare _ _
  · exact admits_force
  · exact admits_choose
  · exact admits_compare _ _

theorem admits_library [HostClasses] [HostClasses.Anonymous] {c : Catalogue}
    (hc : δ.AdmitsCatalogue c) {entry : String × Primitive}
    (h : entry ∈ library c) : δ.Admits entry.2 := by
  simp only [library, List.mem_cons, List.not_mem_nil, or_false] at h
  rcases h with rfl | rfl | rfl | rfl | rfl | rfl
  · exact admits_concat
  · exact admits_columns _ _
  · exact admits_columns _ _
  · exact admits_render hc
  · exact admits_serializeValue
  · exact admits_textOf

end Primitive

end HostedLisp
