import HostedLisp.Primitive.Library
import HostedLisp.Primitive.Standard
import HostedLisp.Proofs.Evaluation.Legible

namespace HostedLisp

/-- Whether the members of a catalogue pass no code on but what a text can spell. -/
structure Catalogue.Legible (c : Catalogue) : Prop where
  read : ∀ target name, target.Legible → (c.read target name).Upholds Value.Legible
  write : ∀ target name value, value.Legible →
    (c.write target name value).Upholds fun _ => True
  call : ∀ target name arguments, target.Legible → (∀ v ∈ arguments, v.Legible) →
    (c.call target name arguments).Upholds Value.Legible
  module? : ∀ path, ∀ v ∈ c.module? path, v.Legible

theorem Value.legible_entry? {entries : List (Value × Value)} {key : Value}
    (h : (map entries).Legible) : ∀ v ∈ entry? entries key, v.Legible := by
  intro v hv
  obtain ⟨e, he, rfl⟩ := Option.map_eq_some_iff.mp hv
  exact (legible_map_iff.mp h e (List.mem_of_find?_eq_some he)).2

namespace Template

mutual

theorem legible_data : (v : Value) → v.Legible → (data v).Legible
  | .map entries, h => Value.legible_map_iff.mpr (legible_dataEntries entries h)
  | .list _ items, h => Value.legible_list_iff.mpr (legible_dataAll items h)
  | .tuple items, h => Value.legible_list_iff.mpr (legible_dataAll items h)
  | .code _, _ | .decimal _, _ => Value.legible_of_nodes_eq_nil rfl
  | .null, h | .bool _, h | .int _, h | .double _, h | .float _, h | .str _, h | .date _, h
  | .bytes _, h | .object .., h | .handle _, h | .callable _, h | .token _, h
  | .nodeKind _, h => h
termination_by structural v => v

theorem legible_dataAll : (vs : List Value) → (Value.tuple vs).Legible →
    ∀ v ∈ dataAll vs, v.Legible
  | [], _ => List.forall_mem_nil _
  | v :: vs, h => by
      obtain ⟨hv, hvs⟩ := List.forall_mem_cons.mp (Value.legible_tuple_iff.mp h)
      exact List.forall_mem_cons.mpr
        ⟨legible_data v hv, legible_dataAll vs (Value.legible_tuple_iff.mpr hvs)⟩
termination_by structural vs => vs

theorem legible_dataEntries : (entries : List (Value × Value)) → (Value.map entries).Legible →
    ∀ e ∈ dataEntries entries, e.1.Legible ∧ e.2.Legible
  | [], _ => List.forall_mem_nil _
  | (_, v) :: rest, h => by
      obtain ⟨he, hrest⟩ := List.forall_mem_cons.mp (Value.legible_map_iff.mp h)
      exact List.forall_mem_cons.mpr
        ⟨⟨he.1, legible_data v he.2⟩, legible_dataEntries rest (Value.legible_map_iff.mpr hrest)⟩
termination_by structural entries => entries

end

theorem legible_sectionItems {v : Value} (h : v.Legible) : ∀ w ∈ sectionItems v, w.Legible := by
  unfold sectionItems
  split
  · exact List.forall_mem_nil _
  · split
    · exact Value.legible_list_iff.mp h
    · exact Value.legible_tuple_iff.mp h
    · exact Value.legible_codes (Value.legible_code_iff.mp h).items
    · have hcall := (Value.legible_code_iff.mp h).invocation
      exact Value.legible_codes (Node.allWellFormed_iff.mp hcall.2)
    · exact List.forall_mem_singleton.mpr h

section Names

variable {c : Catalogue} (hc : c.Legible)
include hc

theorem upholds_member? {v : Value} (hv : v.Legible) (name : String) :
    (member? c v name).Upholds fun found => ∀ v ∈ found, v.Legible := by
  unfold member?
  split
  · exact .pure (Value.legible_entry? hv)
  · split
    · refine Effect.Upholds.read.bind fun s hs => ?_
      have htarget := hs.settle hv
      dsimp only
      split
      · refine (hc.call _ name [] htarget (List.forall_mem_nil _)).bind fun v hv => ?_
        exact (Effect.Upholds.adopt hv).bind fun w hw => .pure hw.of_mem_some
      · exact (hc.read _ name htarget).bind fun v hv => .pure hv.of_mem_some
      · exact .pure nofun
    · exact .pure nofun

theorem upholds_search? (name : String) {stack : List Value} (hstack : ∀ v ∈ stack, v.Legible) :
    (search? c name stack).Upholds fun found => ∀ v ∈ found, v.Legible := by
  induction stack with
  | nil => exact .pure nofun
  | cons v rest ih =>
      obtain ⟨hv, hrest⟩ := List.forall_mem_cons.mp hstack
      refine (upholds_member? hc hv name).bind fun found hfound => ?_
      cases found with
      | none => exact ih hrest
      | some w => exact .pure hfound

theorem upholds_follow? (path : List String) {found : Option Value}
    (hfound : ∀ v ∈ found, v.Legible) :
    (follow? c path found).Upholds fun found => ∀ v ∈ found, v.Legible := by
  induction path generalizing found with
  | nil => cases found <;> exact .pure hfound
  | cons name path ih =>
      cases found with
      | none => exact .pure nofun
      | some v =>
          exact (upholds_member? hc (hfound v rfl) name).bind fun found hfound => ih hfound

theorem upholds_resolve {stack : List Value} (hstack : ∀ v ∈ stack, v.Legible) (key : String) :
    (resolve c stack key).Upholds Value.Legible := by
  have hsettle : ∀ found : Option Value, (∀ v ∈ found, v.Legible) →
      (Effect.settle (found.getD (.str ""))).Upholds Value.Legible := by
    intro found hfound
    cases found with
    | none => exact .settle (Value.legible_of_nodes_eq_nil rfl)
    | some v => exact .settle (hfound v rfl)
  unfold resolve
  dsimp only
  split
  · refine Effect.Upholds.bind (.pure fun v hv => ?_) hsettle
    exact hstack v (List.mem_of_head? hv)
  · split
    · exact Effect.Upholds.bind (.pure nofun) hsettle
    · refine Effect.Upholds.bind (upholds_search? hc _ hstack) fun found hfound => ?_
      exact (upholds_follow? hc _ hfound).bind hsettle

omit hc in
theorem upholds_joinAll {α : Type} {f : α → Effect String} {xs : List α}
    (h : ∀ x ∈ xs, (f x).Upholds fun _ => True) : (joinAll f xs).Upholds fun _ => True := by
  induction xs with
  | nil => exact .pure trivial
  | cons x xs ih =>
      obtain ⟨hx, hxs⟩ := List.forall_mem_cons.mp h
      exact hx.bind fun s _ => (ih hxs).bind fun t _ => .pure trivial

end Names

mutual

theorem upholds_renderPart [HostClasses] {c : Catalogue} (hc : c.Legible) :
    ∀ (p : Part) (stack : List Value), (∀ v ∈ stack, v.Legible) →
      (renderPart c p stack).Upholds fun _ => True
  | .text s, _, _ => .pure trivial
  | .value key isEscaped, stack, hstack => by
      rw [renderPart]
      refine (upholds_resolve hc hstack key).bind fun v _ => ?_
      exact (Effect.Upholds.ofExcept fun _ _ => trivial).bind fun s _ => .pure trivial
  | .group key inverted body, stack, hstack => by
      rw [renderPart]
      refine (upholds_resolve hc hstack key).bind fun v hv => ?_
      split
      · split
        · exact .pure trivial
        · exact upholds_renderParts hc body stack hstack
      · refine upholds_joinAll fun item hitem => upholds_renderParts hc body _ ?_
        exact List.forall_mem_cons.mpr ⟨legible_sectionItems hv item hitem, hstack⟩

theorem upholds_renderParts [HostClasses] {c : Catalogue} (hc : c.Legible) :
    ∀ (ps : List Part) (stack : List Value), (∀ v ∈ stack, v.Legible) →
      (renderParts c ps stack).Upholds fun _ => True
  | [], _, _ => .pure trivial
  | p :: ps, stack, hstack => by
      rw [renderParts]
      refine (upholds_renderPart hc p stack hstack).bind fun s _ => ?_
      exact (upholds_renderParts hc ps stack hstack).bind fun t _ => .pure trivial

end

theorem upholds_render [HostClasses] {c : Catalogue} (hc : c.Legible) (template : String)
    {names : List (Value × Value)} (hnames : ∀ e ∈ names, e.1.Legible ∧ e.2.Legible) :
    (render c template names).Upholds fun _ => True := by
  unfold render
  cases parse template with
  | ok parts =>
      exact upholds_renderParts hc parts _
        (List.forall_mem_singleton.mpr (Value.legible_map_iff.mpr hnames))
  | error f => exact .fail _

end Template

namespace Primitive

theorem legible_str (s : String) : (Value.str s).Legible := Value.legible_of_nodes_eq_nil rfl

section Requests

variable {e : Invocation}

theorem legible_ofExcept {α : Type} {P : α → Prop} {r : Except Failure α} {next : α → Action}
    (hr : Yields P r) (h : ∀ a, P a → (next a).Legible) : (Action.ofExcept r next).Legible := by
  cases r with
  | ok a => exact h a (hr a rfl)
  | error f => exact .fail f

theorem legible_ofExcept_any {α : Type} (r : Except Failure α) {next : α → Action}
    (h : ∀ a, (next a).Legible) : (Action.ofExcept r next).Legible :=
  legible_ofExcept (P := fun _ => True) (fun _ _ => trivial) fun a _ => h a

theorem legible_expecting {x : Node} (wanted : ValueType) {next : Value → Action}
    (hx : x.Legible) (h : ∀ v, v.Legible → (next v).Legible) :
    (Action.expecting x wanted next).Legible := by
  refine .eval hx fun v hv => ?_
  split
  · exact h v hv
  · exact .fail _

theorem legible_evalAll {xs : List Node} {next : List Value → Action} (hxs : ∀ x ∈ xs, x.Legible)
    (h : ∀ vs, (∀ v ∈ vs, v.Legible) → (next vs).Legible) :
    (Action.evalAll xs next).Legible := by
  have hgo : ∀ vs, (∀ v ∈ vs, v.Legible) → (Action.evalAll.go next xs vs).Legible := by
    induction xs with
    | nil => exact fun vs hvs => .settle (fun v hv => hvs v (List.mem_reverse.mp hv)) h
    | cons x xs ih =>
        obtain ⟨hx, hrest⟩ := List.forall_mem_cons.mp hxs
        exact fun vs hvs => .eval hx fun v hv =>
          ih hrest (v :: vs) (List.forall_mem_cons.mpr ⟨hv, hvs⟩)
  exact hgo [] (List.forall_mem_nil _)

theorem legible_answer {x : Node} (hx : x.Legible) : (Action.eval x .done).Legible :=
  .eval hx fun _ hv => .done hv

end Requests

section Standard

variable {e : Invocation} (he : ∀ x ∈ e.parameters, x.Legible)
include he

theorem legible_force : (force e).Legible := by
  unfold force
  split
  · rename_i x hparameters
    refine .eval (he x (by simp [hparameters])) fun v hv => ?_
    split
    · exact legible_answer (.inl (Value.legible_code_iff.mp hv).inner)
    · exact .fail _
  · exact .fail _

theorem legible_choose : (choose e).Legible := by
  unfold choose
  split
  · rename_i test whenTrue whenFalse hparameters
    refine .eval (he test (by simp [hparameters])) fun v _ => .trace ?_
    split
    · exact legible_answer (he whenTrue (by simp [hparameters]))
    · exact legible_answer (he whenFalse (by simp [hparameters]))
    · exact .fail _
  · exact .fail _

theorem legible_compare (name : String) (wanted : Bool) : (compare name wanted e).Legible := by
  unfold compare
  split
  · refine legible_evalAll he fun vs _ => ?_
    split
    · exact .done (Value.legible_of_nodes_eq_nil rfl)
    · exact .fail _
  · exact .fail _

end Standard

section Library

variable {e : Invocation} (he : ∀ x ∈ e.parameters, x.Legible)
include he

theorem legible_textOf [HostClasses] : (textOf e).Legible := by
  unfold textOf
  split
  · rename_i x hparameters
    refine .eval (he x (by simp [hparameters])) fun v _ => ?_
    exact legible_ofExcept_any _ fun s => .done (legible_str s)
  · exact .fail _

theorem legible_concat [HostClasses] : (concat e).Legible :=
  legible_evalAll he fun _ _ => legible_ofExcept_any _ fun _ => .done (legible_str _)

theorem legible_columns (name : String) (column : String → String → String) :
    (columns name column e).Legible := by
  unfold columns
  split
  · rename_i x y hparameters
    refine legible_expecting _ (he x (by simp [hparameters])) fun table _ => ?_
    refine legible_expecting _ (he y (by simp [hparameters])) fun names _ => ?_
    split
    · exact legible_ofExcept_any _ fun _ => .done (legible_str _)
    · exact .done (Value.legible_of_nodes_eq_nil rfl)
  · exact .fail _

theorem legible_serializeValue [HostClasses] : (serializeValue e).Legible := by
  unfold serializeValue
  split
  · rename_i x y hparameters
    refine legible_expecting _ (he x (by simp [hparameters])) fun format _ => ?_
    refine .eval (he y (by simp [hparameters])) fun v _ => ?_
    split
    · exact .done (legible_str _)
    · exact .fail _
  · exact .fail _

omit he in
theorem legible_renderOver [HostClasses] {c : Catalogue} (hc : c.Legible) (template : Value)
    {names : List (Value × Value)} (hnames : ∀ e ∈ names, e.1.Legible ∧ e.2.Legible) :
    (renderOver c template names).Legible := by
  refine .effect ?_ fun v hv => .done hv
  exact (Template.upholds_render hc _ hnames).bind fun s _ => .pure (legible_str s)

omit he in
theorem legible_namesInScope {flat : List (String × Value)} (h : ∀ e ∈ flat, e.2.Legible) :
    ∀ e ∈ namesInScope flat, e.1.Legible ∧ e.2.Legible := by
  intro e he
  obtain ⟨b, hb, rfl⟩ := List.mem_map.mp he
  exact ⟨legible_str b.1, Template.legible_data b.2 (h b hb)⟩

theorem legible_render [HostClasses] {c : Catalogue} (hc : c.Legible) : (render c e).Legible := by
  unfold render
  split
  · rename_i x hparameters
    refine legible_expecting _ (he x (by simp [hparameters])) fun template _ => ?_
    exact .view fun flat hflat => legible_renderOver hc _ (legible_namesInScope hflat)
  · rename_i x y hparameters
    refine legible_expecting _ (he x (by simp [hparameters])) fun template _ => ?_
    refine .view fun flat hflat => .eval (he y (by simp [hparameters])) fun context hcontext => ?_
    split
    · rename_i entries
      have hentries := Template.legible_dataEntries entries hcontext
      refine legible_renderOver hc _ ?_
      exact Value.forall_mem_insertEntries (legible_namesInScope hflat) hentries
    · exact .fail _
  · exact .fail _

end Library

theorem legible_listOf_str (texts : List String) :
    (Value.listOf (texts.map Value.str)).Legible := by
  refine Value.legible_list_iff.mpr fun v hv => ?_
  obtain ⟨s, -, rfl⟩ := List.mem_map.mp hv
  exact legible_str s

theorem Legible.of_parameters {p : Primitive}
    (h : ∀ e : Invocation, (∀ x ∈ e.parameters, x.Legible) → (p e).Legible) : p.Legible :=
  fun e he => h e fun x hx => .inl (Node.allWellFormed_iff.mp he.2 x hx)

theorem legible_standard : ∀ entry ∈ standard, entry.2.Legible := by
  intro entry h
  simp only [standard, List.mem_cons, List.not_mem_nil, or_false] at h
  refine .of_parameters fun e he => ?_
  rcases h with rfl | rfl | rfl | rfl
  · exact legible_compare he _ _
  · exact legible_force he
  · exact legible_choose he
  · exact legible_compare he _ _

theorem legible_library [HostClasses] {c : Catalogue} (hc : c.Legible) :
    ∀ entry ∈ library c, entry.2.Legible := by
  intro entry h
  simp only [library, List.mem_cons, List.not_mem_nil, or_false] at h
  refine .of_parameters fun e he => ?_
  rcases h with rfl | rfl | rfl | rfl | rfl | rfl
  · exact legible_concat he
  · exact legible_columns he _ _
  · exact legible_columns he _ _
  · exact legible_render he hc
  · exact legible_serializeValue he
  · exact legible_textOf he

end Primitive

end HostedLisp
