import HostedLisp.Primitive.Library
import HostedLisp.Primitive.Standard
import HostedLisp.Proofs.Evaluation.Keeping

namespace HostedLisp

variable {R : Memory → Memory → Prop}

/-- Whether the members of a catalogue keep to a relation. -/
structure Catalogue.Conserves (c : Catalogue) (R : Memory → Memory → Prop) : Prop where
  read : ∀ target name, (c.read target name).Conserves R
  write : ∀ target name value, (c.write target name value).Conserves R
  call : ∀ target name arguments, (c.call target name arguments).Conserves R

namespace Template

variable {c : Catalogue}

section Names

variable (hR : Memory.Conserved R) (hc : c.Conserves R)
include hR hc

theorem conserves_member? (v : Value) (name : String) : (member? c v name).Conserves R := by
  have hpre := hR.toPreordered
  unfold member?
  split
  · exact .pure hpre _
  · split
    · refine .read_bind fun s => ?_
      dsimp only
      split
      · refine .bind hpre (hc.call _ _ _) fun v => .bind hpre (hR.adopt v) fun v => ?_
        exact .pure hpre _
      · exact .bind hpre (hc.read _ _) fun v => .pure hpre _
      · exact .pure hpre _
    · exact .pure hpre _

theorem conserves_search? (name : String) (stack : List Value) :
    (search? c name stack).Conserves R := by
  induction stack with
  | nil => exact .pure hR.toPreordered none
  | cons v rest ih =>
      refine .bind hR.toPreordered (conserves_member? hR hc v name) fun found => ?_
      cases found with
      | none => exact ih
      | some found => exact .pure hR.toPreordered _

theorem conserves_follow? (path : List String) (found : Option Value) :
    (follow? c path found).Conserves R := by
  induction path generalizing found with
  | nil => cases found <;> exact .pure hR.toPreordered _
  | cons name path ih =>
      cases found with
      | none => exact .pure hR.toPreordered none
      | some v => exact .bind hR.toPreordered (conserves_member? hR hc v name) ih

theorem conserves_resolve (stack : List Value) (key : String) :
    (resolve c stack key).Conserves R := by
  have hpre := hR.toPreordered
  unfold resolve
  have hsettle : ∀ found : Option Value, (Effect.settle (found.getD (.str ""))).Conserves R :=
    fun _ => .settle hpre _
  dsimp only
  split
  · exact .bind hpre (.pure hpre _) hsettle
  · split
    · exact .bind hpre (.pure hpre _) hsettle
    · exact .bind hpre (conserves_search? hR hc _ stack) fun found =>
        .bind hpre (conserves_follow? hR hc _ found) hsettle

omit hc in
theorem conserves_joinAll {α : Type} {f : α → Effect String} (h : ∀ x, (f x).Conserves R)
    (xs : List α) : (joinAll f xs).Conserves R := by
  have hpre := hR.toPreordered
  induction xs with
  | nil => exact .pure hpre ""
  | cons x xs ih => exact .bind hpre (h x) fun s => .bind hpre ih fun t => .pure hpre _

end Names

mutual

theorem conserves_renderPart [HostClasses] (hR : Memory.Conserved R) (hc : c.Conserves R) :
    ∀ (p : Part) (stack : List Value), (renderPart c p stack).Conserves R
  | .text s, _ => .pure hR.toPreordered s
  | .value key isEscaped, stack => by
      have hpre := hR.toPreordered
      rw [renderPart]
      refine .bind hpre (conserves_resolve hR hc stack key) fun v => ?_
      exact .bind hpre (.ofExcept hpre _) fun s => .pure hpre _
  | .group key inverted body, stack => by
      rw [renderPart]
      refine .bind hR.toPreordered (conserves_resolve hR hc stack key) fun v => ?_
      split
      · split
        · exact .pure hR.toPreordered ""
        · exact conserves_renderParts hR hc body stack
      · exact conserves_joinAll hR (fun item => conserves_renderParts hR hc body (item :: stack)) _

theorem conserves_renderParts [HostClasses] (hR : Memory.Conserved R) (hc : c.Conserves R) :
    ∀ (ps : List Part) (stack : List Value), (renderParts c ps stack).Conserves R
  | [], _ => .pure hR.toPreordered ""
  | p :: ps, stack => by
      have hpre := hR.toPreordered
      rw [renderParts]
      refine .bind hpre (conserves_renderPart hR hc p stack) fun s => ?_
      exact .bind hpre (conserves_renderParts hR hc ps stack) fun t => .pure hpre _

end

theorem conserves_render [HostClasses] (hR : Memory.Conserved R) (hc : c.Conserves R)
    (template : String) (names : List (Value × Value)) : (render c template names).Conserves R := by
  unfold render
  cases parse template with
  | ok parts => exact conserves_renderParts hR hc parts [.map names]
  | error f => exact .fail hR.toPreordered _

end Template

namespace Primitive

theorem conserves_ofExcept {α : Type} {next : α → Action} (r : Except Failure α)
    (h : ∀ a, (next a).Conserves R) : (Action.ofExcept r next).Conserves R := by
  cases r with
  | ok a => exact h a
  | error f => exact .fail f

theorem conserves_evalAll {next : List Value → Action} (xs : List Node)
    (h : ∀ vs, (next vs).Conserves R) : (Action.evalAll xs next).Conserves R := by
  have hgo : ∀ vs, (Action.evalAll.go next xs vs).Conserves R := by
    induction xs with
    | nil => exact fun vs => .settle h
    | cons x rest ih => exact fun vs => .eval fun v => ih (v :: vs)
  exact hgo []

theorem conserves_expecting {next : Value → Action} (x : Node) (wanted : ValueType)
    (h : ∀ v, (next v).Conserves R) : (Action.expecting x wanted next).Conserves R := by
  refine .eval fun v => ?_
  split
  · exact h v
  · exact .fail _

theorem conserves_force (e : Invocation) : (force e).Conserves R := by
  unfold force
  split
  · refine .eval fun v => ?_
    split
    · exact .eval .done
    · exact .fail _
  · exact .fail _

theorem conserves_choose (e : Invocation) : (choose e).Conserves R := by
  unfold choose
  split
  · refine .eval fun v => .trace ?_
    split
    · exact .eval .done
    · exact .eval .done
    · exact .fail _
  · exact .fail _

theorem conserves_compare (name : String) (wanted : Bool) (e : Invocation) :
    (compare name wanted e).Conserves R := by
  unfold compare
  split
  · refine conserves_evalAll _ fun vs => ?_
    split
    · exact .done _
    · exact .fail _
  · exact .fail _

theorem conserves_textOf [HostClasses] (e : Invocation) : (textOf e).Conserves R := by
  unfold textOf
  split
  · exact .eval fun v => conserves_ofExcept _ fun s => .done _
  · exact .fail _

theorem conserves_concat [HostClasses] (e : Invocation) : (concat e).Conserves R :=
  conserves_evalAll _ fun _ => conserves_ofExcept _ fun _ => .done _

theorem conserves_columns (name : String) (column : String → String → String) (e : Invocation) :
    (columns name column e).Conserves R := by
  unfold columns
  split
  · refine conserves_expecting _ _ fun table => conserves_expecting _ _ fun names => ?_
    split
    · exact conserves_ofExcept _ fun names => .done _
    · exact .done _
  · exact .fail _

theorem conserves_serializeValue [HostClasses] (e : Invocation) :
    (serializeValue e).Conserves R := by
  unfold serializeValue
  split
  · refine conserves_expecting _ _ fun format => .eval fun v => ?_
    split
    · exact .done _
    · exact .fail _
  · exact .fail _

theorem conserves_renderOver [HostClasses] (hR : Memory.Conserved R) {c : Catalogue}
    (hc : c.Conserves R) (template : Value) (names : List (Value × Value)) :
    (renderOver c template names).Conserves R :=
  .effect (.bind hR.toPreordered (Template.conserves_render hR hc _ names) fun _ =>
    Effect.Conserves.pure hR.toPreordered _) .done

theorem conserves_render [HostClasses] (hR : Memory.Conserved R) {c : Catalogue}
    (hc : c.Conserves R) (e : Invocation) : (render c e).Conserves R := by
  unfold render
  split
  · exact conserves_expecting _ _ fun template => .view fun flat => conserves_renderOver hR hc ..
  · refine conserves_expecting _ _ fun template => .view fun flat => .eval fun context => ?_
    split
    · exact conserves_renderOver hR hc ..
    · exact .fail _
  · exact .fail _

theorem conserves_standard {entry : String × Primitive} (h : entry ∈ standard) (e : Invocation) :
    (entry.2 e).Conserves R := by
  simp only [standard, List.mem_cons, List.not_mem_nil, or_false] at h
  rcases h with rfl | rfl | rfl | rfl
  · exact conserves_compare _ _ e
  · exact conserves_force e
  · exact conserves_choose e
  · exact conserves_compare _ _ e

variable [HostClasses]

theorem conserves_library (hR : Memory.Conserved R) {c : Catalogue}
    {entry : String × Primitive} (hc : entry.1 = "render" → c.Conserves R) (h : entry ∈ library c)
    (e : Invocation) : (entry.2 e).Conserves R := by
  simp only [library, List.mem_cons, List.not_mem_nil, or_false] at h
  rcases h with rfl | rfl | rfl | rfl | rfl | rfl
  · exact conserves_concat e
  · exact conserves_columns _ _ e
  · exact conserves_columns _ _ e
  · exact conserves_render hR (hc rfl) e
  · exact conserves_serializeValue e
  · exact conserves_textOf e

theorem conserves_find? (hR : Memory.Conserved R) {c : Catalogue} (hc : c.Conserves R)
    {primitives : Registry}
    (h : ∀ entry ∈ primitives,
      entry ∈ standard ∨ entry ∈ library c ∨ ∀ e, (entry.2 e).Conserves R)
    {name : String} {p : Primitive} (hp : primitives.find? name = some p) (e : Invocation) :
    (p e).Conserves R := by
  obtain ⟨entry, hentry, rfl⟩ := Option.map_eq_some_iff.mp hp
  rcases h entry (List.mem_of_find?_eq_some hentry) with hmem | hmem | hown
  · exact conserves_standard hmem e
  · exact conserves_library hR (fun _ => hc) hmem e
  · exact hown e

end Primitive

end HostedLisp
