import HostedLisp.Proofs.Evaluation.Restoration
import HostedLisp.Proofs.Evaluation.Termination
import HostedLisp.Proofs.Source.Expression
import HostedLisp.Proofs.Value.PlainData

namespace HostedLisp

/-- The host that offers nothing. -/
def Host.absent : Host where
  resolveType _ := Effect.pure none
  resolveMember _ _ _ := Effect.pure none
  call _ _ := Effect.pure .null

namespace Store

/-- Whether a value is, once it is up to date, built from plain data and expressions. -/
def Sound (s : Store) (v : Value) : Prop := (s.settle v).BuiltFrom Node.IsExpression

/-- Whether a value is built from plain data and expressions, as it stands and once it is up to
date. -/
def Settled (s : Store) (v : Value) : Prop := v.BuiltFrom Node.IsExpression ∧ s.Sound v

theorem Sound.settled {s : Store} {v : Value} (h : s.Sound v) : s.Settled (s.settle v) :=
  ⟨h, builtFrom_settle_settle v h⟩

theorem sound_listOf {s : Store} {vs : List Value} (h : ∀ v ∈ vs, s.Sound v) :
    s.Sound (.listOf vs) := by
  rw [Sound, settle_listOf]
  exact Value.allBuiltFrom_iff.mpr fun v hv => by
    obtain ⟨w, hw, rfl⟩ := List.mem_map.mp hv
    exact h w hw

theorem sound_code {s : Store} {x : Node} (h : x.IsExpression) : s.Sound (.code x) := by
  rw [Sound, settle_of_update_eq fun _ => rfl]
  exact h

theorem sound_str {s : Store} (text : String) : s.Sound (.str text) := by
  rw [Sound, settle_of_update_eq fun _ => rfl]
  trivial

theorem sound_bool {s : Store} (b : Bool) : s.Sound (.bool b) := by
  rw [Sound, settle_of_update_eq fun _ => rfl]
  trivial

theorem sound_ofLiteral {s : Store} {l : Literal} (h : l.isUnwritable = false) :
    s.Sound (.ofLiteral l) := by
  rw [Sound, settle_of_update_eq fun c => by cases l <;> rfl]
  cases l with
  | integer n => exact h
  | _ => trivial

end Store

/-- Whether a state of evaluation has the changes of a store and binds nothing but plain data, and
all its frames are those of calls of primitives. -/
structure Machine.Orderly (s : Store) (m : Machine) : Prop where
  changes_eq : m.store.changes = s.changes
  issued : m.store.Issued
  bindings : ∀ sc ∈ m.scopes.all, ∀ b ∈ sc.bindings, s.Sound b.value
  frames : ∀ f ∈ m.frames, ∀ v ∈ f.arguments, ∃ x, v = .code x ∧ x.IsExpression

theorem Machine.Orderly.settle_eq {s : Store} {m : Machine} (h : m.Orderly s) (v : Value) :
    m.store.settle v = s.settle v := by
  rw [Store.settle, Store.settle, h.changes_eq]

/-- Whether a computation leaves an orderly state behind, and fails in no other way than evaluation
itself does. -/
def Reports {α : Type} (s : Store) (P : α → Prop) (r : Run α) : Prop :=
  ∀ m, m.Orderly s → (r m).2.Orderly s ∧ (∀ a, (r m).1 = .ok a → P a) ∧
    ∀ f, (r m).1 = .failed f → f.isEvaluation = true

namespace Reports

variable {α β : Type} {s : Store} {P : α → Prop} {Q : β → Prop} {r : Run α}

theorem pure {a : α} (h : P a) : Reports s P (Run.pure a) :=
  fun _ hm => ⟨hm, fun _ ha => by cases ha; exact h, fun _ hf => nomatch hf⟩

theorem fail {f : Failure} (h : f.isEvaluation = true) : Reports s P (Run.fail f) :=
  fun _ hm => ⟨hm, nofun, fun _ hf => by cases hf; exact h⟩

theorem unfinished : Reports s P Run.unfinished := fun _ hm => ⟨hm, nofun, fun _ hf => nomatch hf⟩

theorem visit (v : Value) : Reports s (fun _ => True) (Run.visit v) :=
  fun _ hm =>
    ⟨⟨hm.changes_eq, hm.issued, hm.bindings, hm.frames⟩, fun _ _ => trivial, fun _ hf => nomatch hf⟩

theorem traceLine (line : String) : Reports s (fun _ => True) (Run.traceLine line) := by
  intro m hm
  refine ⟨?_, fun _ _ => trivial, fun _ hf => nomatch hf⟩
  unfold Run.traceLine Run.modify
  dsimp only
  split
  · exact ⟨hm.changes_eq, hm.issued, hm.bindings, hm.frames⟩
  · exact hm

theorem lookup (name : String) : Reports s s.Sound (Run.lookup name) := by
  intro m hm
  unfold Run.lookup
  cases hlookup : m.scopes.lookup m.scope name with
  | error f =>
      refine ⟨hm, nofun, ?_⟩
      intro f' hf
      cases hf
      unfold Scopes.lookup at hlookup
      split at hlookup <;> cases hlookup
      rfl
  | ok b =>
      obtain ⟨sc, hsc, hb⟩ := Scopes.mem_of_lookup hlookup
      exact ⟨hm, fun v hv => by cases hv; exact hm.bindings sc hsc b hb, fun _ hf => nomatch hf⟩

theorem adopt {v : Value} (h : s.Sound v) : Reports s s.Sound (Run.ofEffect (Effect.adopt v)) := by
  intro m hm
  have hle : m.store.nextIdentity ≤ (v.place m.store.nextIdentity).2 := Value.le_place v _
  have hissued : (m.store.adopt v).2.Issued :=
    fun c hc i hi => Nat.lt_of_lt_of_le (hm.issued c hc i hi) hle
  refine ⟨⟨hm.changes_eq, hissued, hm.bindings, hm.frames⟩, ?_, fun _ hf => nomatch hf⟩
  intro w hw
  cases hw
  have hsound : (m.store.settle v).BuiltFrom Node.IsExpression := by
    rw [hm.settle_eq]
    exact h
  have hplaced := Store.builtFrom_settle_place hm.issued v (Nat.le_refl _) hsound
  rwa [hm.settle_eq] at hplaced

theorem settle {v : Value} (h : s.Sound v) :
    Reports s s.Settled (Run.ofEffect (Effect.settle v)) := by
  intro m hm
  refine ⟨hm, ?_, fun _ hf => nomatch hf⟩
  intro w hw
  cases hw
  rw [hm.settle_eq]
  exact h.settled

theorem read : Reports s (fun t => ∀ v, t.settle v = s.settle v) (Run.ofEffect Effect.read) :=
  fun _ hm => ⟨hm, fun _ ht => by cases ht; exact hm.settle_eq, fun _ hf => nomatch hf⟩

theorem bind {k : α → Run β} (h : Reports s P r) (hk : ∀ a, P a → Reports s Q (k a)) :
    Reports s Q (r >>= k) := by
  intro m hm
  obtain ⟨horderly, hvalue, hfailure⟩ := h m hm
  change (Run.bind r k m).2.Orderly s ∧ (∀ b, (Run.bind r k m).1 = .ok b → Q b) ∧
    ∀ f, (Run.bind r k m).1 = .failed f → _
  unfold Run.bind
  cases hr : r m with
  | mk o m' =>
      rw [hr] at horderly hvalue hfailure
      cases o with
      | ok a => exact hk a (hvalue a rfl) m' horderly
      | failed f => exact ⟨horderly, nofun, fun _ hf => by cases hf; exact hfailure f rfl⟩
      | unfinished => exact ⟨horderly, nofun, fun _ hf => nomatch hf⟩

theorem mapAll {γ : Type} {f : γ → Run α} {xs : List γ} (h : ∀ x ∈ xs, Reports s P (f x)) :
    Reports s (fun ys => ∀ y ∈ ys, P y) (Run.mapAll f xs) := by
  induction xs with
  | nil => exact pure nofun
  | cons x xs ih =>
      refine (h x List.mem_cons_self).bind fun y hy => ?_
      have hrest := ih fun z hz => h z (List.mem_cons_of_mem _ hz)
      exact hrest.bind fun ys hys => pure (List.forall_mem_cons.mpr ⟨hy, hys⟩)

theorem framed (h : Reports s P r) {frame : Frame}
    (hframe : ∀ v ∈ frame.arguments, ∃ x, v = .code x ∧ x.IsExpression) :
    Reports s P (Run.framed frame r) := by
  intro m hm
  have hframes : ∀ f ∈ m.frames.take m.activeFrames ++ [frame], ∀ v ∈ f.arguments,
      ∃ x, v = .code x ∧ x.IsExpression := by
    intro f hf
    rcases List.mem_append.mp hf with hf | hf
    · exact hm.frames f (List.mem_of_mem_take hf)
    · rw [List.mem_singleton.mp hf]
      exact hframe
  obtain ⟨horderly, hvalue, hfailure⟩ := h (m.calling frame)
    ⟨hm.changes_eq, hm.issued, hm.bindings, hframes⟩
  rw [Run.framed_eq]
  cases hr : r (m.calling frame) with
  | mk o m' =>
      rw [hr] at horderly hvalue hfailure
      cases o with
      | ok a =>
          refine ⟨⟨horderly.changes_eq, horderly.issued, horderly.bindings, ?_⟩, hvalue, ?_⟩
          · exact fun f hf => horderly.frames f (List.mem_of_mem_take hf)
          · exact fun _ hf => nomatch hf
      | failed f =>
          exact ⟨⟨horderly.changes_eq, horderly.issued, horderly.bindings, horderly.frames⟩, nofun,
            hfailure⟩
      | unfinished =>
          exact ⟨⟨horderly.changes_eq, horderly.issued, horderly.bindings, horderly.frames⟩, nofun,
            fun _ hf => nomatch hf⟩

theorem evaluation (h : Reports s P r) (scope : Option Nat) :
    Reports s P (Run.evaluation scope r) := by
  intro m hm
  have hframes : ∀ f ∈ (m.evaluating scope).frames, ∀ v ∈ f.arguments,
      ∃ x, v = .code x ∧ x.IsExpression := by
    intro f hf
    unfold Machine.evaluating at hf
    dsimp only at hf
    split at hf
    · cases hf
    · exact hm.frames f hf
  obtain ⟨horderly, hvalue, hfailure⟩ := h (m.evaluating scope)
    ⟨hm.changes_eq, hm.issued, hm.bindings, hframes⟩
  rw [Run.evaluation_eq]
  exact ⟨⟨horderly.changes_eq, horderly.issued, horderly.bindings, horderly.frames⟩, hvalue,
    hfailure⟩

end Reports

/-- Whether a result, if it is a failure, is one of some kind. -/
def FailsOnly {α : Type} (P : Failure → Prop) (r : Except Failure α) : Prop :=
  ∀ f, r = .error f → P f

namespace FailsOnly

variable {α β : Type} {P : Failure → Prop} {r : Except Failure α}

theorem ok (a : α) : FailsOnly P (.ok a) := fun _ hf => nomatch hf

theorem error {f : Failure} (h : P f) : FailsOnly P (.error f : Except Failure α) := by
  intro f' hf
  cases hf
  exact h

theorem bind {k : α → Except Failure β} (h : FailsOnly P r) (hk : ∀ a, FailsOnly P (k a)) :
    FailsOnly P (r >>= k) := by
  cases r with
  | ok a => exact hk a
  | error f => exact error (h f rfl)

theorem map (f : α → β) (h : FailsOnly P r) : FailsOnly P (r.map f) := by
  cases r with
  | ok a => exact ok (f a)
  | error f => exact error (h f rfl)

end FailsOnly

theorem mapM_eq_ok_map {ε α β : Type} {f : α → Except ε β} {g : α → β} {xs : List α}
    (h : ∀ x ∈ xs, f x = .ok (g x)) : xs.mapM f = .ok (xs.map g) := by
  induction xs with
  | nil => rfl
  | cons x xs ih =>
      obtain ⟨hx, hxs⟩ := List.forall_mem_cons.mp h
      rw [List.mapM_cons, hx, ih hxs]
      rfl

section Serialization

open Primitive

theorem isDataFailure_typeError (message : String) : isDataFailure (.typeError message) = true := by
  simp [isDataFailure, Failure.typeError, Failure.kind]

theorem isDataFailure_valueError (message : String) :
    isDataFailure (.valueError message) = true := by
  simp [isDataFailure, Failure.valueError, Failure.kind]

theorem isDataFailure_yamlError (message : String) : isDataFailure (.yamlError message) = true := by
  simp [isDataFailure, Failure.yamlError, Failure.kind]

theorem failsOnly_intText? (n : Int) :
    FailsOnly (fun f => isDataFailure f = true) (intText? n) := by
  unfold intText?
  split
  · exact .error (isDataFailure_valueError _)
  · exact .ok _

variable [HostClasses]

namespace Json

mutual

theorem failsOnly_print (layout : Layout) : (v : Value) → (level : Nat) →
    FailsOnly (fun f => isDataFailure f = true) (print layout level v)
  | .null, _ | .bool _, _ | .double _, _ | .float _, _ | .str _, _ => .ok _
  | .int n, _ => failsOnly_intText? n
  | .list _ items, _ | .tuple items, _ => (failsOnly_printAll layout items _).map _
  | .map entries, _ => (failsOnly_printEntries layout entries _).map _
  | .decimal _, _ | .code _, _ | .date _, _ | .bytes _, _ | .object .., _ | .handle _, _
  | .callable _, _ | .token _, _ | .nodeKind _, _ => .error (isDataFailure_typeError _)
termination_by structural v => v

theorem failsOnly_printAll (layout : Layout) : (vs : List Value) → (level : Nat) →
    FailsOnly (fun f => isDataFailure f = true) (printAll layout level vs)
  | [], _ => .ok _
  | v :: vs, level => (failsOnly_print layout v level).bind fun _ =>
      (failsOnly_printAll layout vs level).bind fun _ => .ok _
termination_by structural vs => vs

theorem failsOnly_printEntries (layout : Layout) : (entries : List (Value × Value)) →
    (level : Nat) → FailsOnly (fun f => isDataFailure f = true) (printEntries layout level entries)
  | [], _ => .ok _
  | (_, v) :: rest, level => (failsOnly_print layout v level).bind fun _ =>
      (failsOnly_printEntries layout rest level).bind fun _ => .ok _
termination_by structural entries => entries

end

end Json

namespace Yaml

mutual

theorem failsOnly_putValue : (v : Value) → v.IsPlain → (p : Pen) → (indent : Option Nat) →
    (place : Place) → FailsOnly (fun f => isDataFailure f = true) (putValue p indent place v)
  | .null, _, _, _, _ | .bool _, _, _, _, _ | .double _, _, _, _, _ | .float _, _, _, _, _
  | .str _, _, _, _, _ => .ok _
  | .int n, _, p, indent, place => by
      rw [putValue]
      exact (failsOnly_intText? n).map _
  | .list _ items, h, p, indent, place | .tuple items, h, p, indent, place => by
      rw [putValue]
      split
      · exact .ok _
      · exact failsOnly_putItems items h _ _
  | .map entries, h, p, indent, place => by
      rw [putValue]
      split
      · exact .ok _
      · exact failsOnly_putEntries entries h _ _
  | .decimal _, _, _, _, _ => .error (isDataFailure_yamlError _)
  | .date _, h, _, _, _ | .bytes _, h, _, _, _ | .code _, h, _, _, _ | .object .., h, _, _, _
  | .handle _, h, _, _, _ | .callable _, h, _, _, _ | .token _, h, _, _, _
  | .nodeKind _, h, _, _, _ => h.elim
termination_by structural v => v

theorem failsOnly_putItems : (vs : List Value) → Value.AllBuiltFrom (fun _ => False) vs →
    (indent : Nat) → (p : Pen) → FailsOnly (fun f => isDataFailure f = true) (putItems indent vs p)
  | [], _, _, _ => .ok _
  | v :: vs, h, indent, _ => (failsOnly_putValue v h.1 _ _ _).bind fun p =>
      failsOnly_putItems vs h.2 indent p
termination_by structural vs => vs

theorem failsOnly_putEntries : (entries : List (Value × Value)) →
    Value.EntriesBuiltFrom (fun _ => False) entries → (indent : Nat) → (p : Pen) →
    FailsOnly (fun f => isDataFailure f = true) (putEntries indent entries p)
  | [], _, _, _ => .ok _
  | (_, v) :: rest, h, indent, _ => (failsOnly_putValue v h.2.1 _ _ _).bind fun p =>
      failsOnly_putEntries rest h.2.2 indent p
termination_by structural entries => entries

end

end Yaml

theorem failsOnly_serialize (format : Option String) (pretty : Bool) {v : Value}
    (hv : v.BuiltFrom Node.IsExpression) :
    FailsOnly (fun f => isDataFailure f = true) (serialize format pretty v) := by
  unfold serialize
  split
  · rename_i written _
    unfold write
    rw [v.checkTexts_of_builtFrom Node.isUnwritable_of_isExpression hv]
    cases written with
    | json => exact Json.failsOnly_print _ _ 0
    | yaml => exact (Yaml.failsOnly_putValue _ (v.isPlain_plain hv) _ _ _).bind fun _ => .ok _
  · exact .error (isDataFailure_valueError _)

end Serialization

/-- Whether an action asks for expressions only, goes on so after values that are built from plain
data and expressions, and ends with such a value or a failure of evaluation. -/
inductive Action.Orderly (s : Store) : Action → Prop where
  | done {v : Value} (h : s.Sound v) : Orderly s (.done v)
  | fail {f : Failure} (h : f.isEvaluation = true) : Orderly s (.fail f)
  | eval {x : Node} {next : Value → Action} (hx : x.IsExpression)
      (h : ∀ v, s.Settled v → Orderly s (next v)) : Orderly s (.eval x next)
  | settle {vs : List Value} {next : List Value → Action} (hvs : ∀ v ∈ vs, s.Sound v)
      (h : ∀ vs, (∀ v ∈ vs, s.Settled v) → Orderly s (next vs)) : Orderly s (.settle vs next)
  | trace {line : String} {next : Action} (h : Orderly s next) : Orderly s (.trace line next)

namespace Primitive

variable {s : Store} {e : Invocation}

theorem orderly_ofExcept {α : Type} {r : Except Failure α} {next : α → Action}
    (hr : FailsOnly (fun f => f.isEvaluation = true) r) (h : ∀ a, (next a).Orderly s) :
    (Action.ofExcept r next).Orderly s := by
  cases r with
  | ok a => exact h a
  | error f => exact .fail (hr f rfl)

theorem orderly_expecting {x : Node} (wanted : ValueType) {next : Value → Action}
    (hx : x.IsExpression) (h : ∀ v, s.Settled v → (next v).Orderly s) :
    (Action.expecting x wanted next).Orderly s := by
  refine .eval hx fun v hv => ?_
  split
  · exact h v hv
  · exact .fail rfl

theorem orderly_evalAll {xs : List Node} {next : List Value → Action}
    (hxs : ∀ x ∈ xs, x.IsExpression)
    (h : ∀ vs, (∀ v ∈ vs, s.Settled v) → (next vs).Orderly s) :
    (Action.evalAll xs next).Orderly s := by
  have hgo : ∀ xs vs, (∀ x ∈ xs, x.IsExpression) → (∀ v ∈ vs, s.Sound v) →
      (Action.evalAll.go next xs vs).Orderly s := by
    intro xs
    induction xs with
    | nil =>
        intro vs _ hvs
        exact .settle (fun v hv => hvs v (List.mem_reverse.mp hv)) h
    | cons x xs ih =>
        intro vs hxs hvs
        refine .eval (hxs x List.mem_cons_self) fun v hv => ?_
        exact ih (v :: vs) (fun y hy => hxs y (List.mem_cons_of_mem _ hy))
          (List.forall_mem_cons.mpr ⟨hv.2, hvs⟩)
  exact hgo xs [] hxs nofun

theorem orderly_force (he : ∀ x ∈ e.parameters, x.IsExpression) : (force e).Orderly s := by
  unfold force
  split
  · rename_i x hparameters
    refine .eval (he x (by simp [hparameters])) fun v hv => ?_
    split
    · exact .eval hv.1 fun w hw => .done hw.2
    · exact .fail rfl
  · exact .fail rfl

theorem orderly_choose (he : ∀ x ∈ e.parameters, x.IsExpression) : (choose e).Orderly s := by
  unfold choose
  split
  · rename_i test whenTrue whenFalse hparameters
    refine .eval (he test (by simp [hparameters])) fun v _ => .trace ?_
    split
    · exact .eval (he whenTrue (by simp [hparameters])) fun w hw => .done hw.2
    · exact .eval (he whenFalse (by simp [hparameters])) fun w hw => .done hw.2
    · exact .fail rfl
  · exact .fail rfl

theorem orderly_compare (name : String) (wanted : Bool)
    (he : ∀ x ∈ e.parameters, x.IsExpression) : (compare name wanted e).Orderly s := by
  unfold compare
  split
  · refine orderly_evalAll he fun vs _ => ?_
    split
    · exact .done (Store.sound_bool _)
    · exact .fail rfl
  · exact .fail rfl

theorem toText?_of_settled [HostClasses] {v : Value} (h : s.Settled v) : v.toText? = .ok v.toText :=
  Value.toText?_eq_toText
    (v.exists_toText?_of_builtFrom Node.isUnwritable_of_isExpression h.1)

theorem orderly_textOf [HostClasses] (he : ∀ x ∈ e.parameters, x.IsExpression) :
    (textOf e).Orderly s := by
  unfold textOf
  split
  · rename_i x hparameters
    refine .eval (he x (by simp [hparameters])) fun v hv => ?_
    rw [toText?_of_settled hv]
    exact .done (Store.sound_str _)
  · exact .fail rfl

theorem orderly_concat [HostClasses] (he : ∀ x ∈ e.parameters, x.IsExpression) :
    (concat e).Orderly s := by
  refine orderly_evalAll he fun vs hvs => ?_
  rw [mapM_eq_ok_map fun v hv => toText?_of_settled (hvs v hv)]
  exact .done (Store.sound_str _)

theorem failsOnly_textItems (name : String) (number : Nat) (vs : List Value) :
    FailsOnly (fun f => f.isEvaluation = true) (textItems name number vs) := by
  induction vs generalizing number with
  | nil => exact .ok _
  | cons v vs ih =>
      rw [textItems.eq_def]
      cases v with
      | str text => exact (ih (number + 1)).bind fun _ => .ok _
      | _ => exact .error rfl

theorem orderly_columns (name : String) (column : String → String → String)
    (he : ∀ x ∈ e.parameters, x.IsExpression) : (columns name column e).Orderly s := by
  unfold columns
  split
  · rename_i x y hparameters
    refine orderly_expecting _ (he x (by simp [hparameters])) fun table _ => ?_
    refine orderly_expecting _ (he y (by simp [hparameters])) fun names _ => ?_
    split
    · exact orderly_ofExcept (failsOnly_textItems _ _ _) fun names => .done (Store.sound_str _)
    · exact .done (Store.sound_ofLiteral (l := .null) rfl)
  · exact .fail rfl

theorem orderly_serializeValue [HostClasses] (he : ∀ x ∈ e.parameters, x.IsExpression) :
    (serializeValue e).Orderly s := by
  unfold serializeValue
  split
  · rename_i x y hparameters
    refine orderly_expecting _ (he x (by simp [hparameters])) fun format _ => ?_
    refine .eval (he y (by simp [hparameters])) fun v hv => ?_
    split
    · exact .done (Store.sound_str _)
    · rename_i f hf
      rw [if_pos (failsOnly_serialize _ _ hv.1 f hf)]
      exact .fail rfl
  · exact .fail rfl

end Primitive

namespace Setting

variable {env : Setting} {s : Store}

theorem orderly_primitive [HostClasses] (henv : env.WritesOnly) {name : String} {p : Primitive}
    (hp : env.primitives.find? name = some p) {e : Invocation}
    (he : ∀ x ∈ e.parameters, x.IsExpression) : (p e).Orderly s := by
  obtain ⟨entry, hentry, rfl⟩ := Option.map_eq_some_iff.mp hp
  rcases henv entry (List.mem_of_find?_eq_some hentry) with hmem | ⟨c, hmem, hname⟩
  · simp only [Primitive.standard, List.mem_cons, List.not_mem_nil, or_false] at hmem
    rcases hmem with rfl | rfl | rfl | rfl
    · exact Primitive.orderly_compare _ _ he
    · exact Primitive.orderly_force he
    · exact Primitive.orderly_choose he
    · exact Primitive.orderly_compare _ _ he
  · simp only [Primitive.library, List.mem_cons, List.not_mem_nil, or_false] at hmem
    rcases hmem with rfl | rfl | rfl | rfl | rfl | rfl
    · exact Primitive.orderly_concat he
    · exact Primitive.orderly_columns _ _ he
    · exact Primitive.orderly_columns _ _ he
    · exact absurd rfl hname
    · exact Primitive.orderly_serializeValue he
    · exact Primitive.orderly_textOf he

/-- What the functions of the evaluator do with some fuel, on expressions and orderly actions. -/
structure Reporting (env : Setting) (s : Store) (fuel : Nat) : Prop where
  dispatch : ∀ x, x.IsExpression → Reports s s.Sound (env.dispatch fuel x)
  invoke : ∀ e : Invocation, e.node.IsExpression → Reports s s.Sound (env.invoke fuel e)
  perform : ∀ a, a.Orderly s → Reports s s.Sound (env.perform fuel a)

section Step

variable {fuel : Nat}

theorem reports_resolveMember (hhost : env.host = Host.absent) (target : Value) (name : String)
    (types : Option (List ValueType)) :
    Reports s (fun found => found = none) (env.resolveMember target name types) := by
  intro m hm
  rw [resolveMember, hhost]
  exact ⟨hm, fun _ hfound => by cases hfound; rfl, fun _ hf => nomatch hf⟩

theorem reports_invokeStatic (hhost : env.host = Host.absent) (evaluate : Node → Run Value)
    (path : List String) (member : String) (e : Invocation) :
    Reports s s.Sound (env.invokeStatic evaluate path member e) := by
  intro m hm
  rw [invokeStatic, hhost]
  exact ⟨hm, nofun, fun _ hf => by cases hf; rfl⟩

theorem reports_invokeInstance (hhost : env.host = Host.absent) {evaluate : Node → Run Value}
    {e : Invocation} (h : ∀ x ∈ e.parameters, Reports s s.Sound (evaluate x)) (member : String) :
    Reports s s.Sound (env.invokeInstance evaluate member e) := by
  unfold invokeInstance
  split
  · exact .fail rfl
  · rename_i x rest hparameters
    rw [hparameters] at h
    refine (h x List.mem_cons_self).bind fun receiver _ => (Reports.visit _).bind fun _ _ => ?_
    split
    · exact .fail rfl
    · have hrest := Reports.mapAll fun y hy => h y (List.mem_cons_of_mem _ hy)
      refine hrest.bind fun arguments _ => (Reports.visit _).bind fun _ _ => ?_
      refine (reports_resolveMember hhost receiver member _).bind fun found hfound => ?_
      rw [hfound]
      exact .fail rfl

theorem reports_dispatch_succ (h : env.Reporting s fuel) {x : Node} (hx : x.IsExpression) :
    Reports s s.Sound (env.dispatch (fuel + 1) x) := by
  rw [Setting.dispatch.eq_def]
  refine (Reports.visit _).bind fun _ _ => ?_
  cases x with
  | error message span => exact hx.elim
  | literal value span => exact .pure (Store.sound_ofLiteral hx)
  | identifier name span => exact .lookup name
  | list xs span =>
      have hitems := Reports.mapAll fun y hy => h.dispatch y (Node.allExpressions_iff.mp hx y hy)
      exact hitems.bind fun vs hvs => .adopt (Store.sound_listOf hvs)
  | quote inner span => exact .pure (Store.sound_code hx)
  | invocation head parameters span => exact h.invoke ⟨head, parameters, span⟩ hx
  | instanceMember member span => exact .fail rfl
  | staticMember path member span => exact .fail rfl

theorem reports_invoke_succ [HostClasses] (henv : env.WritesOnly) (hhost : env.host = Host.absent)
    (h : env.Reporting s fuel) {e : Invocation} (he : e.node.IsExpression) :
    Reports s s.Sound (env.invoke (fuel + 1) e) := by
  have hparameters : ∀ x ∈ e.parameters, x.IsExpression := Node.allExpressions_iff.mp he.2
  rw [Setting.invoke]
  split
  · split
    · exact .fail rfl
    · rename_i p hp
      have hcalled := h.perform (p e) (orderly_primitive henv hp hparameters)
      refine (Reports.traceLine _).bind fun _ _ => hcalled.framed fun v hv => ?_
      obtain ⟨x, hx, rfl⟩ := List.mem_map.mp hv
      exact ⟨x, rfl, hparameters x hx⟩
  · exact reports_invokeStatic hhost _ _ _ e
  · exact reports_invokeInstance hhost (fun x hx => h.dispatch x (hparameters x hx)) _
  · exact .fail rfl

theorem reports_perform_succ (h : env.Reporting s fuel) {a : Action} (ha : a.Orderly s) :
    Reports s s.Sound (env.perform (fuel + 1) a) := by
  rw [Setting.perform.eq_def]
  cases ha with
  | done hv => exact .adopt hv
  | fail hf => exact .fail hf
  | eval hx hnext =>
      have hvalue := (h.dispatch _ hx).evaluation none
      exact hvalue.bind fun v hv => (Reports.settle hv).bind fun w hw => h.perform _ (hnext w hw)
  | settle hvs hnext =>
      refine Reports.read.bind fun t ht => h.perform _ (hnext _ fun v hv => ?_)
      obtain ⟨w, hw, rfl⟩ := List.mem_map.mp hv
      rw [ht]
      exact (hvs w hw).settled
  | trace hnext => exact (Reports.traceLine _).bind fun _ _ => h.perform _ hnext

theorem reporting [HostClasses] (henv : env.WritesOnly) (hhost : env.host = Host.absent)
    (fuel : Nat) : env.Reporting s fuel := by
  induction fuel with
  | zero => exact ⟨fun _ _ => .unfinished, fun _ _ => .unfinished, fun _ _ => .unfinished⟩
  | succ fuel ih =>
      constructor
      · exact fun x hx => reports_dispatch_succ ih hx
      · exact fun e he => reports_invoke_succ henv hhost ih he
      · exact fun a ha => reports_perform_succ ih ha

end Step

end Setting

end HostedLisp
