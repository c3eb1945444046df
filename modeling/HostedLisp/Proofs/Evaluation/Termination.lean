import HostedLisp.Host.Sample
import HostedLisp.Host.Table
import HostedLisp.Primitive.Library
import HostedLisp.Primitive.Standard
import HostedLisp.Proofs.Evaluation.Fuel
import HostedLisp.Proofs.Source.Part
import Mathlib.Data.List.Forall2

/-!
Evaluation that ends. Main statement: while no quote is bound and no member of the host is resolved,
evaluation with the standard primitives and those of the library that write values ends, though
one of them evaluates the values of other evaluations. The reason is that a quote that is the value
of a node is a part of this node, so that what is evaluated next is smaller than the call.
-/

namespace HostedLisp

namespace Node

mutual

/-- A bound of the fuel for a node. The invocation of a primitive takes some of its own besides what
the parameters take. -/
def weight : Node → Nat
  | quote inner _ => inner.weight + 1
  | invocation head parameters _ => head.weight + weightAll parameters + 8
  | list items _ => weightAll items + 1
  | _ => 1

/-- A bound of the fuel for nodes that are evaluated one after the other. -/
def weightAll : List Node → Nat
  | [] => 0
  | x :: xs => x.weight + 1 + weightAll xs

end

variable {x y : Node} {xs : List Node}

theorem weight_pos (x : Node) : 0 < x.weight := by
  cases x <;> simp [weight]

theorem weight_lt_weightAll (h : x ∈ xs) : x.weight < weightAll xs := by
  induction xs with
  | nil => cases h
  | cons y xs ih =>
      rw [weightAll]
      rcases List.mem_cons.mp h with rfl | h
      · omega
      · have := ih h
        omega

theorem weightAll_lt_weight (e : Invocation) : weightAll e.parameters + 8 ≤ e.node.weight := by
  rw [Invocation.node, weight]
  omega

theorem Within.weight_le (h : x.Within y) : x.weight ≤ y.weight := by
  induction h with
  | refl => exact Nat.le_refl _
  | quote _ ih => exact Nat.le_succ_of_le ih
  | head _ ih =>
      rw [weight]
      omega
  | parameter hy _ ih =>
      rw [weight]
      have := weight_lt_weightAll hy
      omega
  | item hy _ ih =>
      rw [weight]
      have := weight_lt_weightAll hy
      omega

end Node

namespace Value

/-- Whether a value, if it is a quote, is a part of a node. -/
def QuotedWithin (v : Value) (x : Node) : Prop :=
  ∀ inner span, v = .code (.quote inner span) → (Node.quote inner span).Within x

variable {v : Value} {x y : Node}

theorem QuotedWithin.trans (h : v.QuotedWithin x) (hxy : x.Within y) : v.QuotedWithin y :=
  fun inner span hv => (h inner span hv).trans hxy

theorem eq_code_of_update {c : Change} {q : Node} (h : v.update c = .code q) : v = .code q := by
  cases v with
  | list id items =>
      rw [update] at h
      split at h <;> cases h
  | object id className attributes =>
      simp only [update] at h
      split at h <;> cases h
  | tuple items => cases h
  | map entries => cases h
  | _ => exact h

theorem eq_code_of_place {next : Identity} {q : Node} (h : (v.place next).1 = .code q) :
    v = .code q := by
  cases v with
  | list id items =>
      simp only [place] at h
      split at h <;> cases h
  | object id className attributes =>
      simp only [place] at h
      split at h <;> cases h
  | tuple items => cases h
  | map entries => cases h
  | _ => exact h

end Value

theorem Store.eq_code_of_settle {s : Store} {v : Value} {q : Node} (h : s.settle v = .code q) :
    v = .code q := by
  unfold settle at h
  revert h
  induction s.changes generalizing v with
  | nil => exact id
  | cons c changes ih => exact fun h => Value.eq_code_of_update (ih h)

namespace Scopes

/-- Whether no scope binds a quote. -/
def Quoteless (s : Scopes) : Prop :=
  ∀ sc ∈ s.all, ∀ b ∈ sc.bindings, ∀ inner span, b.value ≠ .code (.quote inner span)

theorem mem_of_mem_own {s : Scopes} {i : Nat} {b : Binding} (h : b ∈ s.own i) :
    ∃ sc ∈ s.all, b ∈ sc.bindings := by
  unfold own at h
  cases hsc : s.all[i]? with
  | none =>
      rw [hsc] at h
      cases h
  | some sc =>
      rw [hsc] at h
      exact ⟨sc, List.mem_of_getElem? hsc, h⟩

theorem mem_of_lookup {s : Scopes} {i : Nat} {name : String} {b : Binding}
    (h : s.lookup i name = .ok b) : ∃ sc ∈ s.all, b ∈ sc.bindings := by
  unfold lookup at h
  split at h
  · rename_i found hfound
    cases h
    obtain ⟨bs, hbs, hfind⟩ := List.exists_of_findSome?_eq_some hfound
    obtain ⟨j, -, rfl⟩ := List.mem_map.mp hbs
    exact mem_of_mem_own (List.mem_of_find?_eq_some hfind)
  · cases h

end Scopes

/-- The host with the same types but without their members. -/
def Host.withoutMembers (host : Host) : Host :=
  { host with
    resolveMember := fun target name types => do
      let _ ← host.resolveMember target name types
      return none }

/-- Whether a computation ends with the scopes it started with, as long as these bind no quote, and
whether its value, if it has one, is as it should be. -/
def Halts {α : Type} (P : α → Prop) (r : Run α) : Prop :=
  ∀ m, m.scopes.Quoteless →
    (r m).1 ≠ .unfinished ∧ (r m).2.scopes = m.scopes ∧ ∀ a, (r m).1 = .ok a → P a

namespace Halts

variable {α β : Type} {P : α → Prop} {Q : β → Prop} {r : Run α}

theorem pure {a : α} (h : P a) : Halts P (Run.pure a) :=
  fun _ _ => ⟨nofun, rfl, fun _ ha => by cases ha; exact h⟩

theorem fail (f : Failure) : Halts P (Run.fail f) := fun _ _ => ⟨nofun, rfl, nofun⟩

theorem ofEffect {e : Effect α} (h : ∀ s a, (e s).1 = .ok a → P a) : Halts P (Run.ofEffect e) := by
  intro m _
  have hm := h m.store
  unfold Run.ofEffect
  cases he : e m.store with
  | mk result s =>
      rw [he] at hm
      cases result with
      | ok a => exact ⟨nofun, rfl, fun b hb => by cases hb; exact hm a rfl⟩
      | error f => exact ⟨nofun, rfl, nofun⟩

theorem visit (v : Value) : Halts (fun _ => True) (Run.visit v) :=
  fun _ _ => ⟨nofun, rfl, fun _ _ => trivial⟩

theorem traceLine (line : String) : Halts (fun _ => True) (Run.traceLine line) := by
  intro m _
  refine ⟨nofun, ?_, fun _ _ => trivial⟩
  by_cases h : m.tracing <;> simp [Run.traceLine, Run.modify, h]

theorem lookup (name : String) (x : Node) :
    Halts (fun v : Value => v.QuotedWithin x) (Run.lookup name) := by
  intro m hm
  unfold Run.lookup
  cases hlookup : m.scopes.lookup m.scope name with
  | error f => exact ⟨nofun, rfl, nofun⟩
  | ok b =>
      obtain ⟨sc, hsc, hb⟩ := Scopes.mem_of_lookup hlookup
      refine ⟨nofun, rfl, ?_⟩
      intro v hv inner span hquote
      cases hv
      exact absurd hquote (hm sc hsc b hb inner span)

theorem weaken {P' : α → Prop} (h : Halts P r) (hP : ∀ a, P a → P' a) : Halts P' r := by
  intro m hm
  obtain ⟨hfinished, hscopes, hvalue⟩ := h m hm
  exact ⟨hfinished, hscopes, fun a ha => hP a (hvalue a ha)⟩

theorem bind {k : α → Run β} (h : Halts P r) (hk : ∀ a, P a → Halts Q (k a)) :
    Halts Q (r >>= k) := by
  intro m hm
  obtain ⟨hfinished, hscopes, hvalue⟩ := h m hm
  change (Run.bind r k m).1 ≠ _ ∧ (Run.bind r k m).2.scopes = _ ∧
    ∀ b, (Run.bind r k m).1 = .ok b → Q b
  unfold Run.bind
  cases hr : r m with
  | mk o m' =>
      rw [hr] at hfinished hscopes hvalue
      cases o with
      | ok a =>
          have hm' : m'.scopes = m.scopes := hscopes
          have hsecond := hk a (hvalue a rfl) m' (hm' ▸ hm)
          exact ⟨hsecond.1, hsecond.2.1.trans hm', hsecond.2.2⟩
      | failed f => exact ⟨nofun, hscopes, nofun⟩
      | unfinished => exact absurd rfl hfinished

theorem mapAll {γ : Type} {f : γ → Run α} {P : γ → α → Prop} {xs : List γ}
    (h : ∀ x ∈ xs, Halts (P x) (f x)) : Halts (List.Forall₂ P xs) (Run.mapAll f xs) := by
  induction xs with
  | nil => exact pure .nil
  | cons x xs ih =>
      refine (h x List.mem_cons_self).bind fun y hy => ?_
      have hrest := ih fun z hz => h z (List.mem_cons_of_mem _ hz)
      exact hrest.bind fun ys hys => pure (.cons hy hys)

theorem framed (h : Halts P r) (frame : Frame) : Halts P (Run.framed frame r) := by
  intro m hm
  unfold Run.framed
  dsimp only
  obtain ⟨hfinished, hscopes, hvalue⟩ := h { m with
    frames := m.frames.take m.activeFrames ++ [frame]
    activeFrames := m.activeFrames + 1 } hm
  cases hr : r { m with
      frames := m.frames.take m.activeFrames ++ [frame]
      activeFrames := m.activeFrames + 1 } with
  | mk o m' =>
      rw [hr] at hfinished hscopes hvalue
      cases o with
      | ok a => exact ⟨nofun, hscopes, hvalue⟩
      | failed f => exact ⟨nofun, hscopes, nofun⟩
      | unfinished => exact absurd rfl hfinished

theorem evaluation (h : Halts P r) (scope : Option Nat) : Halts P (Run.evaluation scope r) :=
  fun _ hm => h _ hm

end Halts

namespace Setting

def withoutMembers (env : Setting) : Setting := { env with host := env.host.withoutMembers }

/-- Whether the primitives are standard ones and those of the library that write values. -/
def WritesOnly [HostClasses] (env : Setting) : Prop :=
  ∀ entry ∈ env.primitives,
    entry ∈ Primitive.standard ∨ ∃ c, entry ∈ Primitive.library c ∧ entry.1 ≠ "render"

/-- Evaluates nodes in order, each with some fuel. -/
def evalEach (env : Setting) (fuel : Nat) (xs : List Node) : Run (List Value) :=
  Run.mapAll (fun x => Run.evaluation none (env.dispatch fuel x)) xs

/-- Whether the evaluation of nodes in order is the same without the members of the host, as it is
if none of them is resolved. -/
def ResolvesNoMember (env : Setting) (xs : List Node) (m : Machine) : Prop :=
  ∀ fuel, env.evalEach fuel xs m = env.withoutMembers.evalEach fuel xs m

/-- Whether the evaluation of every node below some weight ends if its fuel is its weight or more,
with no quotes but those in the node. -/
def HaltsBelow (env : Setting) (n : Nat) : Prop :=
  ∀ x : Node, x.weight < n → ∀ fuel, x.weight ≤ fuel →
    Halts (fun v => v.QuotedWithin x) (env.dispatch fuel x)

section Actions

variable {env : Setting} {fuel n : Nat} {x : Node} {P : Value → Prop}

theorem halts_adopt {v : Value} (h : v.QuotedWithin x) :
    Halts (fun v => v.QuotedWithin x) (Run.ofEffect (Effect.adopt v)) := by
  apply Halts.ofEffect
  intro s w hw inner span hquote
  cases hw
  exact h inner span (Value.eq_code_of_place hquote)

theorem halts_done {v : Value} (h : v.QuotedWithin x) :
    Halts (fun v => v.QuotedWithin x) (env.perform (fuel + 1) (.done v)) := by
  rw [perform]
  exact halts_adopt h

theorem halts_fail (f : Failure) : Halts P (env.perform (fuel + 1) (.fail f)) := by
  rw [perform]
  exact .fail f

theorem halts_eval {next : Value → Action}
    (hx : Halts (fun v => v.QuotedWithin x) (env.dispatch fuel x))
    (hnext : ∀ v, v.QuotedWithin x → Halts P (env.perform fuel (next v))) :
    Halts P (env.perform (fuel + 1) (.eval x next)) := by
  rw [perform]
  refine (hx.evaluation none).bind fun v hv => ?_
  have hsettled : Halts (fun v => v.QuotedWithin x) (Run.ofEffect (Effect.settle v)) := by
    apply Halts.ofEffect
    intro s w hw inner span hquote
    cases hw
    exact hv inner span (Store.eq_code_of_settle hquote)
  exact hsettled.bind hnext

theorem halts_trace {next : Action} (line : String) (h : Halts P (env.perform fuel next)) :
    Halts P (env.perform (fuel + 1) (.trace line next)) := by
  rw [perform]
  exact (Halts.traceLine line).bind fun _ _ => h

theorem halts_ofExcept {α : Type} {next : α → Action} (r : Except Failure α)
    (h : ∀ a, Halts P (env.perform (fuel + 1) (next a))) :
    Halts P (env.perform (fuel + 1) (Action.ofExcept r next)) := by
  cases r with
  | ok a => exact h a
  | error f => exact halts_fail f

theorem halts_expecting {next : Value → Action} (wanted : ValueType)
    (hx : Halts (fun v => v.QuotedWithin x) (env.dispatch (fuel + 1) x))
    (hnext : ∀ v, Halts P (env.perform (fuel + 1) (next v))) :
    Halts P (env.perform (fuel + 2) (Action.expecting x wanted next)) := by
  apply halts_eval hx
  intro v _
  split
  · exact hnext v
  · exact halts_fail _

theorem halts_evalAll {next : List Value → Action} (hbelow : env.HaltsBelow n) (xs : List Node)
    (hxs : ∀ x ∈ xs, x.weight < n) (hfuel : Node.weightAll xs + 2 ≤ fuel)
    (hnext : ∀ vs fuel, Halts P (env.perform (fuel + 1) (next vs))) :
    Halts P (env.perform fuel (Action.evalAll xs next)) := by
  have hgo : ∀ xs vs fuel, (∀ x ∈ xs, x.weight < n) → Node.weightAll xs + 2 ≤ fuel →
      Halts P (env.perform fuel (Action.evalAll.go next xs vs)) := by
    intro xs
    induction xs with
    | nil =>
        intro vs fuel _ hfuel
        obtain ⟨fuel, rfl⟩ : ∃ k, fuel = k + 2 := ⟨fuel - 2, by omega⟩
        rw [Action.evalAll.go, perform]
        exact (Halts.ofEffect fun _ _ _ => trivial).bind fun s (_ : True) => hnext _ fuel
    | cons x xs ih =>
        intro vs fuel hxs hfuel
        rw [Node.weightAll] at hfuel
        obtain ⟨fuel, rfl⟩ : ∃ k, fuel = k + 1 := ⟨fuel - 1, by omega⟩
        apply halts_eval (hbelow x (hxs x List.mem_cons_self) fuel (by omega))
        intro v _
        exact ih (v :: vs) fuel (fun y hy => hxs y (List.mem_cons_of_mem _ hy)) (by omega)
  exact hgo xs [] fuel hxs hfuel

end Actions

section Primitives

variable {env : Setting} {e : Invocation} {fuel : Nat}

theorem weight_lt_of_mem_parameters {x : Node} (h : x ∈ e.parameters) :
    x.weight + 8 < e.node.weight :=
  Nat.lt_of_lt_of_le (Nat.add_lt_add_right (Node.weight_lt_weightAll h) 8)
    (Node.weightAll_lt_weight e)

theorem within_of_mem_parameters {x : Node} (h : x ∈ e.parameters) : x.Within e.node :=
  .parameter h .refl

theorem quotedWithin_of_ne {v : Value} (h : ∀ q, v ≠ .code q) (x : Node) : v.QuotedWithin x :=
  fun _ _ hv => absurd hv (h _)

/-- The quote that the parameter evaluates to is in the parameter, so that what it holds is smaller
than the call. -/
theorem halts_force (hbelow : env.HaltsBelow e.node.weight) (hfuel : e.node.weight ≤ fuel + 2) :
    Halts (fun v => v.QuotedWithin e.node) (env.perform fuel (Primitive.force e)) := by
  unfold Primitive.force
  split
  · rename_i x hparameters
    have hx : x ∈ e.parameters := by simp [hparameters]
    have hweight := weight_lt_of_mem_parameters hx
    obtain ⟨fuel, rfl⟩ : ∃ k, fuel = k + 3 := ⟨fuel - 3, by omega⟩
    apply halts_eval (hbelow x (by omega) (fuel + 2) (by omega))
    intro v hv
    split
    · rename_i inner span
      have hquote : (Node.quote inner span).Within x := hv inner span rfl
      have hinner := hquote.weight_le
      rw [Node.weight] at hinner
      apply halts_eval (hbelow inner (by omega) (fuel + 1) (by omega))
      intro w hw
      have hinside : inner.Within x := .trans (.quote .refl) hquote
      exact halts_done (hw.trans (hinside.trans (within_of_mem_parameters hx)))
    · exact halts_fail _
  · obtain ⟨fuel, rfl⟩ : ∃ k, fuel = k + 1 :=
      ⟨fuel - 1, by have := Node.weightAll_lt_weight e; omega⟩
    exact halts_fail _

theorem halts_eval_done (hbelow : env.HaltsBelow e.node.weight) {x : Node} (hx : x ∈ e.parameters)
    (hfuel : e.node.weight ≤ fuel + 4) :
    Halts (fun v => v.QuotedWithin e.node) (env.perform fuel (.eval x .done)) := by
  have hweight := weight_lt_of_mem_parameters hx
  obtain ⟨fuel, rfl⟩ : ∃ k, fuel = k + 2 := ⟨fuel - 2, by omega⟩
  apply halts_eval (hbelow x (by omega) (fuel + 1) (by omega))
  intro v hv
  exact halts_done (hv.trans (within_of_mem_parameters hx))

theorem halts_choose (hbelow : env.HaltsBelow e.node.weight) (hfuel : e.node.weight ≤ fuel + 2) :
    Halts (fun v => v.QuotedWithin e.node) (env.perform fuel (Primitive.choose e)) := by
  have hcall := Node.weightAll_lt_weight e
  obtain ⟨fuel, rfl⟩ : ∃ k, fuel = k + 3 := ⟨fuel - 3, by omega⟩
  unfold Primitive.choose
  split
  · rename_i test whenTrue whenFalse hparameters
    have htest : test ∈ e.parameters := by simp [hparameters]
    have hweight := weight_lt_of_mem_parameters htest
    apply halts_eval (hbelow test (by omega) (fuel + 2) (by omega))
    intro v _
    apply halts_trace
    split
    · exact halts_eval_done hbelow (by simp [hparameters]) hfuel
    · exact halts_eval_done hbelow (by simp [hparameters]) hfuel
    · exact halts_fail _
  · exact halts_fail _

theorem halts_compare (name : String) (wanted : Bool) (hbelow : env.HaltsBelow e.node.weight)
    (hfuel : e.node.weight ≤ fuel + 2) :
    Halts (fun v => v.QuotedWithin e.node)
      (env.perform fuel (Primitive.compare name wanted e)) := by
  have hcall := Node.weightAll_lt_weight e
  unfold Primitive.compare
  split
  · apply halts_evalAll hbelow e.parameters
    · intro x hx
      have := weight_lt_of_mem_parameters hx
      omega
    · omega
    · intro vs fuel
      split
      · exact halts_done (quotedWithin_of_ne (fun _ h => by cases h) _)
      · exact halts_fail _
  · obtain ⟨fuel, rfl⟩ : ∃ k, fuel = k + 1 := ⟨fuel - 1, by omega⟩
    exact halts_fail _

theorem halts_text {fuel : Nat} (s : String) :
    Halts (fun v => v.QuotedWithin e.node) (env.perform (fuel + 1) (.done (.str s))) :=
  halts_done (quotedWithin_of_ne (fun _ h => by cases h) _)

theorem halts_columns (name : String) (column : String → String → String)
    (hbelow : env.HaltsBelow e.node.weight) (hfuel : e.node.weight ≤ fuel + 2) :
    Halts (fun v => v.QuotedWithin e.node)
      (env.perform fuel (Primitive.columns name column e)) := by
  have hcall := Node.weightAll_lt_weight e
  obtain ⟨fuel, rfl⟩ : ∃ k, fuel = k + 3 := ⟨fuel - 3, by omega⟩
  unfold Primitive.columns
  split
  · rename_i x y hparameters
    have hx := weight_lt_of_mem_parameters (e := e) (x := x) (by simp [hparameters])
    have hy := weight_lt_of_mem_parameters (e := e) (x := y) (by simp [hparameters])
    apply halts_expecting _ (hbelow x (by omega) (fuel + 2) (by omega))
    intro table
    apply halts_expecting _ (hbelow y (by omega) (fuel + 1) (by omega))
    intro names
    split
    · exact halts_ofExcept _ fun names => halts_text _
    · exact halts_done (quotedWithin_of_ne (fun _ h => by cases h) _)
  · exact halts_fail _

variable [HostClasses]

theorem halts_textOf (hbelow : env.HaltsBelow e.node.weight) (hfuel : e.node.weight ≤ fuel + 2) :
    Halts (fun v => v.QuotedWithin e.node) (env.perform fuel (Primitive.textOf e)) := by
  have hcall := Node.weightAll_lt_weight e
  obtain ⟨fuel, rfl⟩ : ∃ k, fuel = k + 2 := ⟨fuel - 2, by omega⟩
  unfold Primitive.textOf
  split
  · rename_i x hparameters
    have hweight := weight_lt_of_mem_parameters (e := e) (x := x) (by simp [hparameters])
    apply halts_eval (hbelow x (by omega) (fuel + 1) (by omega))
    intro v _
    exact halts_ofExcept _ halts_text
  · exact halts_fail _

theorem halts_concat (hbelow : env.HaltsBelow e.node.weight) (hfuel : e.node.weight ≤ fuel + 2) :
    Halts (fun v => v.QuotedWithin e.node) (env.perform fuel (Primitive.concat e)) := by
  have hcall := Node.weightAll_lt_weight e
  apply halts_evalAll hbelow e.parameters
  · intro x hx
    have := weight_lt_of_mem_parameters hx
    omega
  · omega
  · intro vs fuel
    exact halts_ofExcept _ fun texts => halts_text _

theorem halts_serializeValue (hbelow : env.HaltsBelow e.node.weight)
    (hfuel : e.node.weight ≤ fuel + 2) :
    Halts (fun v => v.QuotedWithin e.node) (env.perform fuel (Primitive.serializeValue e)) := by
  have hcall := Node.weightAll_lt_weight e
  obtain ⟨fuel, rfl⟩ : ∃ k, fuel = k + 3 := ⟨fuel - 3, by omega⟩
  unfold Primitive.serializeValue
  split
  · rename_i x y hparameters
    have hx := weight_lt_of_mem_parameters (e := e) (x := x) (by simp [hparameters])
    have hy := weight_lt_of_mem_parameters (e := e) (x := y) (by simp [hparameters])
    apply halts_expecting _ (hbelow x (by omega) (fuel + 2) (by omega))
    intro format
    apply halts_eval (hbelow y (by omega) (fuel + 1) (by omega))
    intro v _
    split
    · exact halts_text _
    · exact halts_fail _
  · exact halts_fail _

theorem halts_primitive (henv : env.WritesOnly) {name : String} {p : Primitive}
    (hp : env.primitives.find? name = some p) (hbelow : env.HaltsBelow e.node.weight)
    (hfuel : e.node.weight ≤ fuel + 2) :
    Halts (fun v => v.QuotedWithin e.node) (env.perform fuel (p e)) := by
  obtain ⟨entry, hentry, rfl⟩ := Option.map_eq_some_iff.mp hp
  rcases henv entry (List.mem_of_find?_eq_some hentry) with hmem | ⟨c, hmem, hname⟩
  · simp only [Primitive.standard, List.mem_cons, List.not_mem_nil, or_false] at hmem
    rcases hmem with rfl | rfl | rfl | rfl
    · exact halts_compare _ _ hbelow hfuel
    · exact halts_force hbelow hfuel
    · exact halts_choose hbelow hfuel
    · exact halts_compare _ _ hbelow hfuel
  · simp only [Primitive.library, List.mem_cons, List.not_mem_nil, or_false] at hmem
    rcases hmem with rfl | rfl | rfl | rfl | rfl | rfl
    · exact halts_concat hbelow hfuel
    · exact halts_columns _ _ hbelow hfuel
    · exact halts_columns _ _ hbelow hfuel
    · exact absurd rfl hname
    · exact halts_serializeValue hbelow hfuel
    · exact halts_textOf hbelow hfuel

end Primitives

section Nodes

variable {env : Setting} {e : Invocation} {fuel : Nat}

/-- A host without members finds none, though it may fail to look for them. -/
theorem halts_resolveMember (target : Value) (name : String) (types : Option (List ValueType)) :
    Halts (fun found => found = none) (env.withoutMembers.resolveMember target name types) := by
  apply Halts.ofEffect
  intro s found hfound
  change (Effect.bind (env.host.resolveMember (s.settle target) name types)
    (fun _ => Effect.pure none) s).1 = .ok found at hfound
  unfold Effect.bind at hfound
  split at hfound <;> cases hfound
  rfl

theorem halts_parameters {P : Node → Value → Prop} {evaluate : Node → Run Value} {xs : List Node}
    (h : ∀ x ∈ xs, Halts (P x) (evaluate x)) :
    Halts (fun _ => True) (Run.mapAll evaluate xs) :=
  (Halts.mapAll h).weaken fun _ _ => trivial

theorem halts_invokeStatic {evaluate : Node → Run Value}
    (h : ∀ x ∈ e.parameters, Halts (fun v => v.QuotedWithin x) (evaluate x)) (path : List String)
    (member : String) :
    Halts (fun v => v.QuotedWithin e.node)
      (env.withoutMembers.invokeStatic evaluate path member e) := by
  unfold invokeStatic
  refine (Halts.ofEffect (P := fun _ => True) fun _ _ _ => trivial).bind fun found _ => ?_
  cases found with
  | none => exact .fail _
  | some target =>
      refine (halts_parameters h).bind fun arguments _ => (Halts.visit _).bind fun _ _ => ?_
      refine (halts_resolveMember target member none).bind fun found hfound => ?_
      rw [hfound]
      exact .fail _

theorem halts_invokeInstance {evaluate : Node → Run Value}
    (h : ∀ x ∈ e.parameters, Halts (fun v => v.QuotedWithin x) (evaluate x)) (member : String) :
    Halts (fun v => v.QuotedWithin e.node)
      (env.withoutMembers.invokeInstance evaluate member e) := by
  unfold invokeInstance
  split
  · exact .fail _
  · rename_i x rest hparameters
    rw [hparameters] at h
    refine (h x List.mem_cons_self).bind fun receiver _ => (Halts.visit _).bind fun _ _ => ?_
    split
    · exact .fail _
    · have hrest := halts_parameters fun y hy => h y (List.mem_cons_of_mem _ hy)
      refine hrest.bind fun arguments _ => (Halts.visit _).bind fun _ _ => ?_
      refine (halts_resolveMember receiver member _).bind fun found hfound => ?_
      rw [hfound]
      exact .fail _

variable [HostClasses]

theorem halts_invoke (henv : env.WritesOnly)
    (hbelow : env.withoutMembers.HaltsBelow e.node.weight) (hfuel : e.node.weight ≤ fuel + 1) :
    Halts (fun v => v.QuotedWithin e.node) (env.withoutMembers.invoke fuel e) := by
  have hcall := Node.weightAll_lt_weight e
  obtain ⟨fuel, rfl⟩ : ∃ k, fuel = k + 1 := ⟨fuel - 1, by omega⟩
  have hparameters : ∀ x ∈ e.parameters,
      Halts (fun v => v.QuotedWithin x) (env.withoutMembers.dispatch fuel x) := by
    intro x hx
    have := weight_lt_of_mem_parameters hx
    exact hbelow x (by omega) fuel (by omega)
  rw [invoke]
  split
  · split
    · exact .fail _
    · rename_i p hp
      have hwrites : env.withoutMembers.WritesOnly := henv
      have hcalled := halts_primitive hwrites hp hbelow hfuel
      exact (Halts.traceLine _).bind fun _ _ => hcalled.framed _
  · exact halts_invokeStatic hparameters _ _
  · exact halts_invokeInstance hparameters _
  · exact .fail _

theorem haltsBelow (henv : env.WritesOnly) (n : Nat) : env.withoutMembers.HaltsBelow n := by
  -- On the weight, and not on the node, for a quote that was computed is evaluated as well.
  induction n with
  | zero => exact fun x hx => absurd hx (Nat.not_lt_zero _)
  | succ n ih =>
      intro x hx fuel hfuel
      have hbelow : env.withoutMembers.HaltsBelow x.weight :=
        fun y hy => ih y (Nat.lt_of_lt_of_le hy (Nat.le_of_lt_succ hx))
      obtain ⟨fuel, rfl⟩ : ∃ k, fuel = k + 1 := ⟨fuel - 1, by have := x.weight_pos; omega⟩
      rw [dispatch.eq_def]
      refine (Halts.visit _).bind fun _ _ => ?_
      cases x with
      | error message span => exact .fail _
      | literal value span =>
          exact .pure (quotedWithin_of_ne (fun _ h => by cases value <;> cases h) _)
      | identifier name span => exact .lookup name _
      | list xs span =>
          rw [Node.weight] at hfuel
          have hitems : ∀ y ∈ xs,
              Halts (fun v => v.QuotedWithin y) (env.withoutMembers.dispatch fuel y) := by
            intro y hy
            have := Node.weight_lt_weightAll hy
            exact hbelow y (by rw [Node.weight]; omega) fuel (by omega)
          refine (halts_parameters hitems).bind fun vs _ => ?_
          exact halts_adopt (quotedWithin_of_ne (fun _ h => by cases h) _)
      | quote inner span => exact .pure fun _ _ hv => by cases hv; exact .refl
      | invocation head parameters span => exact halts_invoke (e := ⟨_, _, _⟩) henv hbelow hfuel
      | instanceMember member span => exact .fail _
      | staticMember path member span => exact .fail _

theorem halts_evalEach (henv : env.WritesOnly) {xs : List Node}
    (hfuel : Node.weightAll xs ≤ fuel) :
    Halts (List.Forall₂ (fun x v => v.QuotedWithin x) xs)
      (env.withoutMembers.evalEach fuel xs) := by
  apply Halts.mapAll
  intro x hx
  have := Node.weight_lt_weightAll hx
  exact (haltsBelow henv (x.weight + 1) x (Nat.lt_succ_self _) fuel (by omega)).evaluation none

omit [HostClasses] in
theorem extends_evalEach (env : Setting) {fuel fuel' : Nat} (h : fuel ≤ fuel') (xs : List Node) :
    Extends (env.evalEach fuel xs) (env.evalEach fuel' xs) :=
  .mapAll (fun x => (env.extends_dispatch h x).evaluation none) xs

/-- A quote that a node evaluates to, with whatever fuel, is a part of the node. -/
theorem quotedWithin_of_dispatch (henv : env.WritesOnly) {x : Node} {m : Machine} {v : Value}
    (hm : m.scopes.Quoteless) (hv : (env.withoutMembers.dispatch fuel x m).1 = .ok v) :
    v.QuotedWithin x := by
  have hfull := env.withoutMembers.extends_dispatch (Nat.le_max_left fuel x.weight) x m
  rw [hv] at hfull
  have hhalts := haltsBelow henv (x.weight + 1) x (Nat.lt_succ_self _) _
    (Nat.le_max_right fuel x.weight) m hm
  rw [hfull nofun] at hhalts
  exact hhalts.2.2 v hv

end Nodes

/-- As long as no quote is bound and the primitives are standard ones and those that write values,
the evaluation of expressions in order that resolves no member of the host ends: it has a result
with all fuel from some bound on. The expressions evaluate to no quotes but those in them, and
nor do the expressions that are evaluated on the way. -/
theorem evalEach_terminates [HostClasses] (env : Setting) (xs : List Node) (m : Machine)
    (henv : env.WritesOnly) (hscopes : m.scopes.Quoteless)
    (hmembers : env.ResolvesNoMember xs m) :
    (∃ result : Outcome (List Value) × Machine, result.1 ≠ .unfinished ∧
      (∀ fuel, Node.weightAll xs ≤ fuel → env.evalEach fuel xs m = result) ∧
      ∀ vs, result.1 = .ok vs → List.Forall₂ (fun x v => v.QuotedWithin x) xs vs) ∧
    ∀ x m' fuel v, m'.scopes.Quoteless → (env.withoutMembers.dispatch fuel x m').1 = .ok v →
      v.QuotedWithin x := by
  refine ⟨⟨env.withoutMembers.evalEach (Node.weightAll xs) xs m, ?_⟩, ?_⟩
  · obtain ⟨hfinished, -, hvalues⟩ := halts_evalEach henv (Nat.le_refl _) m hscopes
    refine ⟨hfinished, ?_, hvalues⟩
    intro fuel hfuel
    rw [hmembers fuel]
    exact env.withoutMembers.extends_evalEach hfuel xs m hfinished
  · intro x m' fuel v hm' hv
    exact quotedWithin_of_dispatch henv hm' hv

open scoped Sample

/-- A quote that is chosen is evaluated, and in it another one. -/
theorem evalEach_terminates_on_chosen_quote :
    let host : Host := ⟨Table.resolveType, fun _ _ _ => Effect.pure none, Table.call⟩
    let env : Setting := ⟨host, Primitive.standard ++ [("str", Primitive.textOf)]⟩
    let call (name : String) (parameters : List Node) : Node :=
      .invocation (.identifier name .absent) parameters .absent
    let text : Node := call "str" [.identifier "x" .absent]
    let inner : Node := .quote (call "eval" [.quote text .absent]) .absent
    let xs : List Node :=
      [call "eval" [call "if" [.literal (.boolean true) .absent, inner, text]], inner]
    let m : Machine := { Machine.initial with scopes := ⟨[⟨none, [⟨"x", none, .int 1⟩]⟩]⟩ }
    ∃ result : Outcome (List Value) × Machine, result.1 ≠ .unfinished ∧
      ∀ fuel, Node.weightAll xs ≤ fuel → env.evalEach fuel xs m = result := by
  intro host env call text inner xs m
  have henv : env.WritesOnly := by
    intro entry hentry
    rcases List.mem_append.mp hentry with h | h
    · exact .inl h
    · rw [List.mem_singleton.mp h]
      exact .inr ⟨Builtin.catalogue, by simp [Primitive.library], by decide⟩
  have hscopes : m.scopes.Quoteless := by
    intro sc hsc b hb inner span
    rw [List.mem_singleton.mp hsc] at hb
    rw [List.mem_singleton.mp hb]
    nofun
  have h := evalEach_terminates env xs m henv hscopes fun _ => rfl
  obtain ⟨result, hfinished, hresult, -⟩ := h.1
  exact ⟨result, hfinished, hresult⟩

end Setting

end HostedLisp
