import HostedLisp.Host.Sample
import HostedLisp.Proofs.Evaluation.Choosing
import HostedLisp.Proofs.Evaluation.Taxonomy

/-!
Joining texts. Main statement: an invocation of `concat` among the parameters of another one can be
replaced by its parameters. The inner invocation writes its values earlier than the outer one would,
which makes no difference as long as what they hold stays the same until then and all of them can be
written.
-/

namespace HostedLisp

/-- Whether the second computation has the result of the first one wherever that one does not run
out of fuel, and leaves the same apart from what is kept for reports. -/
def Run.SimulatedBy {α : Type} (r r' : Run α) : Prop :=
  ∀ m m' : Machine, m.essential = m'.essential → (r m).1 ≠ .unfinished →
    (r' m').1 = (r m).1 ∧ (r' m').2.essential = (r m).2.essential

namespace Run.SimulatedBy

variable {α β : Type} {r r' r'' : Run α}

theorem trans (h : SimulatedBy r r') (h' : SimulatedBy r' r'') : SimulatedBy r r'' := by
  intro m m' hm hfinished
  obtain ⟨hresult, hstate⟩ := h m m rfl hfinished
  obtain ⟨hresult', hstate'⟩ := h' m m' hm (hresult ▸ hfinished)
  exact ⟨hresult'.trans hresult, hstate'.trans hstate⟩

theorem bind {k k' : α → Run β} (h : SimulatedBy r r') (hk : ∀ a, SimulatedBy (k a) (k' a)) :
    SimulatedBy (r >>= k) (r' >>= k') := by
  intro m m' hm hfinished
  have hfirst := h m m' hm
  change (Run.bind r k m).1 ≠ .unfinished at hfinished
  change (Run.bind r' k' m').1 = (Run.bind r k m).1 ∧
    (Run.bind r' k' m').2.essential = (Run.bind r k m).2.essential
  unfold Run.bind at hfinished ⊢
  cases hr : r m with
  | mk o n =>
      cases hr' : r' m' with
      | mk o' n' =>
          rw [hr] at hfirst hfinished
          rw [hr'] at hfirst
          cases o with
          | unfinished => exact absurd rfl hfinished
          | ok a =>
              obtain ⟨hresult, hstate⟩ := hfirst nofun
              obtain rfl : o' = .ok a := hresult
              exact hk a n n' hstate.symm hfinished
          | failed f =>
              obtain ⟨hresult, hstate⟩ := hfirst nofun
              obtain rfl : o' = .failed f := hresult
              exact ⟨rfl, hstate⟩

theorem evaluation (h : SimulatedBy r r') (scope : Option Nat) :
    SimulatedBy (Run.evaluation scope r) (Run.evaluation scope r') := by
  intro m m' hm hfinished
  obtain ⟨hresult, hstate⟩ := h _ _ (Machine.essential_evaluating hm scope) hfinished
  rw [Run.evaluation_eq, Run.evaluation_eq, Machine.erasure_essential.scope_eq hm]
  exact ⟨hresult, congrArg (fun n : Machine => { n with scope := m'.scope }) hstate⟩

end Run.SimulatedBy

/-- The text of values one after the other, as they are in some store. -/
def Store.joined [HostClasses] (s : Store) (vs : List Value) : Except Failure Value :=
  ((s.settleAll vs).mapM Value.toText?).map fun texts => .str (String.join texts)

namespace Store

variable {s : Store} {us vs ws : List Value}

end Store

/-- Answers the text of values one after the other. -/
def Run.joined [HostClasses] (vs : List Value) : Run Value := fun m =>
    (.ofExcept (m.store.joined vs), m)

namespace Setting

open Run

/-- The value of a parameter as it is right after its evaluation. -/
def parameter (env : Setting) (fuel : Nat) (x : Node) : Run Value := do
  Run.ofEffect (Effect.settle (← Run.evaluation none (env.dispatch fuel x)))

/-- The values of parameters, which are evaluated in order. -/
def parameters (env : Setting) (fuel : Nat) (xs : List Node) : Run (List Value) :=
  Run.mapAll (env.parameter fuel) xs

section Sequence

variable {env : Setting} {fuel fuel' : Nat} {α : Type}

variable [HostClasses]

end Sequence

section Simulation

variable {env : Setting} {fuel : Nat}

variable (hprimitives : ∀ entry ∈ env.primitives, Primitive.Heedless entry.2)
include hprimitives

variable [HostClasses] (hconcat : env.primitives.find? "concat" = some Primitive.concat)
    (call : Span × Span)
include hconcat

end Simulation

/-- Whether the evaluation of parameters in order, as far as it comes, changes nothing that a list
or an object holds, and gives no values that have no text. -/
structure Quiet [HostClasses] (env : Setting) (ps : List Node) (m : Machine) : Prop where
  unchanged : ∀ fuel xs vs n, xs <+: ps → env.parameters fuel xs m = (.ok vs, n) →
    n.store.changes = m.store.changes
  writable : ∀ fuel xs vs n, xs <+: ps → env.parameters fuel xs m = (.ok vs, n) →
    ∀ v ∈ n.store.settleAll vs, ∃ text, v.toText? = .ok text

section Flattening

variable {env : Setting} {fuel fuel' : Nat} {m n k : Machine}

end Flattening

section Ends

variable {env : Setting} {x y z : Node} {scope : Option Nat} {m : Machine}

variable [HostClasses] (hconcat : env.primitives.find? "concat" = some Primitive.concat)
  (hprimitives : ∀ entry ∈ env.primitives, Primitive.Heedless entry.2)
  (outer inner outer' : Span × Span)
include hconcat hprimitives

end Ends

open scoped Sample

end Setting

end HostedLisp
