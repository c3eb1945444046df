import HostedLisp.Proofs.Evaluation.Restoration
import HostedLisp.Proofs.Value.Placement

namespace HostedLisp

/-- How far a state is ahead of another one: the identities from `first` on are larger in it by
`identities`, and the places of all scopes but the root by `scopes`. -/
structure Drift where
  first : Identity
  identities : Nat
  scopes : Nat
  first_pos : 0 < first

/-- The result with another value. -/
def Outcome.map {α β : Type} (f : α → β) : Outcome α → Outcome β
  | ok a => ok (f a)
  | failed x => failed x
  | unfinished => unfinished

def Binding.rename (ρ : Renaming) (b : Binding) : Binding := { b with value := b.value.rename ρ }

def Frame.rename (ρ : Renaming) (f : Frame) : Frame :=
  { f with arguments := f.arguments.map (Value.rename ρ) }

def Member.rename (ρ : Renaming) (m : Member) : Member := { m with target := m.target.rename ρ }

def ScopeRef.rename (ρ : Renaming) : ScopeRef → ScopeRef
  | absent => absent
  | here => here
  | parent r => parent (r.rename ρ)
  | child r bindings => child (r.rename ρ) (bindings.map (Prod.map id (Value.rename ρ)))

namespace Drift

variable (δ : Drift)

/-- The renaming of the identities. -/
def shifted : Renaming := .shift δ.first δ.identities δ.first_pos

/-- The value with the identities it has after the drift. -/
def value (v : Value) : Value := v.rename δ.shifted

/-- The place of a scope after the drift. -/
def place (i : Nat) : Nat := if i = 0 then 0 else i + δ.scopes

def scope (sc : Scope) : Scope :=
  ⟨sc.parent.map δ.place, sc.bindings.map (Binding.rename δ.shifted)⟩

/-- Whether one store is the other one after the drift. The events of both are any. -/
structure Stores (s s' : Store) : Prop where
  changes_eq : s'.changes = s.changes.map (Change.rename δ.shifted)
  next_eq : s'.nextIdentity = s.nextIdentity + δ.identities
  first_le : δ.first ≤ s.nextIdentity

/-- Whether the scopes of one tree are in the other one after the drift. -/
structure Trees (t t' : Scopes) : Prop where
  get_eq : ∀ i, t'.all[δ.place i]? = (t.all[i]?).map δ.scope
  length_eq : t'.all.length = t.all.length + δ.scopes
  nonempty : 0 < t.all.length
  root_parent : (t.all[0]?).bind Scope.parent = none

/-- Whether one state is the other one after the drift. Nothing is said of the trace. -/
structure Machines (m m' : Machine) : Prop where
  scopes : δ.Trees m.scopes m'.scopes
  scope_eq : m'.scope = δ.place m.scope
  frames_eq : m'.frames = m.frames.map (Frame.rename δ.shifted)
  activeFrames_eq : m'.activeFrames = m.activeFrames
  depth_eq : m'.depth = m.depth
  current_eq : m'.current = m.current.map δ.value
  store : δ.Stores m.store m'.store

section Scopes

variable {δ} {t t' : Scopes} {i j : Nat}

theorem place_lt_place_iff : δ.place i < δ.place j ↔ i < j := by
  unfold place
  split <;> split <;> omega

theorem place_inj : δ.place i = δ.place j ↔ i = j := by
  unfold place
  split <;> split <;> omega

namespace Trees

theorem path_eq (h : δ.Trees t t') (i : Nat) : t'.path (δ.place i) = (t.path i).map δ.place := by
  induction i using Nat.strongRecOn with
  | ind i ih =>
      have hparent : (t'.all[δ.place i]?).bind Scope.parent =
          ((t.all[i]?).bind Scope.parent).map δ.place := by
        rw [h.get_eq]
        cases t.all[i]? <;> rfl
      rw [Scopes.path, Scopes.path, hparent]
      cases (t.all[i]?).bind Scope.parent with
      | none => rfl
      | some p =>
          simp only [Option.map_some, place_lt_place_iff]
          split
          · rename_i hp
            rw [ih p hp, List.map_cons]
          · rfl

theorem own_eq (h : δ.Trees t t') (i : Nat) :
    t'.own (δ.place i) = (t.own i).map (Binding.rename δ.shifted) := by
  rw [Scopes.own, Scopes.own, h.get_eq]
  cases t.all[i]? <;> rfl

theorem chain_eq (h : δ.Trees t t') (i : Nat) :
    t'.chain (δ.place i) = (t.chain i).map (List.map (Binding.rename δ.shifted)) := by
  rw [Scopes.chain, Scopes.chain, h.path_eq, List.map_map, List.map_map]
  exact List.map_congr_left fun j _ => h.own_eq j

theorem parent?_eq (h : δ.Trees t t') (i : Nat) :
    t'.parent? (δ.place i) = (t.parent? i).map δ.place := by
  rw [Scopes.parent?, Scopes.parent?, h.path_eq, List.getElem?_map]

theorem add (h : δ.Trees t t') (parent : Option Nat) :
    (t'.add (parent.map δ.place)).1 = δ.place (t.add parent).1 ∧
      δ.Trees (t.add parent).2 (t'.add (parent.map δ.place)).2 := by
  have hlength : t'.all.length = δ.place t.all.length := by
    rw [h.length_eq, place, if_neg (Nat.ne_of_gt h.nonempty)]
  refine ⟨hlength, ?_, ?_, ?_, ?_⟩
  · intro i
    simp only [Scopes.add]
    -- Earlier scopes are where they were, the new one is at the end of both, and none is beyond.
    rcases Nat.lt_trichotomy i t.all.length with hi | rfl | hi
    · have hi' : δ.place i < t'.all.length := by rwa [hlength, place_lt_place_iff]
      rw [List.getElem?_append_left hi, List.getElem?_append_left hi', h.get_eq]
    · rw [← hlength, List.getElem?_concat_length, List.getElem?_concat_length]
      rfl
    · have hi' : t'.all.length < δ.place i := by rwa [hlength, place_lt_place_iff]
      rw [List.getElem?_eq_none (by rw [List.length_append]; exact hi'),
        List.getElem?_eq_none (by rw [List.length_append]; exact hi)]
      rfl
  · simp only [Scopes.add, List.length_append, h.length_eq, List.length_singleton]
    omega
  · exact Nat.lt_of_lt_of_le h.nonempty (by simp [Scopes.add])
  · rw [← h.root_parent]
    simp only [Scopes.add, List.getElem?_append_left h.nonempty]

theorem insert_rename (ρ : Renaming) (b : Binding) (bs : Bindings) :
    Bindings.insert (b.rename ρ) (bs.map (Binding.rename ρ)) =
      (bs.insert b).map (Binding.rename ρ) := by
  induction bs with
  | nil => rfl
  | cons c rest ih =>
      rw [List.map_cons, Bindings.insert, ih, Bindings.insert]
      change (if c.name = b.name then _ else _) = _
      split <;> rfl

theorem insert (h : δ.Trees t t') (i : Nat) (b : Binding) :
    δ.Trees (t.insert i b) (t'.insert (δ.place i) (b.rename δ.shifted)) where
  get_eq j := by
    simp only [Scopes.insert, List.getElem?_modify, h.get_eq, place_inj]
    cases t.all[j]? with
    | none => rfl
    | some sc =>
        simp only [Option.map_some, Option.map_eq_map]
        split
        · simp only [scope, insert_rename]
        · rfl
  length_eq := by
    simp only [Scopes.insert, List.length_modify]
    exact h.length_eq
  nonempty := by
    simp only [Scopes.insert, List.length_modify]
    exact h.nonempty
  root_parent := by
    rw [← h.root_parent]
    simp only [Scopes.insert, List.getElem?_modify]
    cases t.all[0]? with
    | none => rfl
    | some sc =>
        simp only [Option.map_eq_map, Option.map_some, Option.bind_some]
        split <;> rfl

end Trees

theorem find?_rename (ρ : Renaming) (bs : Bindings) (name : String) :
    Bindings.find? (bs.map (Binding.rename ρ)) name = (bs.find? name).map (Binding.rename ρ) :=
  List.find?_map ..

theorem lookup?_rename (ρ : Renaming) (chain : Chain) (name : String) :
    Chain.lookup? (chain.map (List.map (Binding.rename ρ))) name =
      (chain.lookup? name).map (Binding.rename ρ) := by
  induction chain with
  | nil => rfl
  | cons bs outer ih =>
      simp only [Chain.lookup?, List.map_cons, List.findSome?_cons, find?_rename] at ih ⊢
      cases bs.find? name with
      | none => exact ih
      | some b => rfl

theorem Trees.lookup_eq (h : δ.Trees t t') (i : Nat) (name : String) :
    t'.lookup (δ.place i) name = (t.lookup i name).map (Binding.rename δ.shifted) := by
  rw [Scopes.lookup, Scopes.lookup, h.chain_eq, lookup?_rename]
  cases (t.chain i).lookup? name <;> rfl

/-- The names of a flat list with renamed values. -/
def names (flat : List (String × Value)) : List (String × Value) := flat.map (Prod.map id δ.value)

theorem setName_rename (name : String) (v : Value) (flat : List (String × Value)) :
    Chain.setName name (δ.value v) (δ.names flat) = δ.names (Chain.setName name v flat) := by
  induction flat with
  | nil => rfl
  | cons e rest ih =>
      obtain ⟨n, w⟩ := e
      simp only [names, List.map_cons, Chain.setName, Prod.map, id_eq] at ih ⊢
      split
      · rfl
      · rw [ih]
        rfl

theorem flatten_rename (chain : Chain) :
    Chain.flatten (chain.map (List.map (Binding.rename δ.shifted))) = δ.names chain.flatten := by
  have hoverlay : ∀ (bs : Bindings) (flat : List (String × Value)),
      Chain.overlay (δ.names flat) (bs.map (Binding.rename δ.shifted)) =
        δ.names (Chain.overlay flat bs) := by
    intro bs
    induction bs with
    | nil => exact fun _ => rfl
    | cons b rest ih =>
        intro flat
        simp only [Chain.overlay, List.map_cons, List.foldl_cons] at ih ⊢
        rw [← ih, ← setName_rename]
        rfl
  induction chain with
  | nil => rfl
  | cons bs outer ih => rw [List.map_cons, Chain.flatten, Chain.flatten, ih, hoverlay]

end Scopes

section Stores

variable {δ} {s s' : Store}

theorem Stores.settle_eq (h : δ.Stores s s') (v : Value) :
    s'.settle (δ.value v) = δ.value (s.settle v) := by
  rw [Store.settle, Store.settle, h.changes_eq]
  induction s.changes generalizing v with
  | nil => rfl
  | cons c changes ih =>
      rw [List.map_cons, List.foldl_cons, List.foldl_cons, value, Value.update_rename]
      exact ih (v.update c)

theorem Stores.settleAll_eq (h : δ.Stores s s') (vs : List Value) :
    s'.settleAll (vs.map δ.value) = (s.settleAll vs).map δ.value := by
  rw [Store.settleAll, Store.settleAll, List.map_map, List.map_map]
  exact List.map_congr_left fun v _ => h.settle_eq v

theorem Stores.adopt (h : δ.Stores s s') (v : Value) :
    (s'.adopt (δ.value v)).1 = δ.value (s.adopt v).1 ∧
      δ.Stores (s.adopt v).2 (s'.adopt (δ.value v)).2 := by
  have hplace : (δ.value v).place s'.nextIdentity =
      (δ.value (v.place s.nextIdentity).1, (v.place s.nextIdentity).2 + δ.identities) := by
    rw [h.next_eq]
    exact Value.place_shift v h.first_le
  unfold Store.adopt
  rw [hplace]
  exact ⟨rfl, h.changes_eq, rfl, Nat.le_trans h.first_le (Value.le_place v _)⟩

theorem Stores.record (h : δ.Stores s s') (e e' : Event) : δ.Stores (s.record e) (s'.record e') :=
  ⟨h.changes_eq, h.next_eq, h.first_le⟩

end Stores

/-- Whether two computations over the store have the same result up to `f`, from each two stores of
which one is the other one after the drift, and leave two such stores. -/
def Effects {α : Type} (f : α → α) (e e' : Effect α) : Prop :=
  ∀ s s', δ.Stores s s' → (e' s').1 = (e s).1.map f ∧ δ.Stores (e s).2 (e' s').2

/-- Whether two computations have the same result up to `f`, from each two states of which one is
the other one after the drift, and leave two such states. -/
def Runs {α : Type} (f : α → α) (r r' : Run α) : Prop :=
  ∀ m m', δ.Machines m m' → (r' m').1 = (r m).1.map f ∧ δ.Machines (r m).2 (r' m').2

variable {δ} {α β : Type} {f : α → α} {g : β → β}

namespace Effects

theorem pure (a : α) : δ.Effects f (.pure a) (.pure (f a)) := fun _ _ h => ⟨rfl, h⟩

theorem fail (x : Failure) : δ.Effects f (.fail x) (.fail x) := fun _ _ h => ⟨rfl, h⟩

theorem ofExcept (r : Except Failure α) : δ.Effects id (.ofExcept r) (.ofExcept r) := by
  cases r with
  | ok a => exact pure a
  | error x => exact fail x

theorem adopt (v : Value) : δ.Effects δ.value (.adopt v) (.adopt (δ.value v)) :=
  fun _ _ h => ⟨congrArg Except.ok (h.adopt v).1, (h.adopt v).2⟩

theorem settle (v : Value) : δ.Effects δ.value (.settle v) (.settle (δ.value v)) :=
  fun _ _ h => ⟨congrArg Except.ok (h.settle_eq v), h⟩

theorem record (e e' : Event) :
    δ.Effects id (.modify fun s => s.record e) (.modify fun s => s.record e') :=
  fun _ _ h => ⟨rfl, h.record e e'⟩

theorem bind {e e' : Effect α} {k k' : α → Effect β} (h : δ.Effects f e e')
    (hk : ∀ a, δ.Effects g (k a) (k' (f a))) : δ.Effects g (e >>= k) (e' >>= k') := by
  intro s s' hs
  obtain ⟨hresult, hstores⟩ := h s s' hs
  change (Effect.bind e' k' s').1 = (Effect.bind e k s).1.map g ∧
    δ.Stores (Effect.bind e k s).2 (Effect.bind e' k' s').2
  unfold Effect.bind
  cases he : e s with
  | mk o t =>
      cases he' : e' s' with
      | mk o' t' =>
          rw [he, he'] at hresult hstores
          cases o with
          | ok a =>
              obtain rfl : o' = .ok (f a) := hresult
              exact hk a t t' hstores
          | error x =>
              obtain rfl : o' = .error x := hresult
              exact ⟨rfl, hstores⟩

theorem read_bind {k k' : Store → Effect β}
    (hk : ∀ s s', δ.Stores s s' → δ.Effects g (k s) (k' s')) :
    δ.Effects g (Effect.read >>= k) (Effect.read >>= k') :=
  fun s s' h => hk s s' h s s' h

end Effects

namespace Runs

variable {r r' : Run α}

theorem pure (a : α) : δ.Runs f (Run.pure a) (Run.pure (f a)) := fun _ _ h => ⟨rfl, h⟩

theorem fail (x : Failure) : δ.Runs f (Run.fail x) (Run.fail x) := fun _ _ h => ⟨rfl, h⟩

theorem unfinished : δ.Runs f Run.unfinished Run.unfinished := fun _ _ h => ⟨rfl, h⟩

theorem visit (v : Value) : δ.Runs id (Run.visit v) (Run.visit (δ.value v)) :=
  fun _ _ h => ⟨rfl, { h with current_eq := rfl }⟩

theorem traceLine (line line' : String) : δ.Runs id (Run.traceLine line) (Run.traceLine line') := by
  intro m m' h
  refine ⟨rfl, ?_⟩
  by_cases ht : m.tracing <;> by_cases ht' : m'.tracing <;>
    simpa only [Run.traceLine, Run.modify, ht, ht', if_true, if_false] using
      ⟨h.scopes, h.scope_eq, h.frames_eq, h.activeFrames_eq, h.depth_eq, h.current_eq, h.store⟩

theorem ofEffect {e e' : Effect α} (h : δ.Effects f e e') :
    δ.Runs f (Run.ofEffect e) (Run.ofEffect e') := by
  intro m m' hm
  obtain ⟨hresult, hstores⟩ := h m.store m'.store hm.store
  refine ⟨?_, { hm with store := hstores }⟩
  change Outcome.ofExcept (e' m'.store).1 = (Outcome.ofExcept (e m.store).1).map f
  rw [hresult]
  cases (e m.store).1 <;> rfl

theorem lookup (name : String) : δ.Runs δ.value (Run.lookup name) (Run.lookup name) := by
  intro m m' h
  refine ⟨?_, h⟩
  unfold Run.lookup
  dsimp only
  rw [h.scope_eq, h.scopes.lookup_eq]
  cases m.scopes.lookup m.scope name <;> rfl

theorem ofText?_rename (ρ : Renaming) (name : String) (v : Value) :
    Binding.ofText? name (v.rename ρ) =
      (Binding.ofText? name v).map (Binding.rename ρ) := by
  unfold Binding.ofText?
  split <;> rfl

theorem bindAt (i : Nat) (name : String) (v : Value) :
    δ.Runs id (Run.bindAt i name v) (Run.bindAt (δ.place i) name (δ.value v)) := by
  intro m m' h
  unfold Run.bindAt Scopes.bindText
  rw [value, ofText?_rename]
  cases Binding.ofText? name v with
  | ok b => exact ⟨rfl, { h with scopes := h.scopes.insert i b }⟩
  | error x => exact ⟨rfl, h⟩

theorem bindHere (name : String) (v : Value) :
    δ.Runs id (Run.bindHere name v) (Run.bindHere name (δ.value v)) := by
  intro m m' h
  have hbind := bindAt m.scope name v m m' h
  rwa [← h.scope_eq] at hbind

theorem bind {k k' : α → Run β} (h : δ.Runs f r r') (hk : ∀ a, δ.Runs g (k a) (k' (f a))) :
    δ.Runs g (r >>= k) (r' >>= k') := by
  intro m m' hm
  obtain ⟨hresult, hmachines⟩ := h m m' hm
  change (Run.bind r' k' m').1 = (Run.bind r k m).1.map g ∧
    δ.Machines (Run.bind r k m).2 (Run.bind r' k' m').2
  unfold Run.bind
  cases hr : r m with
  | mk o n =>
      cases hr' : r' m' with
      | mk o' n' =>
          rw [hr, hr'] at hresult hmachines
          cases o with
          | ok a =>
              obtain rfl : o' = .ok (f a) := hresult
              exact hk a n n' hmachines
          | failed x =>
              obtain rfl : o' = .failed x := hresult
              exact ⟨rfl, hmachines⟩
          | unfinished =>
              obtain rfl : o' = .unfinished := hresult
              exact ⟨rfl, hmachines⟩

theorem read_bind {k k' : Machine → Run β}
    (hk : ∀ m m', δ.Machines m m' → δ.Runs g (k m) (k' m')) :
    δ.Runs g (Run.read >>= k) (Run.read >>= k') :=
  fun m m' h => hk m m' h m m' h

theorem readStore_bind {k k' : Store → Run β}
    (hk : ∀ s s', δ.Stores s s' → δ.Runs g (k s) (k' s')) :
    δ.Runs g (Run.ofEffect Effect.read >>= k) (Run.ofEffect Effect.read >>= k') :=
  fun m m' h => hk m.store m'.store h.store m m' h

theorem mapAll_map {γ : Type} {h h' : γ → Run α} {u : γ → γ} (hx : ∀ x, δ.Runs f (h x) (h' (u x)))
    (xs : List γ) : δ.Runs (List.map f) (Run.mapAll h xs) (Run.mapAll h' (xs.map u)) := by
  induction xs with
  | nil => exact pure []
  | cons x xs ih => exact (hx x).bind fun y => ih.bind fun ys => pure (y :: ys)

theorem mapAll {γ : Type} {h h' : γ → Run α} (hx : ∀ x, δ.Runs f (h x) (h' x)) (xs : List γ) :
    δ.Runs (List.map f) (Run.mapAll h xs) (Run.mapAll h' xs) := by
  have hmap := mapAll_map (u := id) hx xs
  rwa [List.map_id] at hmap

theorem bindAll {h h' : String × Value → Run Unit}
    (hb : ∀ name v, δ.Runs id (h (name, v)) (h' (name, δ.value v)))
    (bindings : List (String × Value)) :
    δ.Runs (List.map id) (Run.mapAll h bindings) (Run.mapAll h' (δ.names bindings)) :=
  mapAll_map (u := Prod.map id δ.value) (fun b => hb b.1 b.2) bindings

theorem framed (h : δ.Runs f r r') (frame : Frame) :
    δ.Runs f (Run.framed frame r) (Run.framed (frame.rename δ.shifted) r') := by
  intro m m' hm
  have hcalling : δ.Machines (m.calling frame) (m'.calling (frame.rename δ.shifted)) :=
    { hm with
      frames_eq := by
        simp [Machine.calling, hm.frames_eq, hm.activeFrames_eq, List.map_take]
      activeFrames_eq := congrArg (· + 1) hm.activeFrames_eq }
  obtain ⟨hresult, hmachines⟩ := h _ _ hcalling
  rw [Run.framed_eq, Run.framed_eq]
  cases hr : r (m.calling frame) with
  | mk o n =>
      cases hr' : r' (m'.calling (frame.rename δ.shifted)) with
      | mk o' n' =>
          rw [hr, hr'] at hresult hmachines
          cases o with
          | ok a =>
              obtain rfl : o' = .ok (f a) := hresult
              refine ⟨rfl, { hmachines with
                frames_eq := ?_, activeFrames_eq := hm.activeFrames_eq }⟩
              dsimp only at hmachines ⊢
              rw [hmachines.frames_eq, hm.activeFrames_eq, List.map_take]
          | failed x =>
              obtain rfl : o' = .failed x := hresult
              exact ⟨rfl, { hmachines with activeFrames_eq := hm.activeFrames_eq }⟩
          | unfinished =>
              obtain rfl : o' = .unfinished := hresult
              exact ⟨rfl, { hmachines with activeFrames_eq := hm.activeFrames_eq }⟩

theorem evaluation (h : δ.Runs f r r') (scope : Option Nat) :
    δ.Runs f (Run.evaluation scope r) (Run.evaluation (scope.map δ.place) r') := by
  intro m m' hm
  have hevaluating : δ.Machines (m.evaluating scope) (m'.evaluating (scope.map δ.place)) :=
    { hm with
      frames_eq := by
        simp only [Machine.evaluating, hm.depth_eq, hm.frames_eq]
        split <;> rfl
      scope_eq := by cases scope <;> simp [Machine.evaluating, hm.scope_eq]
      depth_eq := congrArg (· + 1) hm.depth_eq }
  obtain ⟨hresult, hmachines⟩ := h _ _ hevaluating
  rw [Run.evaluation_eq, Run.evaluation_eq]
  refine ⟨hresult, { hmachines with scope_eq := hm.scope_eq, depth_eq := ?_ }⟩
  exact congrArg (· - 1) hmachines.depth_eq

theorem inChild (h : δ.Runs f r r') : δ.Runs f (Run.inChild r) (Run.inChild r') := by
  intro m m' hm
  have hadd := hm.scopes.add (some m.scope)
  rw [Option.map_some, ← hm.scope_eq] at hadd
  have hopening : δ.Machines m.opening m'.opening :=
    { hm with scopes := hadd.2, scope_eq := hadd.1 }
  obtain ⟨hresult, hmachines⟩ := h _ _ hopening
  rw [Run.inChild_eq, Run.inChild_eq]
  exact ⟨hresult, { hmachines with scope_eq := hm.scope_eq }⟩

theorem recover {k k' : Failure → Run α} (h : δ.Runs f r r') (hk : ∀ x, δ.Runs f (k x) (k' x)) :
    δ.Runs f (Run.recover r k) (Run.recover r' k') := by
  intro m m' hm
  obtain ⟨hresult, hmachines⟩ := h m m' hm
  unfold Run.recover
  cases hr : r m with
  | mk o n =>
      cases hr' : r' m' with
      | mk o' n' =>
          rw [hr, hr'] at hresult hmachines
          cases o with
          | ok a =>
              obtain rfl : o' = .ok (f a) := hresult
              exact ⟨rfl, hmachines⟩
          | unfinished =>
              obtain rfl : o' = .unfinished := hresult
              exact ⟨rfl, hmachines⟩
          | failed x =>
              obtain rfl : o' = .failed x := hresult
              dsimp only
              split
              · exact hk x n n' hmachines
              · exact ⟨rfl, hmachines⟩

theorem addScope (parent : Option Nat) (bindings : List (String × Value)) :
    δ.Runs δ.place (Run.addScope parent bindings)
      (Run.addScope (parent.map δ.place) (δ.names bindings)) := by
  intro m m' hm
  obtain ⟨hplace, htrees⟩ := hm.scopes.add parent
  have hbound : ∀ i : Nat, δ.Runs δ.place
      (Run.mapAll (fun b : String × Value => Run.bindAt i b.1 b.2) bindings >>= fun _ => Run.pure i)
      (Run.mapAll (fun b : String × Value => Run.bindAt (δ.place i) b.1 b.2) (δ.names bindings) >>=
        fun _ => Run.pure (δ.place i)) := by
    intro i
    exact Runs.bind (bindAll (bindAt i) bindings) fun _ => pure i
  have hadded := hbound (m.scopes.add parent).1
  rw [← hplace] at hadded
  exact hadded _ _ { hm with scopes := htrees }

theorem scopeOf (r : ScopeRef) :
    δ.Runs (Option.map δ.place) (Run.scopeOf r) (Run.scopeOf (r.rename δ.shifted)) := by
  induction r with
  | absent => exact pure none
  | here => exact fun m m' h => ⟨congrArg (fun i => Outcome.ok (some i)) h.scope_eq, h⟩
  | parent r ih =>
      rw [ScopeRef.rename, Run.scopeOf, Run.scopeOf]
      refine ih.bind fun found => ?_
      cases found with
      | none => exact fail _
      | some i => exact fun m m' h => ⟨congrArg Outcome.ok (h.scopes.parent?_eq i), h⟩
  | child r bindings ih =>
      rw [ScopeRef.rename, Run.scopeOf, Run.scopeOf]
      exact ih.bind fun parent => (addScope parent bindings).bind fun i => pure (some i)

end Runs

end Drift

end HostedLisp
