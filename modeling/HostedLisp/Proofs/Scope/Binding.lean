import HostedLisp.Host.Sample
import HostedLisp.Proofs.Scope.Resolution
import HostedLisp.Script

namespace HostedLisp

namespace Value

theorem isNull_iff {v : Value} : v.isNull = true ↔ v = .null := by
  cases v <;> simp [isNull]

theorem type_place (v : Value) (next : Identity) : (v.place next).1.type = v.type := by
  cases v with
  | list id items =>
      rw [place]
      by_cases hid : id = 0 <;> simp [hid, type]
  | object id className attributes =>
      rw [place]
      by_cases hid : id = 0 <;> simp [hid, type]
  | _ => rfl

end Value

section Operations

variable [HostClasses]

/-- Whether a value can be held under a declared type: null under every one, and anything if there
is none. -/
def Value.Fits (declared : Option ValueType) (v : Value) : Prop :=
  v = .null ∨ ∀ t ∈ declared, v.isInstance? t = .ok true

/-- Whether a binding holds null or a value of its declared type. -/
def Binding.Typed (b : Binding) : Prop := b.value.Fits b.declared

/-- Whether a value can be bound as a name. -/
def Value.IsName (v : Value) : Prop := ∃ text, v = .str text ∧ text ≠ ""

namespace Value

theorem fits_adopt_iff {s : Store} {declared : Option ValueType} {v : Value} :
    (s.adopt v).1.Fits declared ↔ v.Fits declared := by
  have htype : (s.adopt v).1.type = v.type := v.type_place s.nextIdentity
  have hinstance : ∀ t, (s.adopt v).1.isInstance? t = v.isInstance? t := by
    intro t
    cases t <;> simp only [isInstance?, isOf, htype]
  have hnull : (s.adopt v).1 = .null ↔ v = .null := by
    rw [Store.adopt]
    cases v <;> simp [place]
    all_goals split <;> simp
  simp only [Fits, hnull, hinstance]

end Value

namespace Binding

variable {name value : Value} {declared : Option ValueType}

theorem suits?_eq_ok_iff {t : ValueType} : value.suits? t = .ok true ↔ value.Fits (some t) := by
  rw [Value.suits?, Value.Fits, ← Value.isNull_iff]
  by_cases hnull : value.isNull = true
  · simp [hnull]
  · simp [hnull]

theorem forall_suits?_iff (declared : Option ValueType) (value : Value) :
    (∀ t ∈ declared, value.suits? t = .ok true) ↔ value.Fits declared := by
  cases declared with
  | none => exact ⟨fun _ => .inr nofun, fun _ => nofun⟩
  | some t =>
      rw [← suits?_eq_ok_iff]
      exact ⟨fun h => h t rfl, fun h => by rintro _ ⟨⟩; exact h⟩

theorem of?_of_fits {text : String} (htext : text ≠ "") (hvalue : value.Fits declared) :
    of? (.str text) declared value = .ok ⟨text, declared, value⟩ :=
  of?_eq_ok_iff.mpr ⟨text, rfl, htext, (forall_suits?_iff declared value).mpr hvalue, rfl⟩

theorem of?_of_not_fits (h : ¬ (name.IsName ∧ value.Fits declared)) :
    ∃ f, of? name declared value = .error f := by
  cases hbound : of? name declared value with
  | error f => exact ⟨f, rfl⟩
  | ok b =>
      obtain ⟨text, rfl, htext, hvalue, -⟩ := of?_eq_ok_iff.mp hbound
      exact absurd ⟨⟨text, rfl, htext⟩, (forall_suits?_iff declared value).mp hvalue⟩ h

end Binding

theorem Machine.bindIn_eq (place : Nat) (name : Value) (declared : Option ValueType) (v : Value)
    (m : Machine) :
    bindIn place name declared v m =
      match Binding.of? name declared (m.store.adopt v).1 with
      | .ok b =>
          (.ok b, { m with scopes := m.scopes.insert place b, store := (m.store.adopt v).2 })
      | .error f => (.failed f, { m with store := (m.store.adopt v).2 }) := by
  unfold bindIn Scopes.bind
  dsimp only
  cases Binding.of? name declared (m.store.adopt v).1 <;> rfl

/-- What is done to scopes from outside of evaluations: a scope is opened, or a name is bound. -/
inductive Operation where
  | push (parent : Option Nat)
  | bind (place : Nat) (name : Value) (declared : Option ValueType) (value : Value)

namespace Operation

/-- Binds a name to a value of whatever type. -/
def assign (place : Nat) (name value : Value) : Operation := bind place name none value

def run : Operation → Run (Option Binding)
  | push parent => do
      let _ ← Run.addScope parent []
      return none
  | bind place name declared value => do
      return some (← Machine.bindIn place name declared value)

/-- Whether the scopes that an operation is about exist. -/
def Placed (s : Scopes) : Operation → Prop
  | push parent => ∀ i ∈ parent, i < s.all.length
  | bind place .. => place < s.all.length

/-- The storage that an operation makes, with the place of its scope. -/
def made? (m : Machine) : Operation → Option (Nat × Binding)
  | push _ => none
  | bind place name declared value =>
      match (Machine.bindIn place name declared value m).1 with
      | .ok b => some (place, b)
      | _ => none

variable (m : Machine) (place : Nat) {name value : Value} {declared : Option ValueType}

theorem run_bind_of_fits {text : String} (htext : text ≠ "") (hvalue : value.Fits declared) :
    let b : Binding := ⟨text, declared, (m.store.adopt value).1⟩
    (bind place (.str text) declared value).made? m = some (place, b) ∧
      (bind place (.str text) declared value).run m = (.ok (some b),
        { m with scopes := m.scopes.insert place b, store := (m.store.adopt value).2 }) := by
  intro b
  have hbind : Machine.bindIn place (.str text) declared value m = (.ok b,
      { m with scopes := m.scopes.insert place b, store := (m.store.adopt value).2 }) := by
    rw [Machine.bindIn_eq, Binding.of?_of_fits htext (Value.fits_adopt_iff.mpr hvalue)]
  refine ⟨?_, ?_⟩
  · rw [made?, hbind]
  · change Run.bind (Machine.bindIn place (.str text) declared value) _ m = _
    rw [Run.bind, hbind]
    rfl

theorem run_bind_of_not_fits (h : ¬ (name.IsName ∧ value.Fits declared)) :
    (bind place name declared value).made? m = none ∧
      ∃ f, (bind place name declared value).run m =
        (.failed f, { m with store := (m.store.adopt value).2 }) := by
  have hadopted : ¬ (name.IsName ∧ (m.store.adopt value).1.Fits declared) := by
    rwa [Value.fits_adopt_iff]
  obtain ⟨f, hf⟩ := Binding.of?_of_not_fits hadopted
  have hbind : Machine.bindIn place name declared value m =
      (.failed f, { m with store := (m.store.adopt value).2 }) := by
    rw [Machine.bindIn_eq, hf]
  refine ⟨?_, f, ?_⟩
  · rw [made?, hbind]
  · change Run.bind (Machine.bindIn place name declared value) _ m = _
    rw [Run.bind, hbind]

/-- All that an operation can do to scopes: it leaves them, opens one, or adds what it makes. -/
theorem step_cases (op : Operation) (m : Machine) :
    (op.made? m = none ∧ ((op.run m).2.scopes = m.scopes ∨
        ∃ parent, (op.run m).2.scopes = (m.scopes.add parent).2)) ∨
      ∃ i b, op.made? m = some (i, b) ∧ b.Typed ∧ (op.Placed m.scopes → i < m.scopes.all.length) ∧
        (op.run m).2.scopes = m.scopes.insert i b := by
  cases op with
  | push parent => exact .inl ⟨rfl, .inr ⟨parent, rfl⟩⟩
  | bind place name declared value =>
      by_cases hgood : name.IsName ∧ value.Fits declared
      · obtain ⟨⟨text, rfl, htext⟩, hvalue⟩ := hgood
        obtain ⟨hmade, hrun⟩ := run_bind_of_fits m place htext hvalue
        exact .inr ⟨place, _, hmade, Value.fits_adopt_iff.mpr hvalue, id, by rw [hrun]⟩
      · obtain ⟨hmade, f, hrun⟩ := run_bind_of_not_fits m place hgood
        exact .inl ⟨hmade, .inl (by rw [hrun])⟩

end Operation

end Operations

theorem find?_eq_of_ne {α : Type} {p q : α → Bool} {a : α} {l : List α}
    (hother : ∀ x, x ≠ a → q x = p x) (ha : q a = true) (hne : l.find? q ≠ some a) :
    l.find? q = l.find? p := by
  induction l with
  | nil => rfl
  | cons x rest ih =>
      have hx : x ≠ a := by
        rintro rfl
        exact hne (by rw [List.find?_cons, ha])
      rw [List.find?_cons, hother x hx] at hne
      rw [List.find?_cons, List.find?_cons, hother x hx]
      cases hpx : p x with
      | true => rfl
      | false =>
          rw [hpx] at hne
          exact ih hne

namespace Scopes

variable {s : Scopes} {i : Nat} {b : Binding}

theorem path_insert (s : Scopes) (i : Nat) (b : Binding) (c : Nat) :
    (s.insert i b).path c = s.path c := by
  by_cases hc : c < s.all.length
  · exact path_of_keeps (s.keeps_insert i b) hc
  · have hlength := s.length_insert i b
    rw [path, path, List.getElem?_eq_none (by omega), List.getElem?_eq_none (by omega)]
    rfl

theorem find?_own_insert (hi : i < s.all.length) (b : Binding) (j : Nat) (name : String) :
    ((s.insert i b).own j).find? name =
      if i = j ∧ b.name = name then some b else (s.own j).find? name := by
  by_cases hj : j = i
  · subst hj
    rw [own_insert_self hi, Bindings.find?_insert]
    simp [eq_comm]
  · rw [own_insert_of_ne hj, if_neg fun h => hj h.1.symm]

theorem owner?_insert (hi : i < s.all.length) {c : Nat} {name : String}
    (h : ¬ (name = b.name ∧ (s.insert i b).owner? c name = some i)) :
    (s.insert i b).owner? c name = s.owner? c name := by
  rw [owner?, path_insert] at h ⊢
  rw [owner?]
  by_cases hname : name = b.name
  · refine find?_eq_of_ne (a := i) (fun j hj => ?_) ?_ fun howner => h ⟨hname, howner⟩
    · rw [own_insert_of_ne hj]
    · rw [find?_own_insert hi, if_pos ⟨rfl, hname.symm⟩]
      rfl
  · congr 1
    funext j
    rw [find?_own_insert hi, if_neg fun h => hname h.2.symm]

theorem owner?_insert_self (hi : i < s.all.length) (b : Binding) :
    (s.insert i b).owner? i b.name = some i := by
  obtain ⟨outer, houter, -⟩ := (s.insert i b).exists_path_eq_cons i
  rw [owner?, houter, List.find?_cons, find?_own_insert hi, if_pos ⟨rfl, rfl⟩]
  rfl

theorem names_own_insert (hi : i < s.all.length) (b : Binding) (j : Nat) :
    ((s.insert i b).own j).names =
      if j = i ∧ b.name ∉ (s.own j).names then (s.own j).names ++ [b.name]
      else (s.own j).names := by
  by_cases hj : j = i
  · subst hj
    rw [own_insert_self hi, Bindings.names_insert]
    by_cases hmem : b.name ∈ (s.own j).names <;> simp [hmem]
  · rw [own_insert_of_ne hj, if_neg fun h => hj h.1]

end Scopes

/-- Operations in the order in which they were done, the latest first. -/
abbrev History := List Operation

namespace History

section Storages

variable [HostClasses]

/-- The state that operations lead to. -/
def state : History → Machine
  | [] => .initial
  | op :: earlier => (op.run (state earlier)).2

/-- Whether every operation is about scopes that exist. -/
def Placed : History → Prop
  | [] => True
  | op :: earlier => op.Placed (state earlier).scopes ∧ Placed earlier

/-- The storage that the scope at a place has for a name: the number of the operation that made it,
by which storages with equal contents are told apart, and the contents. -/
def storage? (place : Nat) (name : String) : History → Option (Nat × Binding)
  | [] => none
  | op :: earlier =>
      match op.made? (state earlier) with
      | some (i, b) =>
          if i = place ∧ b.name = name then some (earlier.length, b)
          else storage? place name earlier
      | none => storage? place name earlier

/-- The storage that looking up a name in the scope at a place ends at. -/
def found? (h : History) (place : Nat) (name : String) : Option (Nat × Binding) :=
  (h.state.scopes.owner? place name).bind fun j => h.storage? j name

variable {h : History} {place j c : Nat} {name : String} {op : Operation} {b : Binding}

theorem storage?_of_not_made (hmade : op.made? h.state = none) (j : Nat) (name : String) :
    storage? j name (op :: h) = h.storage? j name := by
  rw [storage?, hmade]

theorem storage?_of_made (hmade : op.made? h.state = some (place, b)) (j : Nat) (name : String) :
    storage? j name (op :: h) =
      if place = j ∧ b.name = name then some (h.length, b) else h.storage? j name := by
  rw [storage?, hmade]

theorem lt_length_of_storage? {number : Nat} (hstorage : h.storage? j name = some (number, b)) :
    number < h.length := by
  induction h with
  | nil => cases hstorage
  | cons op earlier ih =>
      rw [List.length_cons]
      rw [storage?] at hstorage
      split at hstorage
      · split at hstorage
        · cases hstorage
          exact Nat.lt_succ_self _
        · exact Nat.lt_succ_of_lt (ih hstorage)
      · exact Nat.lt_succ_of_lt (ih hstorage)

theorem distinct_state (h : History) : h.state.scopes.Distinct := by
  induction h with
  | nil => exact Scopes.distinct_initial
  | cons op earlier ih =>
      change (op.run (state earlier)).2.scopes.Distinct
      rcases op.step_cases (state earlier) with
        ⟨-, hscopes | ⟨p, hscopes⟩⟩ | ⟨i, b, -, -, -, hscopes⟩
      · rwa [hscopes]
      · rw [hscopes]
        exact ih.add p
      · rw [hscopes]
        exact ih.insert i b

theorem typed_state (h : History) (j : Nat) : ∀ b ∈ h.state.scopes.own j, b.Typed := by
  induction h with
  | nil =>
      intro b hb
      cases j <;> cases hb
  | cons op earlier ih =>
      change ∀ b ∈ (op.run (state earlier)).2.scopes.own j, b.Typed
      rcases op.step_cases (state earlier) with
        ⟨-, hscopes | ⟨p, hscopes⟩⟩ | ⟨i, b, -, htyped, -, hscopes⟩
      · rwa [hscopes]
      · rwa [hscopes, Scopes.own_add]
      · rw [hscopes]
        intro d hd
        rcases (state earlier).scopes.own_insert i b j with hown | hown
        · rw [hown] at hd
          rcases Bindings.mem_insert hd with rfl | hd
          · exact htyped
          · exact ih d hd
        · exact ih d (hown ▸ hd)

theorem find?_own_state (hplaced : h.Placed) (j : Nat) (name : String) :
    (h.state.scopes.own j).find? name = (h.storage? j name).map Prod.snd := by
  induction h with
  | nil => cases j <;> rfl
  | cons op earlier ih =>
      obtain ⟨hop, hearlier⟩ := hplaced
      change ((op.run (state earlier)).2.scopes.own j).find? name = _
      rcases op.step_cases (state earlier) with
        ⟨hmade, hscopes | ⟨p, hscopes⟩⟩ | ⟨i, b, hmade, -, hi, hscopes⟩
      · rw [hscopes, storage?_of_not_made hmade, ih hearlier]
      · rw [hscopes, Scopes.own_add, storage?_of_not_made hmade, ih hearlier]
      · rw [hscopes, Scopes.find?_own_insert (hi hop), storage?_of_made hmade, ih hearlier]
        split <;> rfl

theorem lookup?_state (hplaced : h.Placed) (c : Nat) (name : String) :
    (h.state.scopes.chain c).lookup? name = (h.found? c name).map Prod.snd := by
  rw [Scopes.lookup?_chain, found?, Option.map_bind]
  congr 1
  funext j
  exact find?_own_state hplaced j name

/-- Whether scopes and lists and objects are after some operations what they were before. -/
structure Unchanged (h h' : History) : Prop where
  scopes : h'.state.scopes = h.state.scopes
  changes : h'.state.store.changes = h.state.store.changes
  found : ∀ c name, h'.found? c name = h.found? c name

/-- Whether an operation after others does nothing but bind `b` in the scope at a place: the new
storage is found from the scopes that have no nearer one for the name, and from nowhere else. -/
structure Binds (h h' : History) (place : Nat) (b : Binding) : Prop where
  here : h'.state.scopes.owner? place b.name = some place
  found_ne_iff : ∀ c name, h'.found? c name ≠ h.found? c name ↔
    name = b.name ∧ h'.state.scopes.owner? c name = some place
  new : ∀ c, h'.state.scopes.owner? c b.name = some place →
    h'.found? c b.name = some (h.length, b) ∧ h'.state.scopes.lookup c b.name = .ok b ∧
      ∀ v, (b.name, v) ∈ (h'.state.scopes.chain c).flatten ↔ v = b.value
  kept : ∀ c name, ¬ (name = b.name ∧ h'.state.scopes.owner? c name = some place) →
    h'.state.scopes.lookup c name = h.state.scopes.lookup c name ∧
      ∀ v, (name, v) ∈ (h'.state.scopes.chain c).flatten ↔
        (name, v) ∈ (h.state.scopes.chain c).flatten
  names : ∀ j, (h'.state.scopes.own j).names =
    if j = place ∧ b.name ∉ (h.state.scopes.own j).names then
      (h.state.scopes.own j).names ++ [b.name]
    else (h.state.scopes.own j).names

theorem found?_of_not_made (hmade : op.made? h.state = none)
    (hscopes : (op.run h.state).2.scopes = h.state.scopes) (c : Nat) (name : String) :
    found? (op :: h) c name = h.found? c name := by
  change ((op.run h.state).2.scopes.owner? c name).bind _ = _
  rw [hscopes]
  congr 1
  funext j
  exact storage?_of_not_made hmade j name

section Made

variable (hplaced : h.Placed) (hplace : place < h.state.scopes.all.length)
  (hmade : op.made? h.state = some (place, b))
  (hscopes : (state (op :: h)).scopes = h.state.scopes.insert place b)
include hmade

theorem found?_of_owner (howner : (state (op :: h)).scopes.owner? c b.name = some place) :
    found? (op :: h) c b.name = some (h.length, b) := by
  rw [found?, howner]
  exact (storage?_of_made hmade place b.name).trans (if_pos ⟨rfl, rfl⟩)

theorem found?_ne_of_owner (howner : (state (op :: h)).scopes.owner? c b.name = some place) :
    found? (op :: h) c b.name ≠ h.found? c b.name := by
  rw [found?_of_owner hmade howner]
  intro heq
  obtain ⟨j, -, hstorage⟩ := Option.bind_eq_some_iff.mp heq.symm
  exact Nat.lt_irrefl _ (lt_length_of_storage? hstorage)

include hplace hscopes

theorem found?_of_not_owner
    (h' : ¬ (name = b.name ∧ (state (op :: h)).scopes.owner? c name = some place)) :
    found? (op :: h) c name = h.found? c name := by
  have howner : (state (op :: h)).scopes.owner? c name = h.state.scopes.owner? c name := by
    rw [hscopes] at h' ⊢
    exact Scopes.owner?_insert hplace h'
  rw [found?, found?, ← howner]
  cases hj : (state (op :: h)).scopes.owner? c name with
  | none => rfl
  | some j =>
      refine (storage?_of_made hmade j name).trans (if_neg ?_)
      rintro ⟨rfl, rfl⟩
      exact h' ⟨rfl, hj⟩

include hplaced

theorem binds_of_made (hop : op.Placed h.state.scopes) : Binds h (op :: h) place b := by
  have hplaced' : Placed (op :: h) := ⟨hop, hplaced⟩
  have hflat : ∀ (g : History) (c : Nat) (name : String) (v : Value),
      (name, v) ∈ (g.state.scopes.chain c).flatten ↔
        ∃ b, (g.state.scopes.chain c).lookup? name = some b ∧ b.value = v := fun g c name v =>
    Chain.mem_flatten_iff fun bs hbs => g.distinct_state.nodup_of_mem_chain hbs
  refine ⟨?here, ?found, ?new, ?kept, ?names⟩
  case here =>
    rw [hscopes]
    exact Scopes.owner?_insert_self hplace b
  case found =>
    intro c name
    constructor
    · intro hne
      by_contra h'
      exact hne (found?_of_not_owner hplace hmade hscopes h')
    · rintro ⟨rfl, howner⟩
      exact found?_ne_of_owner hmade howner
  case new =>
    intro c howner
    have hfound := found?_of_owner hmade howner
    have hlookup : ((state (op :: h)).scopes.chain c).lookup? b.name = some b := by
      rw [lookup?_state hplaced', hfound]
      rfl
    refine ⟨hfound, by rw [Scopes.lookup, hlookup], fun v => ?_⟩
    rw [hflat, hlookup]
    simp [eq_comm]
  case kept =>
    intro c name h'
    have hlookup : ((state (op :: h)).scopes.chain c).lookup? name =
        (h.state.scopes.chain c).lookup? name := by
      rw [lookup?_state hplaced', lookup?_state hplaced,
        found?_of_not_owner hplace hmade hscopes h']
    refine ⟨by rw [Scopes.lookup, Scopes.lookup, hlookup], fun v => ?_⟩
    rw [hflat, hflat, hlookup]
  case names =>
    intro j
    rw [hscopes]
    exact Scopes.names_own_insert hplace b j

end Made

/-- After any operations on scopes that exist, every storage holds null or a value of its declared
type, and binding a name in one of the scopes succeeds if the name is one and the value fits the
type. Then it binds that name there and does nothing else; otherwise it changes nothing. -/
theorem bind_atomic_typed_local (h : History) (hplaced : h.Placed) :
    (∀ j, ∀ b ∈ h.state.scopes.own j, b.Typed) ∧
      (∀ c name, (h.state.scopes.chain c).lookup? name = (h.found? c name).map Prod.snd) ∧
      ∀ place name declared value, place < h.state.scopes.all.length →
        let op : Operation := .bind place name declared value
        (name.IsName ∧ value.Fits declared → ∃ b, (op.run h.state).1 = .ok (some b) ∧
          name = .str b.name ∧ b.declared = declared ∧ b.value = (h.state.store.adopt value).1 ∧
          Binds h (op :: h) place b) ∧
        (¬ (name.IsName ∧ value.Fits declared) →
          ∃ f, (op.run h.state).1 = .failed f ∧ Unchanged h (op :: h)) := by
  refine ⟨h.typed_state, fun c name => lookup?_state hplaced c name, ?_⟩
  intro place name declared value hplace op
  constructor
  · rintro ⟨⟨text, rfl, htext⟩, hvalue⟩
    obtain ⟨hmade, hrun⟩ := Operation.run_bind_of_fits h.state place htext hvalue
    let b : Binding := ⟨text, declared, (h.state.store.adopt value).1⟩
    have hscopes : (state (op :: h)).scopes = h.state.scopes.insert place b := by
      rw [state, hrun]
    exact ⟨b, by rw [hrun], rfl, rfl, rfl, binds_of_made hplaced hplace hmade hscopes hplace⟩
  · intro hbad
    obtain ⟨hmade, f, hrun⟩ := Operation.run_bind_of_not_fits h.state place hbad
    have hstate : state (op :: h) =
        { h.state with store := (h.state.store.adopt value).2 } := by rw [state, hrun]
    refine ⟨f, by rw [hrun], by rw [hstate], by rw [hstate]; rfl, fun c n => ?_⟩
    exact found?_of_not_made hmade (by rw [hrun]) c n

end Storages

open scoped Sample

/-- A name of the root that one of two children hides: binding it again is seen from the other
child, and a value of another type is refused. -/
theorem bind_atomic_typed_local_of_siblings :
    let x : Value := .str "x"
    let h : History := [.bind 1 x (some .str) .null, .push (some 0), .push (some 0),
      .assign 0 x (.int 1)]
    let again : Operation := .bind 0 x (some .int) (.int 7)
    let refused : Operation := .bind 0 x (some .str) (.int 7)
    (state (again :: h)).scopes.lookup 2 "x" = .ok ⟨"x", some .int, .int 7⟩ ∧
      found? (again :: h) 2 "x" ≠ h.found? 2 "x" ∧
      (state (again :: h)).scopes.lookup 1 "x" = h.state.scopes.lookup 1 "x" ∧
      ∃ f, (refused.run h.state).1 = .failed f ∧ Unchanged h (refused :: h) := by
  intro x h again refused
  have hscopes : (state (again :: h)).scopes = ⟨[⟨none, [⟨"x", some .int, .int 7⟩]⟩,
      ⟨some 0, [⟨"x", some .str, .null⟩]⟩, ⟨some 0, []⟩]⟩ := rfl
  have hplaced : h.Placed := by
    refine ⟨show 1 < 3 by decide, ?_, ?_, show 0 < 1 by decide, trivial⟩
    · rintro i ⟨⟩
      exact show 0 < 2 by decide
    · rintro i ⟨⟩
      exact show 0 < 1 by decide
  have hinherits : (state (again :: h)).scopes.owner? 2 "x" = some 0 := by
    rw [hscopes]
    simp [Scopes.owner?, Scopes.path, Scopes.own, Bindings.find?]
  have hhides : (state (again :: h)).scopes.owner? 1 "x" = some 1 := by
    rw [hscopes]
    simp [Scopes.owner?, Scopes.path, Scopes.own, Bindings.find?]
  obtain ⟨-, -, hbind⟩ := bind_atomic_typed_local h hplaced
  have hname : x.IsName := ⟨"x", rfl, by decide⟩
  obtain ⟨hgood, -⟩ := hbind 0 x (some .int) (.int 7) (show 0 < 3 by decide)
  obtain ⟨-, hbad⟩ := hbind 0 x (some .str) (.int 7) (show 0 < 3 by decide)
  have hfits : (Value.int 7).Fits (some .int) := .inr (by rintro t ⟨⟩; rfl)
  obtain ⟨⟨n, t, v⟩, -, hn, rfl, rfl, hbinds⟩ := hgood ⟨hname, hfits⟩
  obtain rfl : "x" = n := Value.str.inj hn
  have hmisfit : ¬ (Value.int 7).Fits (some .str) := by
    rintro (hnull | hstr)
    · cases hnull
    · exact absurd (hstr .str rfl) (by decide)
  refine ⟨(hbinds.new 2 hinherits).2.1, (hbinds.found_ne_iff 2 "x").mpr ⟨rfl, hinherits⟩,
    (hbinds.kept 1 "x" ?_).1, hbad fun h => hmisfit h.2⟩
  rw [hhides]
  simp

end History

end HostedLisp
