import HostedLisp.Host.Reflection
import HostedLisp.Host.Sample
import HostedLisp.Proofs.Primitive.Keeping

/-!
The attributes that a host of reflection reaches for a script. Main statements: their names are
public except for those of types at paths that begin with a module, and a strict host hands out
nothing but marked methods and properties.
-/

namespace HostedLisp

/-- The name of the attribute that an access reads or writes. -/
def Event.attributeName? : Event → Option String
  | .attributeRead name => some name
  | .attributeWritten name => some name
  | .typeRead path => path.getLast?
  | _ => none

namespace Memory

/-- Nothing was recorded. -/
def SameRecord (m m' : Memory) : Prop := m'.store.events = m.store.events

/-- Nothing was recorded but events of a kind. -/
def Adds (P : Event → Prop) (m m' : Memory) : Prop :=
  ∃ new, m'.store.events = m.store.events ++ new ∧ ∀ e ∈ new, P e

theorem preordered_sameRecord : Preordered SameRecord where
  refl _ := rfl
  trans h h' := h'.trans h

theorem SameRecord.adds {P : Event → Prop} {m m' : Memory} (h : m.SameRecord m') : m.Adds P m' :=
  ⟨[], h.trans (List.append_nil _).symm, nofun⟩

theorem conserved_adds {P : Event → Prop} (hP : ∀ v, P (.noted v)) : Conserved (Adds P) where
  refl _ := ⟨[], (List.append_nil _).symm, nofun⟩
  trans h h' := by
    obtain ⟨new, hnew, hP⟩ := h
    obtain ⟨new', hnew', hP'⟩ := h'
    refine ⟨new ++ new', ?_, List.forall_mem_append.mpr ⟨hP, hP'⟩⟩
    rw [hnew', hnew, List.append_assoc]
  adopt _ _ _ := SameRecord.adds rfl
  note v _ _ := ⟨[.noted v], rfl, List.forall_mem_singleton.mpr (hP v)⟩

end Memory

open Memory

theorem Effect.Conserves.adds {α : Type} {P : Event → Prop} {e : Effect α}
    (h : e.Conserves SameRecord) : e.Conserves (Adds P) :=
  fun t s => (h t s).adds

theorem Effect.conserves_record {P : Event → Prop} {e : Event} (h : P e) :
    (Effect.modify fun s => s.record e).Conserves (Adds P) :=
  fun _ _ => ⟨[e], rfl, List.forall_mem_singleton.mpr h⟩

namespace Reflection

/-- Whether the last part of a path is taken for a type in a module: modules may be imported, the
path is neither registered nor a module, and the parts before the last one are the path of a
module. -/
structure NamesType (r : Reflection) (path : List String) : Prop where
  allowImports : r.allowImports = true
  length : 2 ≤ path.length
  unregistered : findAttribute? (Node.dotted path) r.types = none
  noModule : r.importModule (Node.dotted path) = .ok none
  inModule : ∃ m, r.importModule (Node.dotted path.dropLast) = .ok (some m)

/-- Whether an event is no access to a private attribute of a value, nor to an attribute of a module
unless it is taken for a type. -/
def Allows (r : Reflection) : Event → Prop
  | .attributeRead name => isPublic name = true
  | .attributeWritten name => isPublic name = true
  | .typeRead path => r.NamesType path
  | _ => True

/-- Whether a member is one that the host may hand out: of a public name, and a property that is
data, or a method, which is a marked one if the host is strict. -/
def Shows (r : Reflection) (s : Store) (target : Value) (name : String) (m : Member) : Prop :=
  isPublic name = true ∧ m.target = target ∧ m.name = name ∧
    ((r.catalogue.attribute? s target name = some .data ∧ m.isProperty = true) ∨
      ∃ signature marked, r.catalogue.attribute? s target name = some (.method signature marked) ∧
        (r.strict = true → marked = true) ∧ m.isProperty = false)

section Resolution

variable {r : Reflection}

theorem conserved (r : Reflection) : Conserved (Adds r.Allows) := conserved_adds fun _ => trivial

theorem conserves_reach {P : Event → Prop} {access : Event} (h : P access) (target : Value)
    (name : String) : (r.reach access target name).Conserves (Adds P) := by
  intro t s
  exact Effect.conserves_record h t s

theorem conserves_resolveType (hcatalogue : r.catalogue.Conserves SameRecord)
    (path : List String) : (r.resolveType path).Conserves (Adds r.Allows) := by
  have hpre := r.conserved.toPreordered
  unfold resolveType
  split
  · exact .pure hpre none
  · exact .bind hpre (.settle hpre _) fun v => .pure hpre (some v)
  · rename_i hregistered
    split
    · exact .pure hpre none
    · rename_i himports
      refine .ofExcept_bind hpre fun found hfound => ?_
      cases found with
      | some m => exact .pure hpre (some m)
      | none =>
          dsimp only
          split
          · exact .pure hpre none
          · rename_i hlength
            refine .ofExcept_bind hpre fun found hmodule => ?_
            cases found with
            | none => exact .pure hpre none
            | some m =>
                -- Only here a name is not checked: a type is read off its module by any name.
                have htype : r.NamesType path :=
                  ⟨by simpa using himports, by omega, hregistered, hfound, m, hmodule⟩
                have hallowed : r.Allows (.typeRead path) := htype
                refine .bind hpre (conserves_reach hallowed m _) ?_
                intro reached
                cases reached with
                | none => exact .pure hpre none
                | some _ =>
                    exact .bind hpre (hcatalogue.read m _).adds fun v => .pure hpre (some v)

theorem conserves_call (hcatalogue : r.catalogue.Conserves SameRecord) (m : Member)
    (h : isPublic m.name = true) (arguments : List Value) :
    (r.call m arguments).Conserves (Adds r.Allows) := by
  have hpre := r.conserved.toPreordered
  have hread : (Effect.modify fun s => s.record (.attributeRead m.name)).Conserves
      (Adds r.Allows) := Effect.conserves_record h
  have hwritten : (Effect.modify fun s => s.record (.attributeWritten m.name)).Conserves
      (Adds r.Allows) := Effect.conserves_record h
  unfold call
  split
  · unfold callProperty
    split
    · exact .bind hpre hread fun _ => (hcatalogue.read _ _).adds
    · refine .bind hpre hwritten fun _ => .bind hpre (hcatalogue.write _ _ _).adds fun _ => ?_
      exact .pure hpre _
    · exact .fail hpre _
  · exact (hcatalogue.call _ _ _).adds

variable [HostClasses]

theorem conserves_resolveMember (target : Value) (name : String)
    (types : Option (List ValueType)) :
    (r.resolveMember target name types).Conserves (Adds r.Allows) := by
  have hpre := r.conserved.toPreordered
  unfold resolveMember
  split
  · exact .pure hpre none
  · rename_i hname
    have hpublic : isPublic name = true := by simpa using hname
    have hallowed : r.Allows (.attributeRead name) := hpublic
    refine .bind hpre (conserves_reach hallowed target name) ?_
    intro reached
    split
    · exact .pure hpre none
    · exact .pure hpre _
    · split
      · exact .pure hpre none
      · split
        · exact .pure hpre _
        · exact .ofExcept_bind hpre fun accepted _ => .pure hpre _

theorem shows_of_resolveMember {target : Value} {name : String} {types : Option (List ValueType)}
    {s : Store} {m : Member} (h : (r.resolveMember target name types s).1 = .ok (some m)) :
    r.Shows (s.record (.attributeRead name)) target name m := by
  have hreach : r.reach (.attributeRead name) target name s =
      (.ok (r.catalogue.attribute? (s.record (.attributeRead name)) target name),
        s.record (.attributeRead name)) := rfl
  unfold resolveMember at h
  cases hpublic : isPublic name with
  | false =>
      rw [hpublic] at h
      cases h
  | true =>
      rw [hpublic] at h
      change (Effect.bind (r.reach (.attributeRead name) target name) _ s).1 = _ at h
      rw [Effect.bind, hreach] at h
      dsimp only at h
      cases hattribute : r.catalogue.attribute? (s.record (.attributeRead name)) target name with
      | none =>
          rw [hattribute] at h
          cases h
      | some found =>
          rw [hattribute] at h
          cases found with
          | data =>
              cases h
              exact ⟨hpublic, rfl, rfl, .inl ⟨hattribute, rfl⟩⟩
          | method signature marked =>
              dsimp only at h
              split at h
              · cases h
              · rename_i hmarked
                have hshown : r.strict = true → marked = true := by simpa using hmarked
                have hmember : m = ⟨target, name, false⟩ := by
                  cases types with
                  | none =>
                      cases h
                      rfl
                  | some types =>
                      dsimp only at h
                      cases haccepts : signatureAccepts signature types with
                      | error f =>
                          rw [haccepts] at h
                          cases h
                      | ok accepted =>
                          rw [haccepts] at h
                          cases accepted <;> cases h
                          rfl
                subst hmember
                exact ⟨hpublic, rfl, rfl, .inr ⟨signature, marked, hattribute, hshown, rfl⟩⟩

/-- An evaluator with a host of reflection, the standard primitives, those of the library, and
others that record no access of their own. -/
theorem conserves_setting (hcatalogue : r.catalogue.Conserves SameRecord) {primitives : Registry}
    (hprimitives : ∀ entry ∈ primitives, entry ∈ Primitive.standard ∨
      entry ∈ Primitive.library r.catalogue ∨ ∀ e, (entry.2 e).Conserves (Adds r.Allows)) :
    Setting.Conserves ⟨r.host, primitives⟩ (Adds r.Allows) (isPublic · = true) where
  resolveType := conserves_resolveType hcatalogue
  resolveMember := conserves_resolveMember
  exposed target name types s m h := by
    obtain ⟨hpublic, -, hname, -⟩ := shows_of_resolveMember h
    exact hname ▸ hpublic
  call := conserves_call hcatalogue
  primitives name p hp e := by
    have hmembers : r.catalogue.Conserves (Adds r.Allows) :=
      ⟨fun _ _ => (hcatalogue.read _ _).adds, fun _ _ _ => (hcatalogue.write _ _ _).adds,
        fun _ _ _ => (hcatalogue.call _ _ _).adds⟩
    exact Primitive.conserves_find? r.conserved hmembers hprimitives hp e

end Resolution

end Reflection

namespace Builtin

theorem conserves_catalogue [HostClasses] : catalogue.Conserves SameRecord where
  read target name := by
    change (read target name).Conserves SameRecord
    unfold read
    split
    · exact .pure preordered_sameRecord _
    · exact .pure preordered_sameRecord _
    · exact .fail preordered_sameRecord _
  write target name value := by
    change (write target name).Conserves SameRecord
    unfold write
    split <;> exact .fail preordered_sameRecord _
  call target name arguments := by
    change (call target name arguments).Conserves SameRecord
    unfold call
    split
    · split
      · exact fun _ _ => rfl
      · exact .fail preordered_sameRecord _
    · exact .ofExcept preordered_sameRecord _

end Builtin

namespace Sample

theorem conserves_setCount (id : Identity) (count : Value) :
    (setCount id count).Conserves SameRecord :=
  fun _ _ => rfl

theorem conserves_counterResult [HostClasses] (self : Value) (id : Identity) (count : Value)
    (name : String) (arguments : List Value) :
    (counterResult self id count name arguments).Conserves SameRecord := by
  have hpre := preordered_sameRecord
  unfold counterResult
  split
  · exact .ofExcept_bind hpre fun n _ => conserves_setCount id n
  · exact .ofExcept hpre _
  · exact .pure hpre _
  · exact .ofExcept_bind hpre fun total _ => .ofExcept_bind hpre fun n _ => conserves_setCount id n
  · exact .pure hpre _
  · exact .pure hpre _
  · exact .pure hpre _
  · exact .pure hpre _
  · exact .pure hpre _
  · exact .ofExcept_bind hpre fun text _ => .fail hpre _
  · exact .ofExcept_bind hpre fun text _ => .fail hpre _
  · exact fun _ _ => rfl
  · exact .pure hpre _

theorem conserves_callOffer (h : Handle) (name : String) (arguments : List Value) :
    (callOffer h name arguments).Conserves SameRecord := by
  have hpre := preordered_sameRecord
  unfold callOffer
  split
  · split
    · exact .fail hpre _
    · exact .ofExcept hpre _
  · split
    · exact .pure hpre _
    · exact .fail hpre _
  · exact .fail hpre _

theorem conserves_catalogue [HostClasses] : catalogue.Conserves SameRecord where
  read target name := by
    have hpre := preordered_sameRecord
    change (read target name).Conserves SameRecord
    unfold read
    split
    · split
      · exact .ofExcept hpre _
      · split
        · exact .pure hpre _
        · split
          · exact .pure hpre _
          · exact .fail hpre _
    · split
      · exact .pure hpre _
      · exact .pure hpre _
      · exact .fail hpre _
    · refine .read_bind fun s => ?_
      split
      · exact .pure hpre _
      · exact .pure hpre _
      · exact .fail hpre _
    · exact Builtin.conserves_catalogue.read _ name
  write target name value := by
    change (write target name value).Conserves SameRecord
    unfold write
    split
    · split
      · exact .fail preordered_sameRecord _
      · exact fun _ _ => rfl
    · exact fun _ _ => rfl
    · exact Builtin.conserves_catalogue.write _ name value
  call target name arguments := by
    change (call target name arguments).Conserves SameRecord
    unfold call
    split
    · split
      · split
        · exact .fail preordered_sameRecord _
        · exact conserves_counterResult _ _ _ _ _
      · exact .fail preordered_sameRecord _
    · exact conserves_callOffer _ _ _
    · exact conserves_callOffer _ _ _
    · exact Builtin.conserves_catalogue.call _ name arguments

end Sample

namespace Runner

/-- Whatever a script does, the names by which the host reads and writes attributes of values for it
are public, and an attribute of a module is read only if the path that ends with its name is taken
for that of a type. The names of the members that it hands out are public too, and these are
properties that are data or methods, and marked ones if the host is strict. -/
theorem handleScript_reaches_public [HostClasses] (r : Runner) (host : Reflection)
    (primitives : Registry) (hsetting : r.setting = ⟨host.host, primitives⟩)
    (hcatalogue : host.catalogue.Conserves SameRecord)
    (hprimitives : ∀ entry ∈ primitives, entry ∈ Primitive.standard ∨
      entry ∈ Primitive.library host.catalogue ∨ ∀ e, (entry.2 e).Conserves (Adds host.Allows))
    (source : String) :
    (∃ new, (r.handleScript source).2.machine.store.events = r.machine.store.events ++ new ∧
      ∀ e ∈ new, host.Allows e) ∧
    ∀ target name types s m, (host.resolveMember target name types s).1 = .ok (some m) →
      host.Shows (s.record (.attributeRead name)) target name m := by
  have hconserves := Reflection.conserves_setting hcatalogue hprimitives
  rw [← hsetting] at hconserves
  exact ⟨conserves_handleScript host.conserved hconserves source,
    fun _ _ _ _ _ => Reflection.shows_of_resolveMember⟩

open scoped Sample

/-- A constant of a class in a module, which is reached by two paths: that of the class and, from
there, its own name. -/
theorem handleScript_reaches_public_constant :
    let host : Reflection := ⟨Sample.catalogue, [], true, true⟩
    let primitives := Primitive.standard ++ Primitive.library Sample.catalogue
    let r : Runner := .start ⟨host.host, primitives⟩ .empty
    let after := (r.handleScript "(hostpkg.shapes.Square/sides)").2.machine.store
    after.events.length = 3 ∧ (∀ e ∈ after.events, host.Allows e) ∧
      ∀ target name types s m, (host.resolveMember target name types s).1 = .ok (some m) →
        host.Shows (s.record (.attributeRead name)) target name m := by
  intro host primitives r after
  have hlength : after.events.length = 3 := by decide +kernel
  have hprimitives : ∀ entry ∈ primitives, entry ∈ Primitive.standard ∨
      entry ∈ Primitive.library host.catalogue ∨ ∀ e, (entry.2 e).Conserves (Adds host.Allows) :=
    fun entry hentry => (List.mem_append.mp hentry).imp_right .inl
  obtain ⟨⟨new, hnew, hallowed⟩, hshown⟩ := handleScript_reaches_public r host primitives rfl
    Sample.conserves_catalogue hprimitives "(hostpkg.shapes.Square/sides)"
  have hevents : after.events = new := hnew
  exact ⟨hlength, hevents ▸ hallowed, hshown⟩

/-- A private attribute of a module is read if a script takes it for a type. -/
theorem handleScript_reaches_private_type :
    ¬ ∀ (r : Runner) (host : Reflection) (primitives : Registry) (source : String),
      r.setting = ⟨host.host, primitives⟩ → host.catalogue.Conserves SameRecord →
      (∀ entry ∈ primitives, entry ∈ Primitive.standard ∨
        entry ∈ Primitive.library host.catalogue ∨ ∀ e, (entry.2 e).Conserves (Adds host.Allows)) →
      r.machine.store.events = [] →
      ∀ e ∈ (r.handleScript source).2.machine.store.events, ∀ name ∈ e.attributeName?,
        name.toList.head? ≠ some '_' := by
  intro h
  let host : Reflection := ⟨Sample.catalogue, [], true, false⟩
  let primitives := Primitive.standard ++ Primitive.library Sample.catalogue
  let r : Runner := .start ⟨host.host, primitives⟩ .empty
  let source := "(hostpkg._hidden/upper)"
  have hread : (r.handleScript source).2.machine.store.events.any
      (fun e => decide (e.attributeName? = some "_hidden")) := by decide +kernel
  obtain ⟨e, he, hname⟩ := List.any_eq_true.mp hread
  exact h r host primitives source rfl Sample.conserves_catalogue
    (fun entry hentry => (List.mem_append.mp hentry).imp_right .inl) rfl e he "_hidden"
    (of_decide_eq_true hname) rfl

end Runner

end HostedLisp
