import HostedLisp.Value.Basic

namespace HostedLisp

open Number

/-- The exact value of a number or truth value; values that are not numbers have none. -/
def Value.numeric? : Value → Option Exact
  | .bool b => some (.ofInt (if b then 1 else 0))
  | .int n => some (.ofInt n)
  | .double x => Exact.ofBinary? x
  | .float x => Exact.ofBinary? x
  | .decimal d => Exact.ofDecimal? d
  | _ => none

/-- The kinds of values that scripts compare only with their own kind. -/
inductive ScalarKind where
  | bool
  | int
  | float
  | double
  | decimal
deriving Repr, DecidableEq

def Value.scalarKind? : Value → Option ScalarKind
  | .bool _ => some .bool
  | .int _ => some .int
  | .float _ => some .float
  | .double _ => some .double
  | .decimal _ => some .decimal
  | _ => none

namespace Value

mutual

/-- Whether two values are equal: numbers by exact value, containers by contents, maps whatever
the order of their entries, and host objects by identity. -/
def same : Value → Value → Bool
  | null, b => b.isNull
  | str s, str t => s == t
  | list _ xs, list _ ys => sameItems xs ys
  | tuple xs, tuple ys => sameItems xs ys
  | map xs, map ys => xs.length == ys.length && sameEntries xs ys
  | code m, code n => m.same n
  | date a, date b => a == b
  | bytes a, bytes b => a == b
  | object i _ _, object j _ _ => i == j
  | handle a, handle b => a == b
  | callable a, callable b => a == b
  | token a, token b => a == b
  | nodeKind a, nodeKind b => a == b
  | bool a, y => Exact.same (bool a).numeric? y.numeric?
  | int a, y => Exact.same (int a).numeric? y.numeric?
  | double a, y => Exact.same (double a).numeric? y.numeric?
  | float a, y => Exact.same (float a).numeric? y.numeric?
  | decimal a, y => Exact.same (decimal a).numeric? y.numeric?
  | _, _ => false
termination_by structural x => x

/-- Whether two lists of values are equal, item by item. -/
def sameItems : List Value → List Value → Bool
  | [], [] => true
  | x :: xs, y :: ys => same x y && sameItems xs ys
  | _, _ => false
termination_by structural xs => xs

/-- Whether each entry has one in the second map with an equal key and value. -/
def sameEntries : List (Value × Value) → List (Value × Value) → Bool
  | [], _ => true
  | (k, v) :: rest, entries =>
      (match entries.find? (fun e => same k e.1) with
        | some e => same v e.2
        | none => false) && sameEntries rest entries
termination_by structural xs => xs

end

def entry? (entries : List (Value × Value)) (key : Value) : Option Value :=
  (entries.find? fun e => e.1.same key).map Prod.snd

/-- Sets the value of a key: in place if the map has the key, at the end otherwise. -/
def insertEntry (key value : Value) : List (Value × Value) → List (Value × Value)
  | [] => [(key, value)]
  | (k, v) :: rest =>
      if k.same key then (k, value) :: rest else (k, v) :: insertEntry key value rest

/-- The map of a sequence of entries, the later of two with one key winning. -/
def mapOf (entries : List (Value × Value)) : Value :=
  map (entries.foldl (fun m e => insertEntry e.1 e.2 m) [])

section Maps

variable {P Q : Value → Prop} {entries : List (Value × Value)}

theorem forall_mem_insertEntry (h : ∀ e ∈ entries, P e.1 ∧ Q e.2) {key value : Value}
    (hkey : P key) (hvalue : Q value) : ∀ e ∈ insertEntry key value entries, P e.1 ∧ Q e.2 := by
  induction entries with
  | nil => exact List.forall_mem_singleton.mpr ⟨hkey, hvalue⟩
  | cons e entries ih =>
      obtain ⟨hfirst, hrest⟩ := List.forall_mem_cons.mp h
      rw [insertEntry]
      split
      · exact List.forall_mem_cons.mpr ⟨⟨hfirst.1, hvalue⟩, hrest⟩
      · exact List.forall_mem_cons.mpr ⟨hfirst, ih hrest⟩

theorem forall_mem_insertEntries {built : List (Value × Value)}
    (hbuilt : ∀ e ∈ built, P e.1 ∧ Q e.2) (h : ∀ e ∈ entries, P e.1 ∧ Q e.2) :
    ∀ e ∈ entries.foldl (fun m e => insertEntry e.1 e.2 m) built, P e.1 ∧ Q e.2 := by
  induction entries generalizing built with
  | nil => exact hbuilt
  | cons e entries ih =>
      obtain ⟨hfirst, hrest⟩ := List.forall_mem_cons.mp h
      exact ih (forall_mem_insertEntry hbuilt hfirst.1 hfirst.2) hrest

end Maps

end Value

/-- Equality for scripts: null equals only null, truth values and numbers only their own kind,
and everything else is compared by contents. -/
def valuesEqual (a b : Value) : Bool :=
  if a.isNull || b.isNull then a.isNull && b.isNull
  else if a.scalarKind? ≠ b.scalarKind? then false
  else a.same b

end HostedLisp
