import HostedLisp.Value.Basic

namespace HostedLisp

/-- Whose attribute is written: an object's or that of a class or module. -/
inductive Owner where
  | object (id : Identity)
  | handle (value : Handle)
deriving Repr, DecidableEq

/-- A change of the items of a list or of one attribute. -/
inductive Change where
  | items (id : Identity) (contents : List Value)
  | member (owner : Owner) (name : String) (value : Value)
deriving Inhabited

/-- The new contents of a list, if the change is about it. -/
def Change.itemsOf? (c : Change) (id : Identity) : Option (List Value) :=
  match c with
  | items i contents => if i = id && id ≠ 0 then some contents else none
  | member .. => none

/-- The new attribute of an owner, if the change is about it. -/
def Change.attributeOf? (c : Change) (owner : Owner) : Option (String × Value) :=
  match c with
  | member o name value => if o = owner then some (name, value) else none
  | items .. => none

/-- Sets an attribute: in place if there is one of that name, at the end otherwise. -/
def setAttribute (name : String) (value : Value) : List (String × Value) → List (String × Value)
  | [] => [(name, value)]
  | (n, v) :: rest =>
      if n = name then (n, value) :: rest else (n, v) :: setAttribute name value rest

def findAttribute? (name : String) (attributes : List (String × Value)) : Option Value :=
  (attributes.find? fun a => a.1 == name).map Prod.snd

namespace Value

mutual

/-- The value after a change. -/
def update (c : Change) : Value → Value
  | list id items =>
      match c.itemsOf? id with
      | some contents => list id contents
      | none => list id (updateAll c items)
  | tuple items => tuple (updateAll c items)
  | map entries => map (updateEntries c entries)
  | object id className attributes =>
      let updated := updateAttributes c attributes
      match c.attributeOf? (.object id) with
      | some (name, value) => object id className (setAttribute name value updated)
      | none => object id className updated
  | v => v
termination_by structural v => v

/-- The values after a change. -/
def updateAll (c : Change) : List Value → List Value
  | [] => []
  | x :: xs => update c x :: updateAll c xs
termination_by structural xs => xs

/-- The entries of a map after a change. -/
def updateEntries (c : Change) : List (Value × Value) → List (Value × Value)
  | [] => []
  | (k, v) :: rest => (update c k, update c v) :: updateEntries c rest
termination_by structural xs => xs

/-- The attributes of an object after a change to something else. -/
def updateAttributes (c : Change) : List (String × Value) → List (String × Value)
  | [] => []
  | (name, v) :: rest => (name, update c v) :: updateAttributes c rest
termination_by structural xs => xs

end

mutual

/-- Gives every list and object without an identity the next free one. -/
def place : Value → Identity → Value × Identity
  | list id items, next =>
      let (placed, next) := placeAll items next
      if id = 0 then (list next placed, next + 1) else (list id placed, next)
  | tuple items, next =>
      let (placed, next) := placeAll items next
      (tuple placed, next)
  | map entries, next =>
      let (placed, next) := placeEntries entries next
      (map placed, next)
  | object id className attributes, next =>
      let (placed, next) := placeAttributes attributes next
      if id = 0 then (object next className placed, next + 1)
      else (object id className placed, next)
  | v, next => (v, next)
termination_by structural v => v

/-- Places a list of values. -/
def placeAll : List Value → Identity → List Value × Identity
  | [], next => ([], next)
  | x :: xs, next =>
      let (x, next) := place x next
      let (xs, next) := placeAll xs next
      (x :: xs, next)
termination_by structural xs => xs

/-- Places the entries of a map. -/
def placeEntries : List (Value × Value) → Identity → List (Value × Value) × Identity
  | [], next => ([], next)
  | (k, v) :: rest, next =>
      let (k, next) := place k next
      let (v, next) := place v next
      let (rest, next) := placeEntries rest next
      ((k, v) :: rest, next)
termination_by structural xs => xs

/-- Places the attributes of an object. -/
def placeAttributes : List (String × Value) → Identity → List (String × Value) × Identity
  | [], next => ([], next)
  | (name, v) :: rest, next =>
      let (v, next) := place v next
      let (rest, next) := placeAttributes rest next
      ((name, v) :: rest, next)
termination_by structural xs => xs

end

end Value

end HostedLisp
