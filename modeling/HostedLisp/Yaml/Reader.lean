import HostedLisp.Value.Equality
import HostedLisp.Yaml.ScalarValue

namespace HostedLisp.Yaml

/-- A fault in a value, and the number of collections it is inside of. -/
structure Fault where
  depth : Nat
  cause : Failure

/-- The value of a node, or its fault. -/
abbrev Result := Except Fault Value

abbrev Entries := List (Result × Result)

namespace Fault

def yaml (depth : Nat) (message : String) : Fault := ⟨depth, .yamlError message⟩

/-- The fault as seen from the collection around it. -/
def deeper (f : Fault) : Fault := ⟨f.depth + 1, f.cause⟩

/-- The fault that counts in a collection: the first of those inside the fewest others. -/
def first? : List Result → Option Fault
  | [] => none
  | .ok _ :: rest => first? rest
  | .error f :: rest =>
      match first? rest with
      | some g => some (if g.depth < f.depth then g else f)
      | none => some f

end Fault

/-- The values of results without faults, or the fault that counts. -/
def allValues (rs : List Result) : Except Fault (List Value) :=
  match Fault.first? rs with
  | some f => .error f.deeper
  | none => .ok (rs.filterMap Except.toOption)

/-- What a node means: its value, the text it has as a scalar, the entries it has as a mapping,
and the entries it has when it is merged into a mapping. -/
structure Meaning where
  value : Result
  text : Option (List Char)
  entries : Option Entries
  merged : Option Entries

/-- The meaning of an entry, with the tag of its key. -/
structure EntryMeaning where
  tag : Tag
  key : Meaning
  value : Meaning

/-- Whether values with the tag are collections; a fault of one is inside of it. -/
def Tag.isCollection (t : Tag) : Bool := t = .seq || t = .map

/-- The value of a node with a tag of scalars, if the node has a text. -/
def valueOfText (tag : Tag) (text : Option (List Char)) : Result :=
  if tag.isCollection then .error (.yaml 1 "expected another kind of node")
  else
    match text with
    | some s => (scalarValue tag s).mapError fun e => ⟨0, e⟩
    | none => .error (.yaml 0 "expected a scalar node")

namespace EntryMeaning

/-- The key of an entry. A collection cannot be one, and the mark for values stands for itself. -/
def keyResult (e : EntryMeaning) : Result :=
  if e.tag.isCollection then .error (.yaml 0 "found unhashable key")
  else if e.tag = .value then valueOfText .str e.key.text
  else e.key.value

/-- The entries of a mapping after those that are merged into it; nothing if something else
than mappings is to be merged. -/
def flattened (es : List EntryMeaning) : Option Entries := do
  let merged ← (es.filter (·.tag = .merge)).mapM (·.value.merged)
  let own := (es.filter (·.tag != .merge)).map fun e => (e.keyResult, e.value.value)
  return merged.flatten ++ own

/-- The text of a mapping: that of the value under the mark for values. -/
def textOf (es : List EntryMeaning) : Option (List Char) :=
  match es.find? (·.tag = .value) with
  | some e => e.value.text
  | none => none

end EntryMeaning

def sequenceValue (tag : Tag) (items : List Meaning) : Result :=
  if tag = .seq then (allValues (items.map (·.value))).map .listOf else valueOfText tag none

/-- The map of alternating keys and values; a later value of a key replaces an earlier one. -/
def mapOfPairs : List Value → List (Value × Value)
  | k :: v :: rest => (k, v) :: mapOfPairs rest
  | _ => []

def mappingValue (tag : Tag) (es : List EntryMeaning) : Result :=
  if tag = .map then
    match EntryMeaning.flattened es with
    | none => .error (.yaml 1 "expected a mapping or list of mappings for merging")
    | some entries =>
        (allValues (entries.flatMap fun e => [e.1, e.2])).map fun vs => .mapOf (mapOfPairs vs)
  else valueOfText tag (EntryMeaning.textOf es)

mutual

def Node.meaning : Node → Meaning
  | .scalar tag s => ⟨valueOfText tag (some s), some s, none, none⟩
  | .sequence tag items =>
      let ms := meanings items
      ⟨sequenceValue tag ms, none, none,
        (ms.mapM Meaning.entries).map fun entries => entries.reverse.flatten⟩
  | .mapping tag entries =>
      let es := entryMeanings entries
      let flat := EntryMeaning.flattened es
      ⟨mappingValue tag es, EntryMeaning.textOf es, flat, flat⟩
termination_by structural x => x

def meanings : List Node → List Meaning
  | [] => []
  | x :: xs => x.meaning :: meanings xs
termination_by structural xs => xs

def entryMeanings : List (Node × Node) → List EntryMeaning
  | [] => []
  | (k, v) :: rest => ⟨k.tag, k.meaning, v.meaning⟩ :: entryMeanings rest
termination_by structural es => es

end

/-- The value of a text; an empty text is null. -/
def read (s : List Char) : Except Failure Value :=
  match document? s with
  | none => .error (.yamlError "the text is not well formed")
  | some none => .ok .null
  | some (some x) => x.meaning.value.mapError (·.cause)

end HostedLisp.Yaml
