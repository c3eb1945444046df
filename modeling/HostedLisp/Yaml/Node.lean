import HostedLisp.Yaml.Lexer

namespace HostedLisp.Yaml

/-- Tags: those with a meaning of their own, and all others. -/
inductive Tag where
  | null
  | bool
  | int
  | float
  | binary
  | timestamp
  | merge
  | value
  | str
  | seq
  | map
  | other (name : String)
deriving Repr, DecidableEq

/-- What the tags with a meaning begin with. -/
def tagStem : String := "tag:yaml.org,2002:"

namespace Tag

/-- The names of the tags after their common stem. -/
def names : List (String × Tag) :=
  [("null", null), ("bool", bool), ("int", int), ("float", float), ("binary", binary),
    ("timestamp", timestamp), ("merge", merge), ("value", value), ("str", str), ("seq", seq),
    ("map", map)]

def ofName (name : String) : Tag :=
  match names.find? (fun e => tagStem ++ e.1 == name) with
  | some (_, t) => t
  | none => other name

def ofKind : ScalarKind → Tag
  | .null => null
  | .bool => bool
  | .int => int
  | .float => float
  | .timestamp => timestamp
  | .merge => merge
  | .value => value
  | .str => str

end Tag

/-- The nodes of a document. -/
inductive Node where
  | scalar (tag : Tag) (text : List Char)
  | sequence (tag : Tag) (items : List Node)
  | mapping (tag : Tag) (entries : List (Node × Node))

namespace Node

def tag : Node → Tag
  | scalar t _ => t
  | sequence t _ => t
  | mapping t _ => t

/-- The node of a value that is left out. -/
def empty : Node := scalar .null []

end Node

/-- The state of reading nodes: the tokens left, what the handles of tags stand for, and the
anchors so far, without a node while it is being read. -/
structure Composing where
  tokens : List Token
  handles : List (String × String)
  anchors : List (String × Option Node)

/-- A step of reading nodes. -/
abbrev Compose (α : Type) := StateT Composing Option α

namespace Compose

/-- The next token, if there is one. -/
def peek : Compose (Option Token) := do return (← get).tokens.head?

/-- Takes a token if it is the next one. -/
def take (t : Token) : Compose Bool := do
  let s ← get
  if s.tokens.head? = some t then
    set { s with tokens := s.tokens.tail }
    return true
  else return false

/-- Takes a token that has to be the next one. -/
def expect (t : Token) : Compose Unit := do
  if ← take t then return () else failure

/-- Whether the next token is one of several. -/
def isAt (ts : List Token) : Compose Bool := do
  match ← peek with
  | some t => return ts.contains t
  | none => return false

def anchor? : Compose (Option String) := do
  let s ← get
  match s.tokens with
  | .anchor name :: rest =>
      set { s with tokens := rest }
      return some name
  | _ => return none

/-- Takes a tag, and replaces its handle by what it stands for. -/
def tag? : Compose (Option String) := do
  let s ← get
  match s.tokens with
  | .tag ⟨handle, suffix⟩ :: rest =>
      set { s with tokens := rest }
      match handle with
      | none => return some suffix
      | some h =>
          match s.handles.lookup h with
          | some stem => return some (stem ++ suffix)
          | none => failure
  | _ => return none

/-- Takes an anchor and a tag, in either order. -/
def properties : Compose (Option String × Option String) := do
  match ← anchor? with
  | some a => return (some a, ← tag?)
  | none =>
      match ← tag? with
      | some t => return (← anchor?, some t)
      | none => return (none, none)

/-- Opens an anchor; a name can be given only once. -/
def openAnchor (name : Option String) : Compose Unit := do
  match name with
  | none => return ()
  | some a =>
      let s ← get
      if (s.anchors.lookup a).isSome then failure
      else set { s with anchors := (a, none) :: s.anchors }

def closeAnchor (name : Option String) (x : Node) : Compose Unit := do
  match name with
  | none => return ()
  | some a => modify fun s => { s with anchors := (a, some x) :: s.anchors }

/-- The node of a reference. It cannot be the one that the reference is in. -/
def referred (name : String) : Compose Node := do
  match (← get).anchors.lookup name with
  | some (some x) => return x
  | _ => failure

/-- The tag of a scalar: its own, or the one of its form where it is plain, or the one of
texts. -/
def scalarTag (tag : Option String) (plain : Bool) (text : List Char) : Tag :=
  match tag with
  | none => if plain then .ofKind (scalarKind text) else .str
  | some name => if name = "!" then .ofKind (scalarKind text) else .ofName name

/-- The tag of a collection: its own, or the one of its kind. -/
def collectionTag (tag : Option String) (kind : Tag) : Tag :=
  match tag with
  | none => kind
  | some name => if name = "!" then kind else .ofName name

/-- The places where a node may stand. -/
inductive Context where
  | flow
  | block
  | blockEntry
deriving Repr, DecidableEq

mutual

/-- Reads a node with its anchor and tag, or a reference to one. -/
def node : Nat → Context → Compose Node
  | 0, _ => failure
  | fuel + 1, context => do
      match ← peek with
      | some (.reference name) =>
          let _ ← take (.reference name)
          referred name
      | _ =>
          let (anchor, tag) ← properties
          openAnchor anchor
          let x ← content fuel context tag anchor.isSome
          closeAnchor anchor x
          return x

/-- Reads what follows the anchor and tag of a node. After one of them it may be left out. -/
def content : Nat → Context → Option String → Bool → Compose Node
  | 0, _, _, _ => failure
  | fuel + 1, context, tag, anchored => do
      let t ← peek
      if context = .blockEntry && t = some .item then
        return .sequence (collectionTag tag .seq) (← looseItems fuel)
      else
        match t with
        | some (.scalar plain text) =>
            let _ ← take (.scalar plain text)
            return .scalar (scalarTag tag plain text) text
        | some (.opening .square) =>
            let _ ← take (.opening .square)
            return .sequence (collectionTag tag .seq) (← flowItems fuel true)
        | some (.opening .curly) =>
            let _ ← take (.opening .curly)
            return .mapping (collectionTag tag .map) (← flowEntries fuel true)
        | _ =>
            if context != .flow && t = some .blockSequence then
              let _ ← take .blockSequence
              return .sequence (collectionTag tag .seq) (← blockItems fuel)
            else if context != .flow && t = some .blockMapping then
              let _ ← take .blockMapping
              return .mapping (collectionTag tag .map) (← blockEntries fuel)
            else if anchored || tag.isSome then
              return .scalar (scalarTag tag true []) []
            else failure

/-- Reads a node, or an empty one where certain tokens follow. -/
def nodeUnless : Nat → Context → List Token → Compose Node
  | 0, _, _ => failure
  | fuel + 1, context, stops => do
      if ← isAt stops then return .empty else node fuel context

/-- Reads a value after its mark, or an empty one where there is no mark. -/
def optionalValue : Nat → Context → List Token → Compose Node
  | 0, _, _ => failure
  | fuel + 1, context, stops => do
      if ← take .value then nodeUnless fuel context stops else return .empty

def blockItems : Nat → Compose (List Node)
  | 0 => failure
  | fuel + 1 => do
      if ← take .item then
        let x ← nodeUnless fuel .block [.item, .blockEnd]
        return x :: (← blockItems fuel)
      else
        expect .blockEnd
        return []

/-- Reads items that stand at the column of the key before them; the next key ends them. -/
def looseItems : Nat → Compose (List Node)
  | 0 => failure
  | fuel + 1 => do
      if ← take .item then
        let x ← nodeUnless fuel .block [.item, .key, .value, .blockEnd]
        return x :: (← looseItems fuel)
      else return []

def blockEntries : Nat → Compose (List (Node × Node))
  | 0 => failure
  | fuel + 1 => do
      if ← take .key then
        let k ← nodeUnless fuel .blockEntry [.key, .value, .blockEnd]
        let v ← optionalValue fuel .blockEntry [.key, .value, .blockEnd]
        return (k, v) :: (← blockEntries fuel)
      else
        expect .blockEnd
        return []

/-- Reads the items between square brackets; an item with a key is a mapping of one entry. -/
def flowItems : Nat → Bool → Compose (List Node)
  | 0, _ => failure
  | fuel + 1, first => do
      if ← take (.closing .square) then return []
      else
        if !first then expect .comma
        if ← take .key then
          let k ← nodeUnless fuel .flow [.value, .comma, .closing .square]
          let v ← optionalValue fuel .flow [.comma, .closing .square]
          return .mapping .map [(k, v)] :: (← flowItems fuel false)
        else if ← take (.closing .square) then return []
        else
          let x ← node fuel .flow
          return x :: (← flowItems fuel false)

/-- Reads the entries between curly brackets; an entry without a value has an empty one. -/
def flowEntries : Nat → Bool → Compose (List (Node × Node))
  | 0, _ => failure
  | fuel + 1, first => do
      if ← take (.closing .curly) then return []
      else
        if !first then expect .comma
        if ← take .key then
          let k ← nodeUnless fuel .flow [.value, .comma, .closing .curly]
          let v ← optionalValue fuel .flow [.comma, .closing .curly]
          return (k, v) :: (← flowEntries fuel false)
        else if ← take (.closing .curly) then return []
        else
          let k ← node fuel .flow
          return (k, .empty) :: (← flowEntries fuel false)

end

/-- Takes the directives before a document. The version must be one that can be read, and
neither it nor a handle can be given twice. -/
def directives : Nat → Bool → List (String × String) → Compose (List (String × String))
  | 0, _, _ => failure
  | fuel + 1, versioned, handles => do
      match ← peek with
      | some (.directive d) =>
          let _ ← take (.directive d)
          match d with
          | .version major =>
              if versioned || major != 1 then failure else directives fuel true handles
          | .handle name stem =>
              if (handles.lookup name).isSome then failure
              else directives fuel versioned ((name, stem) :: handles)
          | .unknown => directives fuel versioned handles
      | _ => return handles

/-- The handles that every document has, unless it gives them another meaning. -/
def commonHandles : List (String × String) := [("!", "!"), ("!!", tagStem)]

/-- Whether a document begins here with a mark or directives. -/
def beginsMarked : Option Token → Bool
  | some (.directive _) => true
  | some .documentStart => true
  | _ => false

/-- Whether the content of a marked document is left out. -/
def endsMarked : Option Token → Bool
  | none => true
  | some .documentEnd => true
  | t => beginsMarked t

/-- Reads a document that is all of the text. -/
def document (fuel : Nat) : Compose Node := do
  let x ←
    if beginsMarked (← peek) then do
      let handles ← directives fuel false []
      expect .documentStart
      modify fun s => { s with handles := handles ++ commonHandles }
      if endsMarked (← peek) then pure Node.empty else node fuel .block
    else node fuel .block
  if (← get).tokens.all (· == .documentEnd) then return x else failure

end Compose

/-- The document of a text, which is missing from an empty text; the outer `none` stands for a
text that is not well formed or holds several documents. -/
def document? (s : List Char) : Option (Option Node) := do
  let ts ← tokens? s
  if ts.isEmpty then return none
  else
    let (x, _) ← (Compose.document (4 * ts.length + 4)).run ⟨ts, Compose.commonHandles, []⟩
    return some x

end HostedLisp.Yaml
