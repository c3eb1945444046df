import HostedLisp.Text.Base64
import HostedLisp.Value.Printer
import HostedLisp.Yaml.Pen

namespace HostedLisp.Yaml

open Number Text

/-- The text of a double: a number with an exponent has a point too. -/
def doubleScalar : Binary → List Char
  | .nan => ".nan".toList
  | .infinite negative => signText negative ++ ".inf".toList
  | x =>
      let s := x.text
      if s.contains '.' then s
      else s.flatMap fun c => if c = 'e' then ['.', '0', 'e'] else [c]

/-- Where a node stands. -/
inductive Place where
  | root
  | item
  | entry
deriving Repr, DecidableEq

/-- The indentation one level deeper. -/
def deeper : Option Nat → Nat
  | none => 2
  | some n => n + 2

/-- The indentation of a block. Lists below a key are not indented further. -/
def blockIndent (p : Pen) (place : Place) (isList : Bool) : Option Nat → Nat
  | none => 0
  | some n => if isList && place == .entry && !p.leading then n else n + 2

/-- Writes a scalar whose plain form is read back if `readsBack` holds. -/
def putText (p : Pen) (indent : Option Nat) (readsBack isKey : Bool) (s : List Char) : Pen :=
  putScalar p (chooseStyle (analyze s) readsBack isKey) (deeper indent) (!isKey) s

/-- Whether the plain form of a text is read back as a text. -/
def isPlainText (s : List Char) : Bool := scalarKind s == .str

/-- Whether a key can stand on one line with its value. -/
def isSimpleKey (s : List Char) : Bool :=
  let a := analyze s
  s.length + 5 < 128 && !a.empty && !a.multiline

/-- Writes a byte string. -/
def putBytes (p : Pen) (indent : Option Nat) (bytes : List UInt8) : Pen :=
  let q := p.indicator "!!binary".toList true false
  if bytes.isEmpty then putDouble q (deeper indent) true []
  else putLiteral q (deeper indent) (base64Lines bytes)

variable [HostClasses]

/-- The refusal of a value that has no YAML form. Its message shows the value, and if that fails,
there is no other message. -/
def unwritable (v : Value) : Failure :=
  match v.inspect? with
  | .ok text => .yamlError ("('cannot represent an object', " ++ text ++ ")")
  | .error f => f

/-- Writes the key of an entry up to the place of its value. -/
def putKey (p : Pen) (indent : Nat) (key : List Char) : Pen :=
  let start := p.goTo indent
  if isSimpleKey key then
    (putText start (some indent) (isPlainText key) true key).indicator [':'] false false
  else
    let q := putText (start.indicator ['?'] true true) (some indent) (isPlainText key) false key
    (q.goTo indent).indicator [':'] true true

mutual

def putValue (p : Pen) (indent : Option Nat) (place : Place) : Value → Except Failure Pen
  | .null => .ok (putText p indent true false "null".toList)
  | .bool b => .ok (putText p indent true false (booleanText b).toList)
  | .int n => (intText? n).map fun s => putText p indent true false s.toList
  | .double x => .ok (putText p indent true false (doubleScalar x))
  | .float x => .ok (putText p indent true false (doubleScalar x))
  | .str s => .ok (putText p indent (isPlainText s.toList) false s.toList)
  | .date d => .ok (putText p indent true false d.text.toList)
  | .bytes b => .ok (putBytes p indent b)
  | .list _ items =>
      if items.isEmpty then .ok ((p.indicator ['['] true false).indicator [']'] false false)
      else putItems (blockIndent p place true indent) items p
  | .tuple items =>
      if items.isEmpty then .ok ((p.indicator ['['] true false).indicator [']'] false false)
      else putItems (blockIndent p place true indent) items p
  | .map entries =>
      if entries.isEmpty then
        .ok ((p.indicator ['\x7b'] true false).indicator ['\x7d'] false false)
      else putEntries (blockIndent p place false indent) entries p
  | v => .error (unwritable v)
termination_by structural v => v

def putItems (indent : Nat) : List Value → Pen → Except Failure Pen
  | [], p => .ok p
  | x :: xs, p => do
      let q := (p.goTo indent).indicator ['-'] true true
      putItems indent xs (← putValue q (some indent) .item x)
termination_by structural xs => xs

/-- Writes the entries of a map. -/
def putEntries (indent : Nat) : List (Value × Value) → Pen → Except Failure Pen
  | [], p => .ok p
  | (k, v) :: rest, p => do
      let q := putKey p indent k.display.toList
      putEntries indent rest (← putValue q (some indent) .entry v)
termination_by structural xs => xs

end

/-- Whether a value is written as a plain scalar when it is the whole text; such a text is
closed by a mark. -/
def isOpenEnded : Value → Bool
  | .str s => chooseStyle (analyze s.toList) (isPlainText s.toList) false == .plain
  | .bytes _ => false
  | .list .. => false
  | .tuple _ => false
  | .map _ => false
  | _ => true

/-- The YAML text of plain data. -/
def text (v : Value) : Except Failure String := do
  let p ← putValue .start none .root v
  let closed := p.goTo 0
  return (if isOpenEnded v then (closed.indicator "...".toList true false).goTo 0 else closed).text

end HostedLisp.Yaml
