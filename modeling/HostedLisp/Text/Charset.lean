import HostedLisp.Text.Blank
import HostedLisp.Text.Utf8

namespace HostedLisp.Text

/-- The ways to read bytes as characters. -/
inductive Charset where
  | ascii
  | latin1
  | utf8
  | utf16le
deriving Repr, DecidableEq

/-- The mark for bytes that cannot be read. -/
def replacement : Char := '\uFFFD'

namespace Charset

/-- Whether a character counts in the name of a character set. -/
def isNameChar (c : Char) : Bool := c.isAlphanum || c == '.'

/-- The name in lower case, with each run of punctuation as one underscore. -/
def simplified (s : List Char) : List Char :=
  go [] false s
where
  /-- Collects the name in reverse, with a flag for punctuation that was passed. -/
  go (name : List Char) (gap : Bool) : List Char → List Char
    | [] => name.reverse
    | c :: rest =>
        if isNameChar c then
          go (c.toLower :: (if gap && !name.isEmpty then '_' :: name else name)) false rest
        else go name true rest

/-- The names of the character sets. -/
def names : List (String × Charset) :=
  [("ascii", ascii), ("us_ascii", ascii), ("646", ascii), ("latin_1", latin1), ("latin1", latin1),
    ("latin", latin1), ("l1", latin1), ("iso_8859_1", latin1), ("iso8859_1", latin1),
    ("iso8859", latin1), ("8859", latin1), ("cp819", latin1), ("utf_8", utf8), ("utf8", utf8),
    ("u8", utf8), ("utf", utf8), ("cp65001", utf8), ("utf_16_le", utf16le), ("utf_16le", utf16le)]

/-- The character set of a name. -/
def ofName? (s : List Char) : Option Charset :=
  let name := String.ofList (simplified s)
  names.findSome? fun e => if e.1 == name then some e.2 else none

/-- The characters of pairs of bytes, the low byte first. A surrogate without its partner and a
byte without a second one are replaced. -/
def pairs : List UInt8 → List Char
  | [] => []
  | [_] => [replacement]
  | a :: b :: rest =>
      let unit := b.toNat * 256 + a.toNat
      if 0xD800 ≤ unit ∧ unit < 0xDC00 then
        match rest with
        | c :: d :: rest' =>
            let low := d.toNat * 256 + c.toNat
            if 0xDC00 ≤ low ∧ low < 0xE000 then
              Char.ofNat (0x10000 + (unit - 0xD800) * 0x400 + (low - 0xDC00)) :: pairs rest'
            else replacement :: pairs (c :: d :: rest')
        | _ => [replacement]
      else if 0xDC00 ≤ unit ∧ unit < 0xE000 then replacement :: pairs rest
      else Char.ofNat unit :: pairs rest

/-- The text of a byte string. -/
def decode : Charset → List UInt8 → List Char
  | ascii, bytes => bytes.map fun b => if b.toNat < 0x80 then Char.ofNat b.toNat else replacement
  | latin1, bytes => bytes.map fun b => Char.ofNat b.toNat
  | utf8, bytes => (Text.utf8 bytes).map fun c => c.getD replacement
  | utf16le, bytes => pairs bytes

end Charset

/-- Removes a character from both ends of a text. -/
def stripChar (mark : Char) (s : List Char) : List Char :=
  ((s.dropWhile (· == mark)).reverse.dropWhile (· == mark)).reverse

/-- The value after a name and an equals sign at the start of a text, without quotes. -/
def parameterHere? (name s : List Char) : Option (List Char) :=
  if name.isPrefixOf (asciiLower s) then
    match trimLeft (s.drop name.length) with
    | '=' :: rest =>
        let value := (trimLeft rest).takeWhile fun c => !isBlank c && c != ';'
        if value.isEmpty then none else some (stripChar '\'' (stripChar '"' value))
    | _ => none
  else none

/-- The value of the first parameter of a name in a media type. -/
def parameter? (name : List Char) : List Char → Option (List Char)
  | [] => none
  | c :: rest =>
      match parameterHere? name (c :: rest) with
      | some value => some value
      | none => parameter? name rest

/-- The text of bytes with the media type that they came with; without a known character set
they are read as UTF-8. -/
def decodeAs (mediaType : List Char) (bytes : List UInt8) : List Char :=
  let charset := (parameter? "charset".toList mediaType).bind Charset.ofName?
  (charset.getD .utf8).decode bytes

end HostedLisp.Text
