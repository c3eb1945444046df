namespace HostedLisp

/-- The kinds of tokens. Both spellings of a parenthesis have one kind. -/
inductive TokenKind where
  | endOfInput
  | fault
  | parenOpen
  | parenClose
  | bracketOpen
  | bracketClose
  | quote
  | dot
  | slash
  | identifier
  | string
  | integer
  | decimal
  | double
  | float
  | boolean
  | null
deriving Repr, DecidableEq, Inhabited

def TokenKind.name : TokenKind → String
  | endOfInput => "EOF"
  | fault => "Error"
  | parenOpen => "ParenOpen"
  | parenClose => "ParenClose"
  | bracketOpen => "BracketOpen"
  | bracketClose => "BracketClose"
  | quote => "Quote"
  | dot => "Dot"
  | slash => "Slash"
  | identifier => "Identifier"
  | string => "String"
  | integer => "Integer"
  | decimal => "Decimal"
  | double => "Double"
  | float => "Float"
  | boolean => "Boolean"
  | null => "Null"

/-- A token: the offset of its first character, its kind and its text. A string token holds
the decoded text, a fault its message, and the end of the input nothing. -/
structure Token where
  position : Nat
  kind : TokenKind
  text : Option String
deriving Repr, DecidableEq, Inhabited

/-- The text of a token, empty if it has none. -/
def Token.textOrEmpty (t : Token) : String :=
  t.text.getD ""

/-- Whether no token follows this one: the end of the input or a fault. -/
def Token.isFinal (t : Token) : Bool :=
  t.kind == .endOfInput || t.kind == .fault

/-- What can be wrong with the characters of a token. -/
inductive LexicalFault where
  | unexpectedCharacter (c : Char) (position : Nat)
  | unknownEscape (c : Char)
  | unterminatedString
  | unterminatedRawString
deriving Repr, DecidableEq

def LexicalFault.message : LexicalFault → String
  | unexpectedCharacter c position =>
      "Unexpected character '" ++ c.toString ++ "' at position " ++ toString position
  | unknownEscape c => "Unknown backslash escape character '" ++ c.toString ++ "'"
  | unterminatedString => "Unexpected end of string literal"
  | unterminatedRawString => "Unexpected end of raw string literal"

/-- The token that reports a fault at an offset. -/
def LexicalFault.token (f : LexicalFault) (position : Nat) : Token :=
  ⟨position, .fault, some f.message⟩

end HostedLisp
