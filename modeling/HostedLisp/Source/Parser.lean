import HostedLisp.Number.Numeral
import HostedLisp.Source.Lexer
import HostedLisp.Source.Node

namespace HostedLisp

open Number

/-- The kinds of numerals. -/
inductive NumeralKind where
  | integer
  | decimal
  | double
  | float
deriving Repr, DecidableEq

def NumeralKind.name : NumeralKind → String
  | integer => "integer"
  | decimal => "decimal"
  | double => "double"
  | float => "float"

/-- Why a text has no expression. -/
inductive SyntaxFault where
  | lexical (message : String)
  | unexpectedEnd
  | unexpectedToken (found : TokenKind)
  | unexpectedTokenExpecting (found expected : TokenKind)
  | trailingToken (found : TokenKind)
  | dottedName
  | invalidNumeral (kind : NumeralKind) (text : String)
  | integerOutOfRange (text : String)
deriving Repr, DecidableEq

def SyntaxFault.message : SyntaxFault → String
  | lexical message => message
  | unexpectedEnd => "Unexpected end of input"
  | unexpectedToken found => "Unexpected token '" ++ found.name ++ "'"
  | unexpectedTokenExpecting found expected =>
      "Unexpected token '" ++ found.name ++ "', expecting '" ++ expected.name ++ "'"
  | trailingToken found => "Unexpected trailing token '" ++ found.name ++ "'"
  | dottedName => "Scoped identifier must have only one part"
  | invalidNumeral kind text => "Invalid " ++ kind.name ++ " literal '" ++ text ++ "'"
  | integerOutOfRange text => "Integer literal '" ++ text ++ "' is out of range"

/-- A fault with the tokens that it spans. -/
structure SyntaxError where
  fault : SyntaxFault
  start : Token
  stop : Token
deriving Repr, DecidableEq

namespace SyntaxError

def atToken (fault : SyntaxFault) (t : Token) : SyntaxError := ⟨fault, t, t⟩

def message (e : SyntaxError) : String := e.fault.message

def toNode (e : SyntaxError) : Node := .error e.message ⟨some e.start, some e.stop⟩

end SyntaxError

/-- A parser: its lexer, the token last read, and whether that token is to be read again. -/
structure Parser where
  lexer : Lexer
  current : Option Token
  held : Bool
deriving Repr, DecidableEq

namespace Parser

def ofText (source : String) : Parser := ⟨Lexer.ofText source, none, false⟩

/-- A step of the parser, which answers or finds a fault, and moves on in both cases. -/
abbrev Step (α : Type) := Parser → Except SyntaxError α × Parser

/-- The steps of the parser in sequence; a fault ends the sequence. -/
def Step.andThen {α β : Type} (first : Step α) (second : α → Step β) : Step β :=
  fun p =>
    match first p with
    | (.ok a, p') => second a p'
    | (.error e, p') => (.error e, p')

/-- The token to be read next, which becomes the current one. -/
def pull (p : Parser) : Token × Parser :=
  match p.held, p.current with
  | true, some t => (t, { p with held := false })
  | _, _ => (p.lexer.next.1, ⟨p.lexer.next.2, some p.lexer.next.1, false⟩)

/-- Accepts the next token; the end of the input and lexical faults are refused. -/
def accept : Step Token :=
  fun p =>
    let (t, p') := p.pull
    match t.kind with
    | .endOfInput => (.error (.atToken .unexpectedEnd t), p')
    | .fault => (.error (.atToken (.lexical t.textOrEmpty) t), p')
    | _ => (.ok t, p')

/-- Accepts the next token if it is of the given kind. -/
def expect (kind : TokenKind) : Step Token :=
  accept.andThen fun t p =>
    if t.kind = kind then (.ok t, p)
    else (.error (.atToken (.unexpectedTokenExpecting t.kind kind) t), p)

/-- Makes the current token the next one to be read. -/
def hold (p : Parser) : Parser := { p with held := true }

/-- Whether no token is left. Looking ahead holds the token that it reads. -/
def atEnd (p : Parser) : Bool × Parser :=
  let (t, p') := p.pull
  (t.kind == .endOfInput, p'.hold)

/-- The span from a token to the current one. -/
def spanFrom (p : Parser) (start : Token) : Span := ⟨some start, p.current⟩

def numeral (t : Token) : Except SyntaxFault Literal :=
  let text := t.textOrEmpty
  match t.kind with
  | .integer =>
      match readInt64 text.toList with
      | .ok n => .ok (.integer n)
      | .error .malformed => .error (.invalidNumeral .integer text)
      | .error .outOfRange => .error (.integerOutOfRange text)
  | .decimal =>
      match Decimal.read? text.toList with
      | some d => .ok (.decimal d)
      | none => .error (.invalidNumeral .decimal text)
  | .double =>
      match readDouble? text.toList with
      | some x => .ok (.double x)
      | none => .error (.invalidNumeral .double text)
  | .float =>
      match readSingle? text.toList with
      | some x => .ok (.float x)
      | none => .error (.invalidNumeral .float text)
  | kind => .error (.unexpectedToken kind)

/-- The expression that a single token is. -/
def atom (t : Token) : Except SyntaxError Node :=
  let span := Span.ofToken t
  match t.kind with
  | .identifier => .ok (.identifier t.textOrEmpty span)
  | .string => .ok (.literal (.string t.textOrEmpty) span)
  | .boolean => .ok (.literal (.boolean (t.textOrEmpty == "true")) span)
  | .null => .ok (.literal .null span)
  | _ =>
      match numeral t with
      | .ok value => .ok (.literal value span)
      | .error fault => .error (.atToken fault t)

/-- The rest of a head that begins with the name `start`, after the segments read so far. Only
the token after a name tells whether the head goes on. -/
def headRest (start : Token) : Nat → List String → Step Node
  | 0, _ => fun p => (.error (.atToken .unexpectedEnd start), p)
  | fuel + 1, segments =>
      accept.andThen fun t p =>
        match t.kind with
        | .dot =>
            (expect .identifier).andThen
              (fun name => headRest start fuel (segments ++ [name.textOrEmpty])) p
        | .slash =>
            (expect .identifier).andThen
              (fun member p' =>
                (.ok (.staticMember segments member.textOrEmpty ⟨some start, some member⟩), p')) p
        | _ =>
            match segments with
            | [name] => (.ok (.identifier name (.ofToken start)), p.hold)
            | _ => (.error ⟨.dottedName, start, t⟩, p.hold)

def head (fuel : Nat) : Step Node :=
  accept.andThen fun t p =>
    match t.kind with
    | .dot =>
        (expect .identifier).andThen
          (fun name p' =>
            (.ok (.instanceMember name.textOrEmpty ⟨some t, some name⟩), p')) p
    | .identifier => headRest t fuel [t.textOrEmpty] p
    | kind => (.error (.atToken (.unexpectedTokenExpecting kind .identifier) t), p)

mutual

def expression : Nat → Step Node
  | 0 => fun p => (.error (.atToken .unexpectedEnd (p.current.getD default)), p)
  | fuel + 1 =>
      accept.andThen fun t =>
        match t.kind with
        | .parenOpen =>
            (head fuel).andThen fun h =>
              (expressionsUntil .parenClose fuel).andThen fun ps p =>
                (.ok (.invocation h ps (p.spanFrom t)), p)
        | .bracketOpen =>
            (expressionsUntil .bracketClose fuel).andThen fun xs p =>
              (.ok (.list xs (p.spanFrom t)), p)
        | .quote =>
            (expression fuel).andThen fun inner p =>
              (.ok (.quote inner ⟨some t, inner.span.stop⟩), p)
        | _ => fun p => (atom t, p)

/-- The expressions up to a closing token, which is read too. -/
def expressionsUntil (closer : TokenKind) : Nat → Step (List Node)
  | 0 => fun p => (.error (.atToken .unexpectedEnd (p.current.getD default)), p)
  | fuel + 1 =>
      accept.andThen fun t p =>
        if t.kind = closer then
          (.ok [], p)
        else
          (expression fuel).andThen
            (fun x => (expressionsUntil closer fuel).andThen
              fun xs p' => (.ok (x :: xs), p')) p.hold

end

/-- A bound on the steps that the rest of the text can need: two for each token and a few for
its end. -/
def budget (p : Parser) : Nat := 2 * p.lexer.rest.length + 6

/-- The next expression, or the first fault in it. -/
def parseExpr (p : Parser) : Except SyntaxError Node × Parser :=
  expression p.budget p

/-- The expressions up to the end of the input. -/
def expressions : Nat → Step (List Node)
  | 0 => fun p => (.error (.atToken .unexpectedEnd (p.current.getD default)), p)
  | fuel + 1 =>
      fun p =>
        let (ended, p') := p.atEnd
        if ended then
          (.ok [], p')
        else
          Step.andThen parseExpr
            (fun x => (expressions fuel).andThen fun xs p'' => (.ok (x :: xs), p'')) p'

/-- One expression that is the whole text. -/
def whole : Step Node :=
  Step.andThen parseExpr fun x p =>
    let (t, p') := p.pull
    match t.kind with
    | .endOfInput => (.ok x, p')
    | .fault => (.error (.atToken (.lexical t.textOrEmpty) t), p')
    | kind => (.error (.atToken (.trailingToken kind) t), p')

end Parser

/-- Reads a text that is one expression. -/
def parse (source : String) : Except SyntaxError Node :=
  (Parser.whole (Parser.ofText source)).1

/-- Reads a text that is a sequence of expressions. -/
def parseMany (source : String) : Except SyntaxError (List Node) :=
  (Parser.expressions (source.length + 2) (Parser.ofText source)).1

/-- The node of a parse: the expression read, or an error in its place. -/
def nodeOf : Except SyntaxError Node → Node
  | .ok x => x
  | .error e => e.toNode

end HostedLisp
