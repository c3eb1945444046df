import HostedLisp.Source.Token

namespace HostedLisp

/-- White space between tokens; a comma counts as a space. -/
def isGap (c : Char) : Bool :=
  c == ' ' || c == '\t' || c == ',' || c == '\r' || c == '\n'

/-- Characters that begin an identifier. -/
def isNameStart (c : Char) : Bool :=
  ('A' ≤ c && c ≤ 'Z') || ('a' ≤ c && c ≤ 'z') || c == '_'

/-- Characters that continue an identifier. -/
def isNamePart (c : Char) : Bool :=
  isNameStart c || ('0' ≤ c && c ≤ '9') || c == '-'

/-- Characters that continue a number; how many points it has is not looked at here. -/
def isNumeralPart (c : Char) : Bool :=
  ('0' ≤ c && c ≤ '9') || c == '.'

/-- Characters that begin a number. -/
def isNumeralStart (c : Char) : Bool :=
  ('0' ≤ c && c ≤ '9') || c == '-'

def punctuation? : Char → Option TokenKind
  | '(' => some .parenOpen
  | '{' => some .parenOpen
  | ')' => some .parenClose
  | '}' => some .parenClose
  | '[' => some .bracketOpen
  | ']' => some .bracketClose
  | '~' => some .quote
  | '.' => some .dot
  | '/' => some .slash
  | _ => none

/-- The kind of a word: three words are literals, all others identifiers. -/
def wordKind (word : List Char) : TokenKind :=
  if word = "true".toList ∨ word = "false".toList then .boolean
  else if word = "null".toList then .null
  else .identifier

/-- The character that an escape letter stands for. -/
def unescape? : Char → Option Char
  | '\\' => some '\\'
  | '\'' => some '\''
  | 'n' => some '\n'
  | 'r' => some '\r'
  | 't' => some '\t'
  | _ => none

/-- The outcome of reading the inside of a string: its text with the number of characters read
and those left, or a fault with the same account of the characters. -/
inductive Scan where
  | closed (text : List Char) (length : Nat) (rest : List Char)
  | stopped (fault : LexicalFault) (length : Nat) (rest : List Char)
deriving Repr

/-- Puts one decoded character, written with `length` characters, in front of a scan. -/
def Scan.cons (c : Char) (length : Nat) : Scan → Scan
  | closed text n rest => closed (c :: text) (n + length) rest
  | stopped fault n rest => stopped fault (n + length) rest

/-- The characters that a scan leaves. -/
def Scan.rest : Scan → List Char
  | closed _ _ rest => rest
  | stopped _ _ rest => rest

/-- Reads a string after its opening quote. An unknown escape stops before its letter. -/
def scanString : List Char → Scan
  | [] => .stopped .unterminatedString 0 []
  | c :: rest =>
      if c = '\'' then
        .closed [] 1 rest
      else if c = '\\' then
        match rest with
        | [] => .stopped .unterminatedString 1 []
        | e :: rest' =>
            match unescape? e with
            | some d => (scanString rest').cons d 2
            | none => .stopped (.unknownEscape e) 1 (e :: rest')
      else
        (scanString rest).cons c 1

/-- Reads a raw string after its opening mark; nothing in it is an escape. -/
def scanRawString : List Char → Scan
  | [] => .stopped .unterminatedRawString 0 []
  | c :: rest => if c = '\x60' then .closed [] 1 rest else (scanRawString rest).cons c 1

/-- A lexer: the characters not yet read, the offset of the first of them, and the offset at
which the latest token began. -/
structure Lexer where
  rest : List Char
  position : Nat
  lastStart : Nat
deriving Repr, DecidableEq

namespace Lexer

def ofText (source : String) : Lexer := ⟨source.toList, 0, 0⟩

/-- Skips the gap in front of the next token. -/
def skipGap (lx : Lexer) : Lexer :=
  { lx with
    rest := lx.rest.dropWhile isGap
    position := lx.position + (lx.rest.takeWhile isGap).length }

/-- Leaves `rest` after a token of the given length that began at the lexer's position. -/
def advance (lx : Lexer) (length : Nat) (rest : List Char) : Lexer :=
  ⟨rest, lx.position + length, lx.position⟩

/-- A number: its first character, the digits and points after it, and an optional suffix for
its kind. Without one, a point makes it a decimal. -/
def numeral (lx : Lexer) (c : Char) (rest : List Char) : Token × Lexer :=
  let body := c :: rest.takeWhile isNumeralPart
  let token (kind : TokenKind) : Token := ⟨lx.position, kind, some (String.ofList body)⟩
  match rest.dropWhile isNumeralPart with
  | 'd' :: after => (token .double, lx.advance (body.length + 1) after)
  | 'f' :: after => (token .float, lx.advance (body.length + 1) after)
  | after =>
      (token (if body.contains '.' then .decimal else .integer), lx.advance body.length after)

/-- A word, which is an identifier or one of three literals. -/
def word (lx : Lexer) (c : Char) (rest : List Char) : Token × Lexer :=
  let body := c :: rest.takeWhile isNamePart
  (⟨lx.position, wordKind body, some (String.ofList body)⟩,
    lx.advance body.length (rest.dropWhile isNamePart))

/-- The token of a scan whose opening character stands at the lexer's position. -/
def ofScan (lx : Lexer) : Scan → Token × Lexer
  | .closed text length rest =>
      (⟨lx.position, .string, some (String.ofList text)⟩, lx.advance (length + 1) rest)
  | .stopped fault length rest =>
      (fault.token (lx.position + length + 1), lx.advance (length + 1) rest)

/-- The token that begins at the first character left, which is no gap. -/
def lexeme (lx : Lexer) : Token × Lexer :=
  match lx.rest with
  | [] => (⟨lx.position, .endOfInput, none⟩, lx)
  | c :: rest =>
      match punctuation? c with
      | some kind => (⟨lx.position, kind, some c.toString⟩, lx.advance 1 rest)
      | none =>
          if isNameStart c then lx.word c rest
          else if isNumeralStart c then lx.numeral c rest
          else if c = '\'' then lx.ofScan (scanString rest)
          else if c = '\x60' then lx.ofScan (scanRawString rest)
          else
            ((LexicalFault.unexpectedCharacter c lx.position).token lx.position,
              lx.advance 0 (c :: rest))

/-- The next token and the lexer after it. An unexpected character stays unread, and after the
end of the input every call answers the end again. -/
def next (lx : Lexer) : Token × Lexer :=
  lx.skipGap.lexeme

theorem length_dropWhile_le (p : Char → Bool) (s : List Char) :
    (s.dropWhile p).length ≤ s.length :=
  (List.dropWhile_suffix p).length_le

theorem length_rest_skipGap_le (lx : Lexer) : lx.skipGap.rest.length ≤ lx.rest.length :=
  length_dropWhile_le isGap lx.rest

theorem Scan.rest_cons (c : Char) (n : Nat) (s : Scan) : (s.cons c n).rest = s.rest := by
  cases s <;> rfl

theorem length_rest_scanString_le (s : List Char) : (scanString s).rest.length ≤ s.length := by
  fun_induction scanString s with
  | case1 => simp [Scan.rest]
  | case2 => simp [Scan.rest]
  | case3 => simp [Scan.rest]
  | case4 c e rest' d hc ih =>
      rw [Scan.rest_cons]
      simp only [List.length_cons]
      omega
  | case5 => simp [Scan.rest]
  | case6 c rest hq hb ih =>
      rw [Scan.rest_cons]
      simp only [List.length_cons]
      omega

theorem length_rest_scanRawString_le (s : List Char) :
    (scanRawString s).rest.length ≤ s.length := by
  fun_induction scanRawString s with
  | case1 => simp [Scan.rest]
  | case2 => simp [Scan.rest]
  | case3 c rest hc ih =>
      rw [Scan.rest_cons]
      simp only [List.length_cons]
      omega

theorem rest_ofScan (lx : Lexer) (s : Scan) : (lx.ofScan s).2.rest = s.rest := by
  cases s <;> rfl

theorem length_rest_numeral_le (lx : Lexer) (c : Char) (rest : List Char) :
    (lx.numeral c rest).2.rest.length ≤ rest.length := by
  have h := length_dropWhile_le isNumeralPart rest
  unfold numeral
  split <;> simp_all [advance] <;> omega

theorem length_rest_lexeme_lt {lx : Lexer} (h : lx.lexeme.1.isFinal = false) :
    lx.lexeme.2.rest.length < lx.rest.length := by
  unfold lexeme at h ⊢
  split at h
  · simp [Token.isFinal] at h
  · rename_i c rest hrest
    simp only [hrest, List.length_cons] at h ⊢
    split
    · simp [advance]
    · split
      · have := length_dropWhile_le isNamePart rest
        simp only [word, advance]
        omega
      · split
        · have := length_rest_numeral_le lx c rest
          omega
        · split
          · rw [rest_ofScan]
            have := length_rest_scanString_le rest
            omega
          · split
            · rw [rest_ofScan]
              have := length_rest_scanRawString_le rest
              omega
            · simp_all [Token.isFinal, LexicalFault.token]

theorem length_rest_next_lt {lx : Lexer} (h : lx.next.1.isFinal = false) :
    lx.next.2.rest.length < lx.rest.length :=
  Nat.lt_of_lt_of_le (length_rest_lexeme_lt h) lx.length_rest_skipGap_le

/-- All tokens up to the end of the input or the first fault, which is included. -/
def tokens (lx : Lexer) : List Token :=
  if _final : lx.next.1.isFinal = true then
    [lx.next.1]
  else
    lx.next.1 :: lx.next.2.tokens
termination_by lx.rest.length
decreasing_by exact length_rest_next_lt (by simpa using _final)

/-- The lexer after reading all tokens up to the end of the input or the first fault. -/
def afterTokens (lx : Lexer) : Lexer :=
  if _final : lx.next.1.isFinal = true then
    lx.next.2
  else
    lx.next.2.afterTokens
termination_by lx.rest.length
decreasing_by exact length_rest_next_lt (by simpa using _final)

end Lexer

def tokenize (source : String) : List Token :=
  (Lexer.ofText source).tokens

end HostedLisp
