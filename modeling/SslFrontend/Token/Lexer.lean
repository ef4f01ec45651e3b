import SslFrontend.Source.FileTable
import SslFrontend.Source.LineMarker
import SslFrontend.Text.Pool
import SslFrontend.Token.Directive
import SslFrontend.Token.LexError
import SslFrontend.Token.Lexeme
import SslFrontend.Token.Quoted

/-! # From text to tokens

`lex` cuts a text into lexemes and reads each of them in turn: blanks and
comments are passed over, line markers move the mapping of lines, and all else
becomes a token.  Reading never fails.  What cannot be read is reported and, if
it stands where a token could, becomes an invalid token.
-/

namespace SslFrontend

/-- A text as tokens.  The end of the text is not among them: it is the
position `eof`. -/
structure Lexed where
  tokens : List Token
  eof : Position
  errors : List LexError
  /-- The file table with every file that a marker names. -/
  files : FileTable

namespace Lexer

/-- How far a text has been read. -/
structure State where
  /-- Physical line and column of the next lexeme. -/
  line : Nat
  column : Nat
  marker : LineMarker
  files : FileTable
  tokens : Array Token
  errors : Array LexError

namespace State

def start (file : FileId) (files : FileTable) : State :=
  ⟨1, 1, .identity file, files, #[], #[]⟩

/-- The mapped position of the next lexeme. -/
def pos (s : State) : Position := s.marker.position (saturate s.line) (saturate s.column)

/-- Pass over a text: a line break starts a new line, and every other character
takes a column. -/
def advance (s : State) (text : List Char) : State :=
  text.foldl
    (fun s c => if c = '\n' then { s with line := s.line + 1, column := 1 }
      else { s with column := s.column + 1 }) s

def emit (s : State) (kind : TokenKind) : State :=
  { s with tokens := s.tokens.push ⟨kind, s.pos⟩ }

def report (s : State) (kind : LexError.Kind) : State :=
  { s with errors := s.errors.push ⟨s.pos, kind⟩ }

/-- Report something that stands where a token could. -/
def reject (s : State) (kind : LexError.Kind) : State := (s.report kind).emit .invalid

end State

/-- The number of an integer literal: a word, read as its two's complement. -/
def intOfWord (n : Nat) : TokenKind := .int (Int32.ofNat n)

def decimal? (text : List Char) : Option TokenKind :=
  (Directive.word? text).map intOfWord

def hexValue (c : Char) : Nat :=
  if Lexeme.isDigit c then c.toNat - '0'.toNat
  else if 'a' ≤ c then c.toNat - 'a'.toNat + 10
  else c.toNat - 'A'.toNat + 10

/-- Hexadecimal digits after `0x`. -/
def hexadecimal? (text : List Char) : Option TokenKind :=
  let n := (text.drop 2).foldl (fun n c => n * 16 + hexValue c) 0
  if maxWord < n then none else some (intOfWord n)

/-- A whole number with an optional sign. -/
def signed (text : List Char) : Int :=
  match text with
  | '+' :: digits => Directive.natOfDigits digits
  | '-' :: digits => -(Directive.natOfDigits digits : Int)
  | digits => Directive.natOfDigits digits

def isExponentMark (c : Char) : Bool := c == 'e' || c == 'E'

/-- Digits, a point, digits and an optional exponent; none if the number is out
of range. -/
def float? (text : List Char) : Option TokenKind :=
  let whole := text.takeWhile Lexeme.isDigit
  let places := (text.drop (whole.length + 1)).takeWhile Lexeme.isDigit
  let exponent := signed ((text.dropWhile (!isExponentMark ·)).drop 1)
  let x := Binary32.ofDecimal (Directive.natOfDigits (whole ++ places))
    (exponent - places.length)
  if x.isFinite then some (.float x) else none

/-- The inside of a string literal. -/
def string? (text : List Char) : Option TokenKind :=
  (Quoted.decode? (text.drop 1).dropLast).map fun chars => .str (String.ofList chars)

def word (text : List Char) : TokenKind :=
  match Keyword.ofWord? text with
  | some keyword => .keyword keyword
  | none => .ident (String.ofList text)

def readDirective (s : State) (text : List Char) : State :=
  match Directive.ofBody (text.drop 1) with
  | .inclusion path =>
    if '\x00' ∈ path then s.report (.malformedDirective "include")
    else s.emit (.included (String.ofList path))
  | .lineMarker line none =>
    { s with marker := s.marker.reset (saturate s.line) line none }
  | .lineMarker line (some name) =>
    let (id, files) := s.files.add ⟨String.ofList name⟩
    { s with marker := s.marker.reset (saturate s.line) line (some id), files := files }
  | .ignored => s
  | .unknown name => s.report (.unknownDirective (String.ofList name))
  | .malformed name => s.report (.malformedDirective (String.ofList name))

def emitOr (s : State) (error : LexError.Kind) : Option TokenKind → State
  | some kind => s.emit kind
  | none => s.reject error

/-- Read one lexeme, which starts at the state's position. -/
def read (s : State) (lexeme : Lexeme) : State :=
  let text := lexeme.text
  match lexeme.cls with
  | .skipped => s
  | .openComment => s.report .unterminatedComment
  | .directive => readDirective s text
  | .decimal => emitOr s (.malformedNumber (String.ofList text)) (decimal? text)
  | .hexadecimal => emitOr s (.malformedNumber (String.ofList text)) (hexadecimal? text)
  | .float => emitOr s (.malformedNumber (String.ofList text)) (float? text)
  | .string => emitOr s .nulInString (string? text)
  | .openString => s.reject .unterminatedString
  | .word => s.emit (word text)
  | .mark sign => s.emit (.mark sign)
  | .stray => s.reject (.invalidChar (text.headD '\x00'))

def step (s : State) (lexeme : Lexeme) : State := (read s lexeme).advance lexeme.text

/-- Read a text as the contents of `file`. -/
def lex (text : String) (file : FileId) (files : FileTable) : Lexed :=
  let last := (Lexeme.chop text.toList).foldl step (.start file files)
  ⟨last.tokens.toList, last.pos, last.errors.toList, last.files⟩

end Lexer

/-- The texts that tokens carry, in order. -/
def TokenKind.text? : TokenKind → Option String
  | .str text | .ident text | .included text => some text
  | _ => none

namespace Lexed

/-- The pool of all texts that tokens carry. -/
def texts (lexed : Lexed) : Pool :=
  (Pool.empty .scratch).internAll (lexed.tokens.filterMap fun token => token.kind.text?)

end Lexed

end SslFrontend
