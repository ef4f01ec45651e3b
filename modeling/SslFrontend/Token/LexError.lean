import SslFrontend.Diagnostic.Basic

/-! # Lexical errors

What can be wrong with the text itself.  Each error is one diagnostic of error
severity at its own position.
-/

namespace SslFrontend

inductive LexError.Kind where
  | invalidChar (c : Char)
  | unterminatedString
  | unterminatedComment
  | nulInString
  | malformedNumber (text : String)
  | unknownDirective (name : String)
  | malformedDirective (name : String)
deriving DecidableEq, Repr

structure LexError where
  pos : Position
  kind : LexError.Kind
deriving DecidableEq, Repr

namespace LexError

/-- A character in printable ASCII, escaped where it is not. -/
def escapedChar (c : Char) : String :=
  match c with
  | '\t' => "\\t"
  | '\r' => "\\r"
  | '\n' => "\\n"
  | '\'' => "\\'"
  | '"' => "\\\""
  | '\\' => "\\\\"
  | _ =>
    if ' ' ≤ c && c ≤ '~' then c.toString
    else "\\u\x7b" ++ String.ofList (Nat.toDigits 16 c.toNat) ++ "\x7d"

def Kind.message : Kind → String
  | .invalidChar c => s!"invalid character `{escapedChar c}`"
  | .unterminatedString => "unterminated string literal"
  | .unterminatedComment => "unterminated block comment"
  | .nulInString => "NUL character in string literal"
  | .malformedNumber text => s!"malformed number `{text}`"
  | .unknownDirective name => s!"unknown preprocessor directive `#{name}`"
  | .malformedDirective name => s!"malformed `#{name}` directive"

namespace Kind

def cause : Kind → Cause
  | .invalidChar _ => .invalidCharacter
  | .unterminatedString | .nulInString => .badString
  | .unterminatedComment => .unclosedBlock
  | .malformedNumber _ => .malformedNumber
  | .unknownDirective _ | .malformedDirective _ => .badDirective

def label : Kind → String
  | .invalidChar _ => "not valid here"
  | .unterminatedString | .nulInString => "string starts here"
  | .unterminatedComment => "comment starts here"
  | .malformedNumber _ => "not a 32-bit number"
  | .unknownDirective _ | .malformedDirective _ => "directive ignored"

end Kind

def diagnostic (error : LexError) : Diagnostic :=
  .error error.kind.cause error.kind.message error.pos error.kind.label

theorem diagnostic_isError (error : LexError) : error.diagnostic.isError = true := rfl

theorem diagnostic_pos (error : LexError) : error.diagnostic.pos = error.pos := rfl

end LexError

end SslFrontend
