import SslFrontend.Text.Blank
import SslFrontend.Source.Position
import SslFrontend.Token.Lexeme

/-! # Directives

Three kinds of lines are left by a preprocessor: includes that it was told not
to expand, line markers, and lines for somebody else.  `ofBody` reads the text
after the `#`.
-/

namespace SslFrontend

inductive Directive where
  | inclusion (path : List Char)
  /-- The next line is line `line`, of `file` if one is named. -/
  | lineMarker (line : Nat) (file : Option (List Char))
  | ignored
  | unknown (name : List Char)
  /-- A directive whose arguments cannot be read. -/
  | malformed (name : List Char)
deriving DecidableEq, Repr

namespace Directive

/-- The text between a leading pair of quotes or angle brackets. -/
def quoted? : List Char → Option (List Char)
  | '"' :: rest => upTo? '"' rest
  | '<' :: rest => upTo? '>' rest
  | _ => none
where
  upTo? (close : Char) (text : List Char) : Option (List Char) :=
    if text.contains close then some (text.takeWhile (· != close)) else none

/-- The number that digits write, leading zeros allowed. -/
def natOfDigits (digits : List Char) : Nat :=
  digits.foldl (fun n c => n * 10 + (c.toNat - '0'.toNat)) 0

/-- The number that decimal digits write, if there are any and it is a word. -/
def word? (digits : List Char) : Option Nat :=
  let n := natOfDigits digits
  if digits.isEmpty || maxWord < n then none else some n

/-- `N`, then a quoted file and anything, or nothing. -/
def ofMarker (args name : List Char) : Directive :=
  let digits := args.takeWhile Lexeme.isDigit
  match word? digits, Text.trimStart (args.drop digits.length) with
  | none, _ => .malformed name
  | some line, [] => .lineMarker line none
  | some line, rest =>
    match quoted? rest with
    | some file => .lineMarker line (some file)
    | none => .malformed name

def includeWord : List Char := "include".toList
def lineWord : List Char := "line".toList
def silentWords : List (List Char) := ["pragma".toList, "ident".toList]

def ofBody (body : List Char) : Directive :=
  let body := Text.trim body
  match body with
  | [] => .ignored
  | first :: _ =>
    if Lexeme.isDigit first then ofMarker body ['#']
    else
      let name := body.takeWhile Lexeme.isWordChar
      let rest := Text.trim (body.drop name.length)
      if name = includeWord then
        match quoted? rest with
        | some (c :: path) => .inclusion (c :: path)
        | _ => .malformed includeWord
      else if name = lineWord then ofMarker rest lineWord
      else if name ∈ silentWords then .ignored
      else .unknown name

end Directive

end SslFrontend
