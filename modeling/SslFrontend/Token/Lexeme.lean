import SslFrontend.Token.Kind

/-! # Lexemes

The input is cut into lexemes, each the longest that starts where the last one
ended.  Blanks and comments are lexemes like the others, so nothing of the
input is lost.  A character that starts no lexeme stands alone.

`measure` says of which class the next lexeme is and how many characters it
takes after its first.  Main statement: the texts of the lexemes, put together,
are the input (`flatMap_text_chop`).
-/

namespace SslFrontend

inductive Lexeme.Class where
  /-- Blanks, a line break, or a comment. -/
  | skipped
  /-- A block comment that the input ends in. -/
  | openComment
  /-- A `#` and the rest of its line. -/
  | directive
  | decimal | hexadecimal | float
  /-- A string literal with both quotes. -/
  | string
  /-- A string literal that its line ends in. -/
  | openString
  /-- A keyword or a name. -/
  | word
  | mark (sign : Mark)
  /-- A character that starts no lexeme. -/
  | stray
deriving DecidableEq, Repr

structure Lexeme where
  cls : Lexeme.Class
  text : List Char
deriving DecidableEq, Repr

namespace Lexeme

def isSpace (c : Char) : Bool := c == ' ' || c == '\t' || c == '\r' || c == '\x0c'

def isDigit (c : Char) : Bool := '0' ≤ c && c ≤ '9'

def isHexDigit (c : Char) : Bool :=
  isDigit c || 'a' ≤ c && c ≤ 'f' || 'A' ≤ c && c ≤ 'F'

def isWordStart (c : Char) : Bool := 'a' ≤ c && c ≤ 'z' || 'A' ≤ c && c ≤ 'Z' || c == '_'

def isWordChar (c : Char) : Bool := isWordStart c || isDigit c

/-- Length of the longest start of `text` that holds only characters of a class. -/
def run (p : Char → Bool) (text : List Char) : Nat := (text.takeWhile p).length

def restOfLine (text : List Char) : Nat := run (· != '\n') text

/-- Length of a comment's inside with the closing `*/`. -/
def commentLength? : List Char → Option Nat
  | '*' :: '/' :: _ => some 2
  | _ :: rest => (commentLength? rest).map (· + 1)
  | [] => none

/-- Length of an exponent; zero where none is complete. -/
def exponentLength : List Char → Nat
  | mark :: sign :: rest =>
    if mark == 'e' || mark == 'E' then
      if sign == '+' || sign == '-' then
        if run isDigit rest = 0 then 0 else 2 + run isDigit rest
      else if isDigit sign then 1 + run isDigit (sign :: rest)
      else 0
    else 0
  | _ => 0

/-- A number, after its first digit. -/
def measureNumber (first : Char) (rest : List Char) : Class × Nat :=
  let whole := run isDigit rest
  match first, rest with
  | '0', mark :: digits =>
    if (mark == 'x' || mark == 'X') && run isHexDigit digits != 0 then
      (.hexadecimal, 1 + run isHexDigit digits)
    else decimalOrFloat whole
  | _, _ => decimalOrFloat whole
where
  decimalOrFloat (whole : Nat) : Class × Nat :=
    match rest.drop whole with
    | '.' :: tail =>
      let places := run isDigit tail
      (.float, whole + 1 + places + exponentLength (tail.drop places))
    | _ => (.decimal, whole)

/-- A string, after its opening quote: a backslash takes the next character of
the line with it. -/
def measureString : List Char → Class × Nat
  | '"' :: _ => (.string, 1)
  | '\n' :: _ => (.openString, 0)
  | ['\\'] => (.openString, 0)
  | '\\' :: '\n' :: _ => (.openString, 0)
  | '\\' :: _ :: rest =>
    let (cls, length) := measureString rest
    (cls, length + 2)
  | _ :: rest =>
    let (cls, length) := measureString rest
    (cls, length + 1)
  | [] => (.openString, 0)

/-- A mark of one or two characters, the longer one if it is there. -/
def measureMark (first : Char) (rest : List Char) : Option (Mark × Nat) :=
  match first, rest with
  | '(', _ => some (.lparen, 0)
  | ')', _ => some (.rparen, 0)
  | '[', _ => some (.lbracket, 0)
  | ']', _ => some (.rbracket, 0)
  | '{', _ => some (.lbrace, 0)
  | '}', _ => some (.rbrace, 0)
  | ',', _ => some (.comma, 0)
  | ';', _ => some (.semicolon, 0)
  | '@', _ => some (.atSign, 0)
  | ':', '=' :: _ => some (.assign, 1)
  | '=', '=' :: _ => some (.eqEq, 1)
  | '=', _ => some (.eq, 0)
  | '+', '=' :: _ => some (.plusAssign, 1)
  | '+', '+' :: _ => some (.plusPlus, 1)
  | '+', _ => some (.plus, 0)
  | '-', '=' :: _ => some (.minusAssign, 1)
  | '-', '-' :: _ => some (.minusMinus, 1)
  | '-', _ => some (.minus, 0)
  | '*', '=' :: _ => some (.starAssign, 1)
  | '*', _ => some (.star, 0)
  | '/', '=' :: _ => some (.slashAssign, 1)
  | '/', _ => some (.slash, 0)
  | '!', '=' :: _ => some (.notEq, 1)
  | '!', _ => some (.bang, 0)
  | '<', '=' :: _ => some (.ltEq, 1)
  | '<', _ => some (.lt, 0)
  | '>', '=' :: _ => some (.gtEq, 1)
  | '>', _ => some (.gt, 0)
  | '%', _ => some (.percent, 0)
  | '&', '&' :: _ => some (.ampAmp, 1)
  | '|', '|' :: _ => some (.pipePipe, 1)
  | _, _ => none

/-- A comment, after its slash. -/
def measureComment : List Char → Option (Class × Nat)
  | '/' :: line => some (.skipped, 1 + restOfLine line)
  | '*' :: inside =>
    match commentLength? inside with
    | some length => some (.skipped, 1 + length)
    | none => some (.openComment, 1 + inside.length)
  | _ => none

/-- Class of the lexeme that starts with `first`, and the number of characters
it takes after it. -/
def measure (first : Char) (rest : List Char) : Class × Nat :=
  if isSpace first then (.skipped, run isSpace rest)
  else if isWordStart first then (.word, run isWordChar rest)
  else if isDigit first then measureNumber first rest
  else
    match first with
    | '\n' => (.skipped, 0)
    | '#' => (.directive, restOfLine rest)
    | '"' => measureString rest
    | '/' =>
      match measureComment rest with
      | some found => found
      | none => markOrStray first rest
    | _ => markOrStray first rest
where
  markOrStray (first : Char) (rest : List Char) : Class × Nat :=
    match measureMark first rest with
    | some (sign, length) => (.mark sign, length)
    | none => (.stray, 0)

/-- Cut the input into lexemes. -/
def chop : List Char → List Lexeme
  | [] => []
  | first :: rest =>
    let (cls, length) := measure first rest
    ⟨cls, first :: rest.take length⟩ :: chop (rest.drop length)
termination_by text => text.length
decreasing_by simp only [List.length_drop, List.length_cons]; omega

theorem flatMap_text_chop (text : List Char) : (chop text).flatMap Lexeme.text = text := by
  fun_induction chop text with
  | case1 => rfl
  | case2 first rest cls length hm ih =>
      rw [List.flatMap_cons, ih]
      simp [List.take_append_drop]

theorem text_ne_nil_of_mem_chop {text : List Char} {lexeme : Lexeme}
    (h : lexeme ∈ chop text) : lexeme.text ≠ [] := by
  fun_induction chop text with
  | case1 => simp at h
  | case2 first rest cls length hm ih =>
      rcases List.mem_cons.mp h with rfl | hrest
      · simp
      · exact ih hrest

theorem length_chop (text : List Char) : (chop text).length ≤ text.length := by
  fun_induction chop text with
  | case1 => exact Nat.le_refl _
  | case2 first rest cls length hm ih =>
      simp only [List.length_cons, List.length_drop] at ih ⊢
      omega

end Lexeme

end SslFrontend
