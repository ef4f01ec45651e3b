import SslFrontend.Number.Binary32
import SslFrontend.Source.Position

/-! # Tokens

A token is a literal, a name, a keyword, a mark (punctuation or operator), an
include directive, a stretch of invalid text, or the end of the input.  Kinds
are told apart by `index`, which leaves payloads out; keywords and marks are
numbered in the order of their lists.  Main statement: two kinds with the same
index differ at most in their payload (`index_eq_iff`).
-/

namespace SslFrontend

inductive Keyword where
  | kwVariable | kwProcedure | kwImport | kwExport | kwCritical | kwPure | kwInline
  | kwIn | kwWhen | kwBegin | kwEnd | kwIf | kwThen | kwElse | kwWhile | kwDo | kwFor
  | kwReturn | kwBreak | kwContinue | kwCall | kwAnd | kwOr | kwNot | kwMod
  | kwBwAnd | kwBwOr | kwBwXor | kwBwNot | kwTrue | kwFalse
deriving DecidableEq, Repr

namespace Keyword

def all : List Keyword :=
  [kwVariable, kwProcedure, kwImport, kwExport, kwCritical, kwPure, kwInline, kwIn, kwWhen,
    kwBegin, kwEnd, kwIf, kwThen, kwElse, kwWhile, kwDo, kwFor, kwReturn, kwBreak, kwContinue,
    kwCall, kwAnd, kwOr, kwNot, kwMod, kwBwAnd, kwBwOr, kwBwXor, kwBwNot, kwTrue, kwFalse]

theorem mem_all (word : Keyword) : word ∈ all := by cases word <;> decide

/-- The keyword in lower case. -/
def spelling : Keyword → String
  | kwVariable => "variable" | kwProcedure => "procedure" | kwImport => "import"
  | kwExport => "export" | kwCritical => "critical" | kwPure => "pure"
  | kwInline => "inline" | kwIn => "in" | kwWhen => "when" | kwBegin => "begin"
  | kwEnd => "end" | kwIf => "if" | kwThen => "then" | kwElse => "else"
  | kwWhile => "while" | kwDo => "do" | kwFor => "for" | kwReturn => "return"
  | kwBreak => "break" | kwContinue => "continue" | kwCall => "call" | kwAnd => "and"
  | kwOr => "or" | kwNot => "not" | kwMod => "mod" | kwBwAnd => "bwand"
  | kwBwOr => "bwor" | kwBwXor => "bwxor" | kwBwNot => "bwnot" | kwTrue => "true"
  | kwFalse => "false"

def position (word : Keyword) : Nat := all.idxOf word

theorem position_lt (word : Keyword) : word.position < 31 := by cases word <;> decide

theorem all_position (word : Keyword) : all[word.position]? = some word := by
  cases word <;> rfl

theorem position_inj {v w : Keyword} (h : v.position = w.position) : v = w := by
  have hv := all_position v
  rw [h, all_position w] at hv
  exact (Option.some.inj hv).symm

/-- A keyword is written in any mix of letter cases. -/
def ofWord? (word : List Char) : Option Keyword :=
  all.find? fun keyword => keyword.spelling.toList == word.map Char.toLower

end Keyword

inductive Mark where
  | lparen | rparen | lbracket | rbracket | lbrace | rbrace | comma | semicolon | atSign
  | assign | eq | plusAssign | minusAssign | starAssign | slashAssign | plusPlus | minusMinus
  | eqEq | notEq | lt | ltEq | gt | gtEq | plus | minus | star | slash | percent | bang
  | ampAmp | pipePipe
deriving DecidableEq, Repr

namespace Mark

def all : List Mark :=
  [lparen, rparen, lbracket, rbracket, lbrace, rbrace, comma, semicolon, atSign, assign, eq,
    plusAssign, minusAssign, starAssign, slashAssign, plusPlus, minusMinus, eqEq, notEq, lt,
    ltEq, gt, gtEq, plus, minus, star, slash, percent, bang, ampAmp, pipePipe]

theorem mem_all (mark : Mark) : mark ∈ all := by cases mark <;> decide

def spelling : Mark → String
  | lparen => "(" | rparen => ")" | lbracket => "[" | rbracket => "]"
  | lbrace => "\x7b" | rbrace => "\x7d" | comma => "," | semicolon => ";" | atSign => "@"
  | assign => ":=" | eq => "=" | plusAssign => "+=" | minusAssign => "-="
  | starAssign => "*=" | slashAssign => "/=" | plusPlus => "++" | minusMinus => "--"
  | eqEq => "==" | notEq => "!=" | lt => "<" | ltEq => "<=" | gt => ">" | gtEq => ">="
  | plus => "+" | minus => "-" | star => "*" | slash => "/" | percent => "%" | bang => "!"
  | ampAmp => "&&" | pipePipe => "||"

def position (mark : Mark) : Nat := all.idxOf mark

theorem position_lt (mark : Mark) : mark.position < 31 := by cases mark <;> decide

theorem all_position (mark : Mark) : all[mark.position]? = some mark := by
  cases mark <;> rfl

theorem position_inj {v w : Mark} (h : v.position = w.position) : v = w := by
  have hv := all_position v
  rw [h, all_position w] at hv
  exact (Option.some.inj hv).symm

end Mark

inductive TokenKind where
  | int (n : Int32)
  | float (x : Binary32)
  | str (text : String)
  | ident (name : String)
  | keyword (word : Keyword)
  | mark (sign : Mark)
  /-- An include directive and the path it names. -/
  | included (path : String)
  /-- Text that is no token, which the lexer has reported. -/
  | invalid
  | eof
deriving DecidableEq, Repr, Inhabited

namespace TokenKind

/-- The number of a kind, whatever its payload. -/
def index : TokenKind → Nat
  | int _ => 0
  | float _ => 1
  | str _ => 2
  | ident _ => 3
  | keyword word => 4 + word.position
  | mark sign => 35 + sign.position
  | included _ => 66
  | invalid => 67
  | eof => 75

/-- The greatest index of a kind. -/
def maxIndex : Nat := 75

theorem index_le (kind : TokenKind) : kind.index ≤ maxIndex := by
  unfold maxIndex
  cases kind with
  | keyword word => have := word.position_lt; simp only [index]; omega
  | mark sign => have := sign.position_lt; simp only [index]; omega
  | _ => simp only [index]; omega

/-- The kind without its payload. -/
def bare : TokenKind → TokenKind
  | int _ => int 0
  | float _ => float ⟨0⟩
  | str _ => str ""
  | ident _ => ident ""
  | included _ => included ""
  | kind => kind

theorem index_bare (kind : TokenKind) : kind.bare.index = kind.index := by
  cases kind <;> rfl

theorem index_eq_iff (j k : TokenKind) : j.index = k.index ↔ j.bare = k.bare := by
  constructor
  · intro h
    cases j with
    | keyword v =>
        have := v.position_lt
        cases k with
        | keyword w =>
            have hpos : v.position = w.position := by simp only [index] at h; omega
            rw [Keyword.position_inj hpos]
        | mark w => simp only [index] at h; omega
        | _ => simp only [index] at h; omega
    | mark v =>
        have := v.position_lt
        cases k with
        | keyword w =>
            have := w.position_lt
            simp only [index] at h; omega
        | mark w =>
            have hpos : v.position = w.position := by simp only [index] at h; omega
            rw [Mark.position_inj hpos]
        | _ => simp only [index] at h; omega
    | _ =>
        cases k with
        | keyword w =>
            have := w.position_lt
            simp only [index] at h; omega
        | mark w =>
            have := w.position_lt
            simp only [index] at h; omega
        | _ => simp_all [index, bare]
  · intro h
    rw [← index_bare j, h, index_bare]

/-- How messages name a kind of token. -/
def friendlyName : TokenKind → String
  | int _ => "integer literal"
  | float _ => "float literal"
  | str _ => "string literal"
  | ident _ => "identifier"
  | keyword word => word.spelling
  | mark sign => sign.spelling
  | included _ => "#include"
  | invalid => "invalid token"
  | eof => "end of file"

def isIdent : TokenKind → Bool
  | ident _ => true
  | _ => false

/-- Every kind without its payload. -/
def representatives : List TokenKind :=
  [int 0, float ⟨0⟩, str "", ident ""] ++ Keyword.all.map keyword ++ Mark.all.map mark ++
    [included "", invalid, eof]

def ofFriendlyName? (name : String) : Option TokenKind :=
  representatives.find? (·.friendlyName == name)

end TokenKind

structure Token where
  kind : TokenKind
  pos : Position
deriving DecidableEq, Repr, Inhabited

end SslFrontend
