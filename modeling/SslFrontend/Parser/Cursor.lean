import SslFrontend.Token.KindSet

/-! # Token cursor

A cursor stands in a stream of tokens that ends in an end of file.  The tokens
still to be read are a list; behind them the end of file repeats for ever, so
that every look ahead has an answer and reading never runs out.
-/

namespace SslFrontend

structure Cursor where
  /-- Tokens not yet read. -/
  rest : List Token
  /-- Position of the end of file behind them. -/
  eof : Position
  /-- Number of tokens read. -/
  position : Nat
  /-- Position of the token read last. -/
  last? : Option Position
deriving DecidableEq, Repr, Inhabited

namespace Cursor

def start (tokens : List Token) (eof : Position) : Cursor := ⟨tokens, eof, 0, none⟩

def current (c : Cursor) : Token := c.rest.headD ⟨.eof, c.eof⟩

def kind (c : Cursor) : TokenKind := c.current.kind

def pos (c : Cursor) : Position := c.current.pos

def atEnd (c : Cursor) : Bool := c.kind == .eof

/-- Position of the token read last; before the first one, of the current
token. -/
def previousPos (c : Cursor) : Position := c.last?.getD c.pos

/-- Kind of the token so many places ahead. -/
def peek (c : Cursor) (offset : Nat) : TokenKind :=
  (c.rest[offset]?.map Token.kind).getD .eof

/-- Whether the current token is of a kind, whatever its payload. -/
def check (c : Cursor) (kind : TokenKind) : Bool := c.kind.index == kind.index

/-- Read the current token; an end of file stays. -/
def advance (c : Cursor) : Cursor :=
  match c.rest with
  | [] => c
  | token :: rest =>
    if token.kind = .eof then c
    else ⟨rest, c.eof, c.position + 1, some token.pos⟩

/-- Read as many tokens as a test holds of. -/
def skipWhile (c : Cursor) (p : Token → Bool) : Cursor :=
  let taken := c.rest.takeWhile p
  ⟨c.rest.drop taken.length, c.eof, c.position + taken.length,
    (taken.getLast?.map Token.pos).or c.last?⟩

/-- Whether reading goes on past a token when a set of kinds is looked for. -/
def passes (set : KindSet) (token : Token) : Bool :=
  token.kind != .eof && !set.contains token.kind

/-- Read up to the first token of a set of kinds, or the end of file. -/
def synchronize (c : Cursor) (set : KindSet) : Cursor := c.skipWhile (passes set)

/-- Whether a token of a set of kinds comes before the end of file. -/
def finds (c : Cursor) (set : KindSet) : Bool := !(c.synchronize set).atEnd

/-- Whether a token opens a block. -/
def opens : TokenKind → Bool
  | .keyword .kwBegin | .mark .lbrace => true
  | _ => false

/-- Whether a token closes a block. -/
def closes : TokenKind → Bool
  | .keyword .kwEnd | .mark .rbrace => true
  | _ => false

/-- Number of tokens through the one that closes the outermost of `depth`
blocks. -/
def blockLength : Nat → List Token → Nat
  | _, [] => 0
  | depth, token :: rest =>
    if token.kind = .eof then 0
    else if opens token.kind then 1 + blockLength (depth + 1) rest
    else if closes token.kind then
      if depth ≤ 1 then 1 else 1 + blockLength (depth - 1) rest
    else 1 + blockLength depth rest

/-- Read a block with the blocks inside it, from its opening token. -/
def skipBlock (c : Cursor) : Cursor :=
  let taken := c.rest.take (blockLength 0 c.rest)
  ⟨c.rest.drop taken.length, c.eof, c.position + taken.length,
    (taken.getLast?.map Token.pos).or c.last?⟩

theorem advance_rest_length_lt {c : Cursor} (h : c.atEnd = false) :
    c.advance.rest.length < c.rest.length := by
  obtain ⟨rest, eof, position, last⟩ := c
  cases rest with
  | nil => simp [atEnd, kind, current] at h
  | cons token more =>
      have hkind : token.kind ≠ .eof := by
        intro heq
        simp [atEnd, kind, current, heq] at h
      simp [advance, hkind]

theorem advance_position_le (c : Cursor) : c.position ≤ c.advance.position := by
  unfold advance
  split
  · exact Nat.le_refl _
  · split <;> simp

theorem skipWhile_rest_length_le (c : Cursor) (p : Token → Bool) :
    (c.skipWhile p).rest.length ≤ c.rest.length := by
  simp only [skipWhile, List.length_drop]
  omega

theorem drop_takeWhile (p : Token → Bool) (tokens : List Token) :
    tokens.drop (tokens.takeWhile p).length = tokens.dropWhile p := by
  induction tokens with
  | nil => rfl
  | cons token rest ih => by_cases h : p token <;> simp [h, ih]

/-- Where reading stops, the test fails. -/
theorem skipWhile_stops (c : Cursor) (p : Token → Bool) {token : Token} {more : List Token}
    (h : (c.skipWhile p).rest = token :: more) : p token = false := by
  have hrest : c.rest.dropWhile p = token :: more := by
    rw [← drop_takeWhile]; exact h
  have hnot := List.head?_dropWhile_not p c.rest
  rw [hrest] at hnot
  simpa using hnot

end Cursor

end SslFrontend
