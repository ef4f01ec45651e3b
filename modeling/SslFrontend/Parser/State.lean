import SslFrontend.Diagnostic.Queue
import SslFrontend.Parser.Cursor
import SslFrontend.Reference.Pending
import SslFrontend.Symbol.Header

/-! # Parser state

A production reads tokens, declares and mentions symbols, reports problems, and
answers with the code it read or with an error.  An error leaves everything
else as it stands: what was read stays read and what was declared stays
declared; only the code of the failed production is lost.

Repetition is bounded by the number of tokens that are left, since every round
of it reads one.
-/

namespace SslFrontend

structure ParseError where
  cause : Cause
  message : String
  pos : Position
  /-- Label of the position. -/
  context : Option String
  help : List String
deriving DecidableEq, Repr

namespace ParseError

def diagnostic (e : ParseError) : Diagnostic :=
  ⟨e.cause, .error, e.message, [⟨e.pos, e.context.getD "here", true⟩], e.help⟩

theorem diagnostic_pos (e : ParseError) : e.diagnostic.pos = e.pos := rfl

/-- Something else was expected at the cursor. -/
def expected (what : String) (c : Cursor) : ParseError :=
  ⟨.unexpectedToken, s!"expected {what}, found `{c.kind.friendlyName}`", c.pos,
    some s!"expected {what}", []⟩

/-- A block that the input leaves open. -/
def unclosed (opener : Token) (what : String) : ParseError :=
  ⟨.unclosedBlock, s!"unclosed {what} opened on line {opener.pos.line}", opener.pos,
    some s!"this `{opener.kind.friendlyName}` is never closed", []⟩

/-- A repetition that stopped reading tokens. -/
def stalled (c : Cursor) : ParseError :=
  ⟨.unexpectedToken, "no progress", c.pos, none, []⟩

end ParseError

structure ParserState where
  cursor : Cursor
  table : SymbolTable
  ledger : Ledger
  pending : Pending
  problems : Queue

/-- A production of the grammar. -/
abbrev Parse := EStateM ParseError ParserState

/-- Where a statement stands. -/
structure Context where
  /-- The procedure whose body is read. -/
  scope : Option ScopeId
  /-- Whether a loop of the same body encloses the statement. -/
  inLoop : Bool
deriving DecidableEq, Repr

/-- Outside every procedure. -/
def Context.top : Context := ⟨none, false⟩

namespace Parse

def cursor : Parse Cursor := return (← get).cursor

def kind : Parse TokenKind := return (← get).cursor.kind

def pos : Parse Position := return (← get).cursor.pos

def moveCursor (f : Cursor → Cursor) : Parse Unit :=
  modify fun s => { s with cursor := f s.cursor }

/-- Read the current token. -/
def advance : Parse Token := do
  let token := (← cursor).current
  moveCursor Cursor.advance
  return token

def check (kind : TokenKind) : Parse Bool := return (← cursor).check kind

/-- Read the current token if it is of a kind. -/
def eat (kind : TokenKind) : Parse Bool := do
  if ← check kind then
    moveCursor Cursor.advance
    return true
  else
    return false

/-- Read the current token, which must be of a kind. -/
def expect (kind : TokenKind) : Parse Token := do
  if ← check kind then advance
  else throw (.expected s!"`{kind.friendlyName}`" (← cursor))

/-- Read a name. -/
def expectIdent : Parse (String × Position) := do
  let c ← cursor
  match c.kind with
  | .ident name =>
    moveCursor Cursor.advance
    return (name, c.pos)
  | found =>
    throw ⟨.expectedIdentifier, s!"expected identifier, found `{found.friendlyName}`", c.pos,
      some "expected identifier", []⟩

def report (d : Diagnostic) : Parse Unit :=
  modify fun s => { s with problems := s.problems.push d }

def reportAll (ds : List Diagnostic) : Parse Unit :=
  modify fun s => { s with problems := ⟨s.problems.items ++ ds⟩ }

def table : Parse SymbolTable := return (← get).table

def setTable (table : SymbolTable) : Parse Unit :=
  modify fun s => { s with table := table }

/-- Take a number for a mention that is entered later. -/
def reserve : Parse Nat := do
  let s ← get
  let (number, ledger) := s.ledger.reserve
  set { s with ledger := ledger }
  return number

def recordAt (number : Nat) (symbol : Symbol) (pos : Position) (mention : Mention) :
    Parse Unit :=
  modify fun s => { s with ledger := s.ledger.recordAt number symbol pos mention }

def record (symbol : Symbol) (pos : Position) (mention : Mention) : Parse Unit :=
  modify fun s => { s with ledger := s.ledger.record symbol pos mention }

/-- The node for a name in an expression or as a target.  A name that is
declared is bound at once; any other waits for the end of the unit. -/
def mention (scope : Option ScopeId) (name : String) (pos : Position) : Parse Node := do
  match (← table).lookupDeclared scope name with
  | some symbol =>
    record symbol pos .use
    return symbol.toNode pos
  | none =>
    let number ← reserve
    let s ← get
    let (place, pending) := s.pending.mention name scope number pos
    set { s with pending := pending }
    return Pending.node place pos

/-- Run a production and hand its error back as a value. -/
def attempt (p : Parse α) : Parse (Except ParseError α) := fun s =>
  match p s with
  | .ok a s => .ok (.ok a) s
  | .error e s => .ok (.error e) s

/-- Run rounds until one is the last, but not more than so many. -/
def rounds (round : α → Parse (α ⊕ β)) : Nat → α → Parse β
  | 0, _ => do throw (.stalled (← cursor))
  | bound + 1, a => do
    match ← round a with
    | .inl next => rounds round bound next
    | .inr last => return last

/-- Run rounds, each of which reads a token, until one is the last. -/
def repeatRounds (round : α → Parse (α ⊕ β)) (a : α) : Parse β := do
  rounds round ((← cursor).rest.length + 1) a

/-- Skip to where a malformed piece of text ends, with its semicolon. -/
def recover (boundary : KindSet) : Parse Unit := do
  moveCursor (·.synchronize boundary)
  discard <| eat (.mark .semicolon)

end Parse

end SslFrontend
