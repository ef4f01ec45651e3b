import SslFrontend.Parser.Procedure
import SslFrontend.Reference.Usage
import SslFrontend.Token.Stream

/-! # Script modules

A module is a run of items: procedures, variables of the unit, and statements,
which are its `main` code.  When all items are read, pending names are resolved,
all code is rewritten to what the names stand for, and every use is checked
against the finished table.
-/

namespace SslFrontend

namespace Parse

/-- An item of a module; the code of a statement is the answer. -/
def item : Parse Code := do
  let q ← qualifiers
  match ← kind with
  | .keyword .kwProcedure =>
    procedure q
    return []
  | .keyword .kwVariable => variableDeclaration .top q
  | _ =>
    if q.isEmpty then statement .top
    else throw (.expected "`variable` or `procedure`" (← cursor))

/-- The item at the cursor, behind the code of those before it. -/
def itemRound (code : Code) : Parse (Code ⊕ Code) := do
  let c ← cursor
  if c.atEnd then return .inr code
  let code ←
    match ← attempt item with
    | .ok more => pure (code ++ more)
    | .error e =>
      report e.diagnostic
      recover (KindSet.statementBoundary.union .itemStart)
      pure code
  if (← cursor).position = c.position then discard advance
  return .inl code

/-- All items through the end of the input. -/
def items : Parse Code := repeatRounds itemRound []

end Parse

/-- The code of a module before its names are resolved. -/
structure Draft where
  main : Code
  table : SymbolTable
  ledger : Ledger
  pending : Pending
  problems : Queue

namespace ParserState

def start (stream : TokenStream) : ParserState :=
  ⟨.start stream.tokens stream.eof, .empty, .empty, .empty, stream.problems⟩

end ParserState

/-- Read every item of a stream. -/
def TokenStream.draft (stream : TokenStream) : Draft :=
  match Parse.items (.start stream) with
  | .ok main s => ⟨main, s.table, s.ledger, s.pending, s.problems⟩
  | .error e s => ⟨[], s.table, s.ledger, s.pending, s.problems.push e.diagnostic⟩

structure Module where
  procs : List Procedure
  vars : List Variable
  strings : Pool
  main : Code
  files : FileTable

/-- A module and everything there is to say about it, sorted by position. -/
structure Parsed where
  module : Module
  diagnostics : List Diagnostic

namespace Trigger

/-- Resolve the names of a condition. -/
def resolved (found : List (Option Symbol)) : Trigger → Trigger
  | .conditional condition => .conditional (condition.resolved found)
  | trigger => trigger

end Trigger

namespace Procedure

def resolved (found : List (Option Symbol)) (p : Procedure) : Procedure :=
  { p with body := p.body.resolved found, trigger := p.trigger.resolved found }

end Procedure

namespace SymbolTable

/-- Resolve the names in all bodies and conditions. -/
def resolved (table : SymbolTable) (found : List (Option Symbol)) : SymbolTable :=
  { table with
    procs := table.procs.map (·.resolved found)
    discarded := table.discarded.map (·.resolved found) }

/-- What is wrong with the uses in a procedure and its condition. -/
def procedureProblems (table : SymbolTable) (scope : ScopeId) (p : Procedure) :
    List Diagnostic :=
  table.useProblems (some scope) p.body ++
    table.useProblems none (p.trigger.condition?.getD [])

/-- What is wrong with the uses in a resolved unit. -/
def allUseProblems (table : SymbolTable) (main : Code) : List Diagnostic :=
  table.useProblems none main ++
    (table.procs.mapIdx fun i p => table.procedureProblems (.proc i) p).flatten ++
    (table.discarded.mapIdx fun i p => table.procedureProblems (.discarded i) p).flatten

end SymbolTable

namespace Draft

/-- Resolve all names and check all uses. -/
def finish (draft : Draft) (files : FileTable) : Parsed :=
  let (closed, undefinedProblems) := draft.table.checkDefinitions
  let found := draft.pending.resolutions closed
  let main := draft.main.resolved found
  let table := closed.resolved found
  let problems := undefinedProblems ++ draft.pending.problems closed ++
    table.allUseProblems main
  let ledger := draft.pending.settleAll closed draft.ledger
  let settled := ledger.distribute table
  ⟨⟨settled.procs, settled.vars, settled.strings, main, files⟩,
    Queue.sorted ⟨draft.problems.items ++ problems⟩⟩

end Draft

/-- Parse a stream of tokens. -/
def TokenStream.parse (stream : TokenStream) : Parsed := stream.draft.finish stream.files

end SslFrontend
