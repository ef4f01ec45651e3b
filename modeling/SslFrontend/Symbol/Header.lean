import SslFrontend.Symbol.Table

/-! # Procedure headers

A procedure may have any number of headers.  One without a body announces it;
one with a body defines it, once.  Each header adds its modifiers and may bring
a trigger; parameters must agree in number.  The parameters that count are
those of the definition, or of the first header while there is none.

`declare` merges a header into the table and says what to do with the text that
follows it.  Problems are returned in the order they were found.
-/

namespace SslFrontend

structure Param where
  name : String
  pos : Position
  default : Option Value
deriving DecidableEq, Repr

namespace Param

/-- Parameters before the first one with a default. -/
def required (params : List Param) : Nat :=
  (params.takeWhile (·.default.isNone)).length

theorem required_le (params : List Param) : required params ≤ params.length :=
  (List.takeWhile_sublist _).length_le

end Param

structure Header where
  name : String
  pos : Position
  modifiers : Modifiers
  trigger : Trigger
  params : List Param
  hasBody : Bool

/-- What follows from a header. -/
inductive Verdict where
  /-- The body defines this procedure. -/
  | define (index : Nat)
  /-- The header announces this procedure. -/
  | announce (index : Nat)
  /-- The header stands for nothing.  It names this procedure, if it names one. -/
  | reject (named : Option Nat)
deriving DecidableEq, Repr

structure Declared where
  verdict : Verdict
  table : SymbolTable
  problems : List Diagnostic

namespace Header

def importWithBody (header : Header) : Diagnostic :=
  (Diagnostic.error .importWithBody
    s!"imported procedure `{header.name}` cannot have a body" header.pos
    "defined here").withNote "import procedures are defined by another script"

/-- Both `import` and `export` in one header: a body drops the import, and a
header without a body drops the export. -/
def settleScope (header : Header) : Header × List Diagnostic :=
  if header.modifiers.conflicts then
    let kept :=
      if header.hasBody then header.modifiers.withoutImport
      else header.modifiers.withoutExport
    ({ header with modifiers := kept },
      [.error .scopeConflict s!"`{header.name}` is declared both import and export"
        header.pos "conflicting qualifiers"])
  else (header, [])

/-- A body drops the import. -/
def settleImport (header : Header) : Header × List Diagnostic :=
  if header.hasBody && header.modifiers.imported then
    ({ header with modifiers := header.modifiers.withoutImport }, [header.importWithBody])
  else (header, [])

/-- Rules that need only the header itself. -/
def settle (header : Header) : Header × List Diagnostic :=
  let (header, first) := header.settleScope
  let (settled, second) := header.settleImport
  (settled, first ++ second)

end Header

namespace SymbolTable

def addParam (scope : ScopeId) (state : SymbolTable × List Diagnostic) (param : Param) :
    SymbolTable × List Diagnostic :=
  let (table, problems) := state
  match table.declareLocal scope param.name param.pos with
  | .ok (symbol, table) =>
    (table.modifyVariable symbol (·.withValue param.default), problems)
  | .error problem => (table, problems ++ [problem])

/-- Make a header's parameters the procedure's. -/
def setParams (table : SymbolTable) (scope : ScopeId) (params : List Param) :
    SymbolTable × List Diagnostic :=
  let (table, problems) := params.foldl (addParam scope) (table, [])
  (table.modifyScope scope fun p =>
    { p with numArgs := params.length, minArgs := Param.required params }, problems)

/-- The first header of a name. -/
def declareFirst (table : SymbolTable) (header : Header) : Declared :=
  match table.strings.intern header.name with
  | .error error => ⟨.reject none, table, [refused header.pos error]⟩
  | .ok (handle, strings) =>
    let index := table.procs.length
    let procedure : Procedure :=
      { Procedure.fresh handle (.empty (.namelist index)) header.pos with
        modifiers := header.modifiers
        trigger := header.trigger }
    let (table, problems) :=
      { table with strings := strings, procs := table.procs ++ [procedure] }.setParams
        (.proc index) header.params
    ⟨if header.hasBody then .define index else .announce index, table, problems⟩

/-- A definition of a procedure that is defined already. -/
def redefinition (procedure : Procedure) (header : Header) : Diagnostic :=
  let opened := (procedure.span.map Prod.fst).getD procedure.declared
  (Diagnostic.error .redeclared
    (s!"procedure `{header.name}` defined again on line {header.pos.line}, " ++
      s!"first defined on line {opened.line}")
    header.pos "redefined here").withRelated procedure.declared "first declared here"

def arityProblem (procedure : Procedure) (header : Header) : List Diagnostic :=
  if procedure.numArgs = header.params.length ∧
      procedure.minArgs = Param.required header.params then []
  else
    [(Diagnostic.error .headerMismatch
      (s!"`{header.name}` declared with {procedure.numArgs} parameters " ++
        s!"on line {procedure.declared.line} but {header.params.length} " ++
        s!"on line {header.pos.line}")
      header.pos "parameters differ here").withRelated procedure.declared
        "previous declaration"]

/-- Bring a header's trigger to a procedure. -/
def mergeTrigger (procedure : Procedure) (header : Header) : Trigger × List Diagnostic :=
  match procedure.trigger.conflict? header.trigger with
  | some what =>
    (procedure.trigger,
      [(Diagnostic.error .triggerConflict s!"`{header.name}` {what}" header.pos
        "trigger conflicts").withRelated procedure.declared "previous declaration"])
  | none => (procedure.trigger.replacedBy header.trigger, [])

/-- Add a header's modifiers to a procedure's.  Where both `import` and
`export` would result, the procedure keeps what it had of the two. -/
def mergeModifiers (procedure : Procedure) (header : Header) : Modifiers × List Diagnostic :=
  let merged := procedure.modifiers.union header.modifiers
  if merged.conflicts then
    ({ merged with
        imported := procedure.modifiers.imported
        exported := procedure.modifiers.exported },
      [(Diagnostic.error .scopeConflict
        s!"`{header.name}` is declared both import and export" header.pos
        "conflicting qualifier").withRelated procedure.declared "previous declaration"])
  else (merged, [])

/-- A later header of procedure `index`. -/
def declareAgain (table : SymbolTable) (index : Nat) (procedure : Procedure)
    (header : Header) : Declared :=
  if header.hasBody && procedure.defined then
    ⟨.reject (some index), table, [redefinition procedure header]⟩
  else
    let (trigger, triggerProblems) := mergeTrigger procedure header
    let (modifiers, modifierProblems) := mergeModifiers procedure header
    let problems := arityProblem procedure header ++ triggerProblems ++ modifierProblems
    let update (f : Procedure → Procedure) : SymbolTable := table.modifyScope (.proc index) f
    if header.hasBody then
      let importProblems := if modifiers.imported then [header.importWithBody] else []
      let (table, paramProblems) :=
        (update fun p =>
          { p with
            trigger := trigger
            modifiers := modifiers.withoutImport
            locals := []
            namelist := .empty (.namelist index) }).setParams (.proc index) header.params
      ⟨.define index, table, problems ++ importProblems ++ paramProblems⟩
    else
      ⟨.announce index, update fun p => { p with trigger := trigger, modifiers := modifiers },
        problems⟩

/-- Merge a settled header into the table. -/
def declareSettled (table : SymbolTable) (header : Header) : Declared :=
  match table.lookupGlobal header.name with
  | some (.proc index) =>
    match table.procs[index]? with
    | some procedure => table.declareAgain index procedure header
    | none => ⟨.reject none, table, []⟩
  | some existing =>
    ⟨.reject none, table,
      [.redeclared header.pos ((table.siteOf? existing).getD .unknown) header.name]⟩
  | none => table.declareFirst header

def declare (table : SymbolTable) (header : Header) : Declared :=
  let (settled, problems) := header.settle
  let declared := table.declareSettled settled
  { declared with problems := problems ++ declared.problems }

/-- Open a scope for the body of a rejected header.  Its names never leave the
front end. -/
def declareDiscarded (table : SymbolTable) (header : Header) :
    Except Diagnostic (ScopeId × SymbolTable × List Diagnostic) :=
  match (Pool.empty .scratch).intern header.name with
  | .error error => .error (refused header.pos error)
  | .ok (handle, namelist) =>
    let scope := ScopeId.discarded table.discarded.length
    let opened :=
      { table with
        discarded := table.discarded ++ [Procedure.fresh handle namelist header.pos] }
    let (table, problems) := opened.setParams scope header.params
    .ok (scope, table, problems)

/-- What is wrong with a procedure that never got a body. -/
def undefinedProblem? (name : String) (procedure : Procedure) : Option Diagnostic :=
  if procedure.defined then none
  else if procedure.modifiers.exported then
    some ((Diagnostic.error .exportWithoutBody
      s!"exported procedure `{name}` has no body" procedure.declared
      "declared here").withNote "an exported procedure must be defined in this script")
  else if procedure.modifiers.imported then none
  else
    some (.warning .neverDefined s!"procedure `{name}` is declared but never defined"
      procedure.declared "declared here")

/-- A procedure without a body is not exported. -/
def closeProcedure (procedure : Procedure) : Procedure :=
  if procedure.defined then procedure
  else { procedure with modifiers := procedure.modifiers.withoutExport }

/-- The rules that hold at the end of the unit. -/
def checkDefinitions (table : SymbolTable) : SymbolTable × List Diagnostic :=
  ({ table with procs := table.procs.map closeProcedure },
    table.procs.filterMap fun p => undefinedProblem? (table.strings.lookup p.name) p)

end SymbolTable

end SslFrontend
