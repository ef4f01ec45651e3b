import SslFrontend.Diagnostic.Basic
import SslFrontend.Symbol.Builtin
import SslFrontend.Symbol.Procedure

/-! # Symbol table

The variables and procedures of a unit, the string space that holds their
names, and the procedures whose bodies are read for their diagnostics only.
Variables and procedures share one name space: a name is looked up as a handle
of the string space, so there is no table beside the declarations that could
disagree with them.  Locals may shadow globals; no name is declared twice in
one scope.
-/

namespace SslFrontend

/-- A procedure whose parameters and locals can be named: one of the unit, or
one whose header was rejected. -/
inductive ScopeId where
  | proc (index : Nat)
  | discarded (index : Nat)
deriving DecidableEq, Repr

inductive Symbol where
  | global (index : Nat)
  | inner (scope : ScopeId) (index : Nat)
  | proc (index : Nat)
  | builtin (index : Nat)
deriving DecidableEq, Repr

namespace Symbol

def nodeKind : Symbol → NodeKind
  | .global _ => .globalVar
  | .inner _ _ => .localVar
  | .proc _ => .proc
  | .builtin _ => .builtin

def index : Symbol → Nat
  | .global i | .inner _ i | .proc i | .builtin i => i

/-- A mention of the symbol in code. -/
def toNode (symbol : Symbol) (pos : Position) : Node :=
  ⟨symbol.nodeKind, .ofIndex symbol.index, pos⟩

end Symbol

structure SymbolTable where
  strings : Pool
  vars : List Variable
  procs : List Procedure
  /-- Procedures of rejected headers. -/
  discarded : List Procedure

namespace SymbolTable

def empty : SymbolTable := ⟨.empty .space, [], [], []⟩

def scope? (table : SymbolTable) : ScopeId → Option Procedure
  | .proc i => table.procs[i]?
  | .discarded i => table.discarded[i]?

def modifyScope (table : SymbolTable) (id : ScopeId) (f : Procedure → Procedure) :
    SymbolTable :=
  match id with
  | .proc i => { table with procs := table.procs.modify i f }
  | .discarded i => { table with discarded := table.discarded.modify i f }

def lookupGlobal (table : SymbolTable) (name : String) : Option Symbol := do
  let handle ← table.strings.find? name
  match table.vars.findIdx? (·.name == handle) with
  | some i => some (.global i)
  | none => (table.procs.findIdx? (·.name == handle)).map .proc

def lookupLocal (table : SymbolTable) (scope : ScopeId) (name : String) : Option Symbol := do
  let procedure ← table.scope? scope
  (procedure.findLocal? name).map (.inner scope)

/-- Locals of the context, then globals. -/
def lookupDeclared (table : SymbolTable) (context : Option ScopeId) (name : String) :
    Option Symbol :=
  (context.bind (table.lookupLocal · name)).or (table.lookupGlobal name)

/-- Locals of the context, then globals, then built-ins. -/
def lookup (table : SymbolTable) (context : Option ScopeId) (name : String) : Option Symbol :=
  (table.lookupDeclared context name).or ((Builtin.find? name).map .builtin)

/-- Name of a symbol, empty for one that the table does not have. -/
def nameOf (table : SymbolTable) : Symbol → String
  | .global i => (table.vars[i]?.map fun v => table.strings.lookup v.name).getD ""
  | .proc i => (table.procs[i]?.map fun p => table.strings.lookup p.name).getD ""
  | .inner scope i => ((table.scope? scope).bind (·.localName? i)).getD ""
  | .builtin i => ((Builtin.get? i).map Builtin.name).getD ""

/-- Where a symbol of the unit was first declared. -/
def siteOf? (table : SymbolTable) : Symbol → Option Position
  | .global i => table.vars[i]?.map Variable.declared
  | .proc i => table.procs[i]?.map Procedure.declared
  | .inner scope i => (table.scope? scope).bind fun p => p.locals[i]?.map Variable.declared
  | .builtin _ => none

def modifyVariable (table : SymbolTable) (symbol : Symbol) (f : Variable → Variable) :
    SymbolTable :=
  match symbol with
  | .global i => { table with vars := table.vars.modify i f }
  | .inner scope i =>
    table.modifyScope scope fun p => { p with locals := p.locals.modify i f }
  | .proc _ | .builtin _ => table

/-- A name that its pool refuses. -/
def refused (pos : Position) (error : PoolError) : Diagnostic :=
  .error .expectedIdentifier s!"cannot record name: {error.message}" pos "here"

/-- Declare a variable of the unit. -/
def declareVar (table : SymbolTable) (name : String) (scope : VarScope) (pos : Position) :
    Except Diagnostic (Symbol × SymbolTable) :=
  match table.lookupGlobal name with
  | some existing =>
    .error (.redeclared pos ((table.siteOf? existing).getD .unknown) name)
  | none =>
    match table.strings.intern name with
    | .error error => .error (refused pos error)
    | .ok (handle, strings) =>
      .ok (.global table.vars.length,
        { table with strings := strings, vars := table.vars ++ [.fresh handle scope pos] })

/-- Declare a parameter or local of a procedure. -/
def declareLocal (table : SymbolTable) (scope : ScopeId) (name : String) (pos : Position) :
    Except Diagnostic (Symbol × SymbolTable) :=
  match table.scope? scope with
  | none => .error (.undeclared pos name)
  | some procedure =>
    match table.lookupLocal scope name with
    | some existing =>
      .error (.redeclared pos ((table.siteOf? existing).getD .unknown) name)
    | none =>
      match procedure.namelist.intern name with
      | .error error => .error (refused pos error)
      | .ok (handle, namelist) =>
        .ok (.inner scope procedure.locals.length,
          table.modifyScope scope fun p =>
            { p with
              namelist := namelist
              locals := p.locals ++ [.fresh handle .localVar pos] })

/-- Declare a variable where a context says: in a procedure, or in the unit. -/
def declareIn (table : SymbolTable) (context : Option ScopeId) (scope : VarScope)
    (name : String) (pos : Position) : Except Diagnostic (Symbol × SymbolTable) :=
  match context with
  | some procedure => table.declareLocal procedure name pos
  | none => table.declareVar name scope pos

end SymbolTable

end SslFrontend
