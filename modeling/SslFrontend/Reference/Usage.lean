import SslFrontend.Reference.Pending

/-! # Uses of symbols

Calls, stores and `@` stand right behind the symbol they use.  Each use must
fit its symbol: a call names a procedure and has as many arguments as the
procedure takes, a store names a variable, and `@` names a procedure of the
script.
-/

namespace SslFrontend

/-- The symbol that a node names in a context. -/
def Node.symbol? (node : Node) (context : Option ScopeId) : Option Symbol :=
  node.value.index?.bind fun index =>
    match node.kind with
    | .globalVar => some (.global index)
    | .localVar => context.map fun scope => .inner scope index
    | .proc => some (.proc index)
    | .builtin => some (.builtin index)
    | _ => none

/-- How many arguments something takes, and where it says so. -/
structure Arity where
  least : Nat
  most : Nat
  declared : Option Position
deriving DecidableEq, Repr

namespace Arity

def admits (arity : Arity) (count : Nat) : Bool := arity.least ≤ count && count ≤ arity.most

def text (arity : Arity) : String :=
  if arity.least = arity.most then s!"{arity.most}" else s!"{arity.least} to {arity.most}"

def problem (arity : Arity) (name : String) (count : Nat) (pos : Position) : Diagnostic :=
  let plural := if arity.most = 1 then "" else "s"
  let verb := if count = 1 then "was" else "were"
  let d := Diagnostic.error .wrongArity
    s!"`{name}` takes {arity.text} argument{plural} but {count} {verb} supplied" pos
    "wrong number of arguments"
  match arity.declared with
  | some site => d.withRelated site "declared here"
  | none => d

end Arity

namespace SymbolTable

/-- The arity of something that can be called. -/
def arity? (table : SymbolTable) : Symbol → Option Arity
  | .proc i => table.procs[i]?.map fun p => ⟨p.minArgs, p.numArgs, some p.declared⟩
  | .builtin i => (Builtin.get? i).map fun b => ⟨b.minArgs, b.maxArgs, none⟩
  | .global _ | .inner _ _ => none

def callProblem? (table : SymbolTable) (symbol : Symbol) (count : Nat) (pos : Position) :
    Option Diagnostic :=
  let name := table.nameOf symbol
  match symbol with
  | .global _ | .inner _ _ =>
    some (.error .notProcedure s!"`{name}` is a variable, not a procedure" pos "called here")
  | .proc _ | .builtin _ =>
    match table.arity? symbol with
    | some arity => if arity.admits count then none else some (arity.problem name count pos)
    | none => none

/-- What is wrong with `user` right behind a mention of `symbol` at `pos`. -/
def useProblem? (table : SymbolTable) (symbol : Symbol) (pos : Position) (user : Node) :
    Option Diagnostic :=
  let name := table.nameOf symbol
  match user.kind, symbol with
  | .call, _ => table.callProblem? symbol (user.value.index?.getD 0) pos
  | .store, .proc _ | .store, .builtin _ | .storeIndex, .proc _ | .storeIndex, .builtin _ =>
    some (.error .badTarget s!"cannot assign to procedure `{name}`" pos "not a variable")
  | .procAddr, .proc _ => none
  | .procAddr, _ =>
    some (.error .notProcedure s!"`@{name}` does not name a script procedure" pos
      "expected a procedure")
  | _, _ => none

/-- Everything that is wrong with the uses in resolved code. -/
def useProblems (table : SymbolTable) (context : Option ScopeId) : Code → List Diagnostic
  | operand :: user :: rest =>
    let found := (operand.symbol? context).bind (table.useProblem? · operand.pos user)
    found.toList ++ table.useProblems context (user :: rest)
  | _ => []

end SymbolTable

end SslFrontend
