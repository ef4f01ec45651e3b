import SslFrontend.Reference.Ledger

/-! # Pending names

A name that is not declared when the parser meets it waits until the end of the
unit.  All its mentions in one context share a place in the list of pending
names, and stand in the code as `Ident` nodes with that place.  At the end each
pending name is looked up in the finished table: its mentions become uses of
the symbol found, or it is reported once, at its first mention.
-/

namespace SslFrontend

structure PendingName where
  name : String
  /-- The procedure whose body mentions the name; none for top-level code and
  for headers. -/
  context : Option ScopeId
  /-- Sequence number and position of every mention. -/
  sites : List (Nat × Position)
deriving DecidableEq, Repr

structure Pending where
  names : List PendingName
deriving DecidableEq, Repr

namespace Pending

def empty : Pending := ⟨[]⟩

def matchesKey (name : String) (context : Option ScopeId) (p : PendingName) : Bool :=
  p.name == name && p.context == context

def addSite (number : Nat) (pos : Position) (p : PendingName) : PendingName :=
  { p with sites := p.sites ++ [(number, pos)] }

/-- Add a mention; the result is the place of its name. -/
def mention (pending : Pending) (name : String) (context : Option ScopeId) (number : Nat)
    (pos : Position) : Nat × Pending :=
  match pending.names.findIdx? (matchesKey name context) with
  | some place => (place, ⟨pending.names.modify place (addSite number pos)⟩)
  | none => (pending.names.length, ⟨pending.names ++ [⟨name, context, [(number, pos)]⟩]⟩)

/-- The node that stands for a pending name. -/
def node (place : Nat) (pos : Position) : Node := ⟨.ident, .ofIndex place, pos⟩

/-- What each pending name turns out to be. -/
def resolutions (pending : Pending) (table : SymbolTable) : List (Option Symbol) :=
  pending.names.map fun p => table.lookup p.context p.name

/-- Enter the mentions of one pending name as uses of its symbol. -/
def settle (table : SymbolTable) (ledger : Ledger) (p : PendingName) : Ledger :=
  match table.lookup p.context p.name with
  | some symbol =>
    p.sites.foldl (fun ledger (number, pos) => ledger.recordAt number symbol pos .use) ledger
  | none => ledger

/-- Enter the mentions of every pending name that is declared. -/
def settleAll (pending : Pending) (table : SymbolTable) (ledger : Ledger) : Ledger :=
  pending.names.foldl (settle table) ledger

/-- The report on a name that nothing declares. -/
def problem? (table : SymbolTable) (p : PendingName) : Option Diagnostic :=
  match table.lookup p.context p.name, p.sites with
  | none, (_, first) :: _ => some (.undeclared first p.name)
  | _, _ => none

def problems (pending : Pending) (table : SymbolTable) : List Diagnostic :=
  pending.names.filterMap (problem? table)

end Pending

/-- The resolution of a node: an `Ident` becomes the symbol it stands for, or an
error. -/
def Node.resolved (found : List (Option Symbol)) (node : Node) : Node :=
  if node.kind = .ident then
    match node.value.index?.bind fun place => (found[place]?).join with
    | some symbol => symbol.toNode node.pos
    | none => ⟨.error, node.value, node.pos⟩
  else node

/-- Whether a node takes the procedure before it as its operand, so that the
procedure is not called there. -/
def NodeKind.takesCallee : NodeKind → Bool
  | .call | .procAddr | .store | .storeIndex => true
  | _ => false

/-- Resolve every node.  A procedure that nothing takes is called without
arguments. -/
def Code.resolved (found : List (Option Symbol)) : Code → Code
  | [] => []
  | node :: rest =>
    let first := node.resolved found
    let taken := (rest.head?.map fun next => next.kind.takesCallee).getD false
    if first.kind.isCallable && !taken then
      first :: ⟨.call, .int 0, first.pos⟩ :: Code.resolved found rest
    else
      first :: Code.resolved found rest

end SslFrontend
