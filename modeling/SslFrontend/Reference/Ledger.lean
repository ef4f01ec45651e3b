import SslFrontend.Symbol.Table

/-! # Reference ledger

Every mention of a symbol takes a sequence number when the parser reaches it.
What it mentions may become known later, so entries come in any order; a
symbol's references are its entries in the order of their numbers, which is
the order of the text.  Mentions of built-ins are not kept.
-/

namespace SslFrontend

inductive Mention where
  | declaration
  | use
deriving DecidableEq, Repr

structure Entry where
  number : Nat
  symbol : Symbol
  site : Site
  mention : Mention
deriving DecidableEq, Repr

structure Ledger where
  /-- The next sequence number. -/
  next : Nat
  entries : List Entry
deriving DecidableEq, Repr

namespace Ledger

def empty : Ledger := ⟨0, []⟩

/-- Take the next sequence number. -/
def reserve (ledger : Ledger) : Nat × Ledger :=
  (ledger.next, { ledger with next := ledger.next + 1 })

/-- Enter a mention under a number taken before. -/
def recordAt (ledger : Ledger) (number : Nat) (symbol : Symbol) (pos : Position)
    (mention : Mention) : Ledger :=
  match symbol with
  | .builtin _ => ledger
  | _ => { ledger with entries := ledger.entries ++ [⟨number, symbol, pos.site, mention⟩] }

/-- Enter a mention under the next number. -/
def record (ledger : Ledger) (symbol : Symbol) (pos : Position) (mention : Mention) : Ledger :=
  let (number, ledger) := ledger.reserve
  ledger.recordAt number symbol pos mention

/-- All entries in the order of their numbers. -/
def ordered (ledger : Ledger) : List Entry :=
  ledger.entries.mergeSort fun a b => a.number ≤ b.number

/-- Mentions of a symbol. -/
def referencesIn (entries : List Entry) (symbol : Symbol) : List Site :=
  (entries.filter (·.symbol == symbol)).map Entry.site

def usesIn (entries : List Entry) (symbol : Symbol) : Nat :=
  entries.countP fun e => e.symbol == symbol && e.mention == .use

def settleVariable (entries : List Entry) (symbol : Symbol) (v : Variable) : Variable :=
  { v with references := referencesIn entries symbol, uses := usesIn entries symbol }

def settleProcedure (entries : List Entry) (index : Nat) (p : Procedure) : Procedure :=
  { p with
    references := referencesIn entries (.proc index)
    uses := usesIn entries (.proc index)
    locals := p.locals.mapIdx fun k v => settleVariable entries (.inner (.proc index) k) v }

/-- Give every variable and procedure its references and its number of uses. -/
def distribute (ledger : Ledger) (table : SymbolTable) : SymbolTable :=
  let entries := ledger.ordered
  { table with
    vars := table.vars.mapIdx fun i v => settleVariable entries (.global i) v
    procs := table.procs.mapIdx fun i p => settleProcedure entries i p }

theorem ordered_perm (ledger : Ledger) : ledger.ordered.Perm ledger.entries :=
  List.mergeSort_perm _ _

end Ledger

end SslFrontend
