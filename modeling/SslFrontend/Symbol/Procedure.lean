import SslFrontend.Code.Node
import SslFrontend.Symbol.Variable
import SslFrontend.Token.Kind

/-! # Procedures

A procedure with its modifiers, its trigger, its parameters and locals, and its
code.  Names of parameters and locals live in a pool of the procedure's own.
-/

namespace SslFrontend

inductive Qualifier where
  | imported | exported | critical | pure | inlined
deriving DecidableEq, Repr

namespace Qualifier

def word : Qualifier → String
  | .imported => "import"
  | .exported => "export"
  | .critical => "critical"
  | .pure => "pure"
  | .inlined => "inline"

def ofKeyword? : Keyword → Option Qualifier
  | .kwImport => some .imported
  | .kwExport => some .exported
  | .kwCritical => some .critical
  | .kwPure => some .pure
  | .kwInline => some .inlined
  | _ => none

end Qualifier

/-- A set of qualifiers. -/
structure Modifiers where
  imported : Bool
  exported : Bool
  critical : Bool
  pure : Bool
  inlined : Bool
deriving DecidableEq, Repr

namespace Modifiers

def none : Modifiers := ⟨false, false, false, false, false⟩

def has (m : Modifiers) : Qualifier → Bool
  | .imported => m.imported
  | .exported => m.exported
  | .critical => m.critical
  | .pure => m.pure
  | .inlined => m.inlined

def insert (m : Modifiers) : Qualifier → Modifiers
  | .imported => { m with imported := true }
  | .exported => { m with exported := true }
  | .critical => { m with critical := true }
  | .pure => { m with pure := true }
  | .inlined => { m with inlined := true }

def union (m n : Modifiers) : Modifiers :=
  ⟨m.imported || n.imported, m.exported || n.exported, m.critical || n.critical,
    m.pure || n.pure, m.inlined || n.inlined⟩

def withoutImport (m : Modifiers) : Modifiers := { m with imported := false }

def withoutExport (m : Modifiers) : Modifiers := { m with exported := false }

/-- A symbol cannot be both imported and exported. -/
def conflicts (m : Modifiers) : Bool := m.imported && m.exported

/-- The modifiers as bits for a host. -/
def bits (m : Modifiers) : Nat :=
  m.imported.toNat * 4 + m.exported.toNat * 8 + m.critical.toNat * 16 + m.pure.toNat * 32 +
    m.inlined.toNat * 64

theorem has_insert (m : Modifiers) (p q : Qualifier) :
    (m.insert p).has q = (m.has q || decide (p = q)) := by
  cases p <;> cases q <;> simp [insert, has]

theorem has_union (m n : Modifiers) (q : Qualifier) :
    (m.union n).has q = (m.has q || n.has q) := by
  cases q <;> rfl

end Modifiers

/-- When a procedure runs on its own. -/
inductive Trigger where
  | none
  | timed (time : Int32)
  /-- Runs when a condition, postfix code in global scope, holds. -/
  | conditional (condition : Code)
deriving DecidableEq, Repr

namespace Trigger

def bits : Trigger → Nat
  | .none => 0
  | .timed _ => 1
  | .conditional _ => 2

def time : Trigger → Int32
  | .timed time => time
  | _ => 0

def condition? : Trigger → Option Code
  | .conditional condition => some condition
  | _ => Option.none

/-- What is wrong when a header with one trigger follows a header with
another. -/
def conflict? : Trigger → Trigger → Option String
  | .none, _ | _, .none => Option.none
  | .timed old, .timed new =>
    if old = new then Option.none
    else some s!"is declared with trigger time {old.toInt} and {new.toInt}"
  | .conditional _, .conditional _ => Option.none
  | _, _ => some "has both a timed and a conditional trigger"

/-- A later condition or time replaces an earlier one; no trigger replaces
nothing. -/
def replacedBy (old : Trigger) : Trigger → Trigger
  | .none => old
  | new => new

end Trigger

structure Procedure where
  name : Handle
  trigger : Trigger
  modifiers : Modifiers
  namelist : Pool
  numArgs : Nat
  /-- Number of parameters without a default. -/
  minArgs : Nat
  defined : Bool
  /-- Parameters first, then locals, in the order they are declared. -/
  locals : List Variable
  references : List Site
  /-- Number of mentions in no header. -/
  uses : Nat
  declared : Position
  /-- Where the body opens and closes. -/
  span : Option (Position × Position)
  body : Code

namespace Procedure

def fresh (name : Handle) (namelist : Pool) (declared : Position) : Procedure :=
  ⟨name, .none, .none, namelist, 0, 0, false, [], [], 0, declared, none, []⟩

/-- Modifiers and trigger as bits for a host. -/
def flags (p : Procedure) : Nat := p.modifiers.bits + p.trigger.bits

def findLocal? (p : Procedure) (name : String) : Option Nat := do
  let handle ← p.namelist.find? name
  p.locals.findIdx? (·.name == handle)

/-- Name of a parameter or local. -/
def localName? (p : Procedure) (index : Nat) : Option String :=
  p.locals[index]?.map fun v => p.namelist.lookup v.name

end Procedure

end SslFrontend
