import SslFrontend.Code.Value
import SslFrontend.Source.Position

/-! # Variables

A variable of the unit, or a parameter or local of a procedure.  An array has a
positive length; a scalar has length zero and takes one slot.
-/

namespace SslFrontend

inductive VarScope where
  | localVar
  | globalVar
  | importVar
  | exportVar
deriving DecidableEq, Repr

namespace VarScope

/-- The number by which a host knows a scope. -/
def tag : VarScope → Nat
  | .localVar => 1
  | .globalVar => 2
  | .importVar => 3
  | .exportVar => 4

/-- Whether the variable belongs to the unit. -/
def isGlobal (scope : VarScope) : Bool := scope != .localVar

end VarScope

structure Variable where
  name : Handle
  scope : VarScope
  /-- The initial value; zero when there is none. -/
  value : Value
  arrayLength : Nat
  declared : Position
  /-- Number of mentions that do not declare it. -/
  uses : Nat
  initialized : Bool
  /-- Every mention, in the order of the text. -/
  references : List Site
deriving DecidableEq, Repr

namespace Variable

def fresh (name : Handle) (scope : VarScope) (declared : Position) : Variable :=
  ⟨name, scope, .int 0, 0, declared, 0, false, []⟩

/-- Number of slots the variable takes. -/
def slotCount (v : Variable) : Nat := max v.arrayLength 1

theorem slotCount_pos (v : Variable) : 0 < v.slotCount := by unfold slotCount; omega

def withValue (v : Variable) : Option Value → Variable
  | some value => { v with value := value, initialized := true }
  | none => v

end Variable

end SslFrontend
