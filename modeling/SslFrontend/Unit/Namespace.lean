import SslFrontend.Symbol.Variable

/-! # Namespaces

The variables of a scope are packed into slots of four bytes, in the order they
are declared; an array takes a slot for each element.  Every slot of a variable
starts with its initial value; a variable without one, and one that another
script owns, starts with zero.  A scope without variables has no namespace.
Main statement: a namespace has as many bytes as its slots take
(`layout_length`).
-/

namespace SslFrontend

/-- What a namespace belongs to. -/
inductive NamespaceOwner where
  | unit
  | procedure (index : Nat)
deriving DecidableEq, Repr

def NamespaceOwner.text : NamespaceOwner → String
  | .unit => "the global scope"
  | .procedure index => s!"procedure #{index}"

inductive LayoutError where
  /-- The scope has no variables. -/
  | empty (owner : NamespaceOwner)
  | unknownProcedure (index : Nat)
deriving DecidableEq, Repr

def LayoutError.message : LayoutError → String
  | .empty owner => s!"{owner.text} declares no variables and has no namespace"
  | .unknownProcedure index => s!"no procedure with index {index}"

/-- Width of a slot in bytes. -/
def slotWidth : Nat := 4

namespace Variable

/-- The bytes that each slot of the variable starts with. -/
def slot (v : Variable) : List UInt8 :=
  if v.scope = .importVar ∨ v.initialized = false then Value.wordBytes 0 else v.value.bytes

theorem slot_length (v : Variable) : v.slot.length = slotWidth := by
  unfold slot
  split <;> rfl

/-- All slots of the variable. -/
def bytes (v : Variable) : List UInt8 := (List.replicate v.slotCount v.slot).flatten

theorem bytes_length (v : Variable) : v.bytes.length = v.slotCount * slotWidth := by
  simp [bytes, slot_length]

end Variable

/-- Number of slots that variables take together. -/
def slotTotal : List Variable → Nat
  | [] => 0
  | v :: rest => v.slotCount + slotTotal rest

theorem flatMap_bytes_length (vars : List Variable) :
    (vars.flatMap Variable.bytes).length = slotTotal vars * slotWidth := by
  induction vars with
  | nil => rfl
  | cons v rest ih =>
      rw [List.flatMap_cons, List.length_append, ih, Variable.bytes_length, slotTotal,
        Nat.add_mul]

/-- Packed storage of a scope. -/
structure Namespace where
  bytes : List UInt8
deriving DecidableEq, Repr

namespace Namespace

def layout (vars : List Variable) : Option Namespace :=
  if vars.isEmpty then none else some ⟨vars.flatMap Variable.bytes⟩

def size (ns : Namespace) : Nat := ns.bytes.length

theorem layout_eq_none_iff (vars : List Variable) : layout vars = none ↔ vars = [] := by
  simp [layout]

theorem layout_length {vars : List Variable} {ns : Namespace} (h : layout vars = some ns) :
    ns.size = slotTotal vars * slotWidth := by
  unfold layout at h
  split at h
  · exact absurd h (by simp)
  · rw [← Option.some.inj h]
    exact flatMap_bytes_length vars

end Namespace

end SslFrontend
