import SslFrontend.Code.Node

/-! # Constant folding

Initial values, parameter defaults and trigger times are constants: literals
combined by arithmetic.  A constant is written in postfix code like every
expression and evaluated here on a stack of values; code that holds anything
else, or that is not one expression, has no constant value.

Whole numbers wrap at 32 bits.  A division by zero has no value, and neither
has the one quotient that does not fit.  A whole number beside a binary32
number becomes one.
-/

namespace SslFrontend

namespace Fold

def unary : NodeKind → Value → Option Value
  | .neg, .int n => some (.int (-n))
  | .neg, .float x => some (.float x.neg)
  | .not, .int n => some (.int (if n = 0 then 1 else 0))
  | .bwNot, .int n => some (.int (~~~n))
  | _, _ => none

/-- Whether a quotient of whole numbers exists and fits. -/
def divides (a b : Int32) : Bool := b != 0 && !(a == Int32.minValue && b == -1)

def intOp : NodeKind → Int32 → Int32 → Option Int32
  | .add, a, b => some (a + b)
  | .sub, a, b => some (a - b)
  | .mul, a, b => some (a * b)
  | .div, a, b => if divides a b then some (a / b) else none
  | .mod, a, b => if divides a b then some (a % b) else none
  | .bwAnd, a, b => some (a &&& b)
  | .bwOr, a, b => some (a ||| b)
  | .bwXor, a, b => some (a ^^^ b)
  | _, _, _ => none

def floatOp : NodeKind → Binary32 → Binary32 → Option Binary32
  | .add, a, b => some (a.add b)
  | .sub, a, b => some (a.sub b)
  | .mul, a, b => some (a.mul b)
  | .div, a, b => if b.isZero then none else some (a.div b)
  | _, _, _ => none

def binary (kind : NodeKind) : Value → Value → Option Value
  | .int a, .int b => (intOp kind a b).map .int
  | .int a, .float b => (floatOp kind (.ofInt a.toInt) b).map .float
  | .float a, .int b => (floatOp kind a (.ofInt b.toInt)).map .float
  | .float a, .float b => (floatOp kind a b).map .float
  | _, _ => none

/-- What one node does to the stack, whose top stands first. -/
def step (node : Node) (stack : List Value) : Option (List Value) :=
  match node.kind, stack with
  | .int, _ | .float, _ | .string, _ => some (node.value :: stack)
  | .neg, a :: rest | .not, a :: rest | .bwNot, a :: rest =>
    (unary node.kind a).map (· :: rest)
  | .add, b :: a :: rest | .sub, b :: a :: rest | .mul, b :: a :: rest
  | .div, b :: a :: rest | .mod, b :: a :: rest | .bwAnd, b :: a :: rest
  | .bwOr, b :: a :: rest | .bwXor, b :: a :: rest =>
    (binary node.kind a b).map (· :: rest)
  | _, _ => none

def run : Code → List Value → Option (List Value)
  | [], stack => some stack
  | node :: rest, stack => (step node stack).bind (run rest)

theorem run_append (first second : Code) (stack : List Value) :
    run (first ++ second) stack = (run first stack).bind (run second) := by
  induction first generalizing stack with
  | nil => rfl
  | cons node rest ih =>
      cases hs : step node stack with
      | none => simp [run, hs]
      | some after => simp [run, hs, ih]

end Fold

/-- The value of a constant expression. -/
def Code.constant? (code : Code) : Option Value :=
  match Fold.run code [] with
  | some [value] => some value
  | _ => none

end SslFrontend
