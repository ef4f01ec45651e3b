import SslFrontend.Code.Value
import SslFrontend.Source.Position

/-! # Postfix code

A body is a flat list of nodes in postfix order: operands stand before their
operator, and statements are framed by marker nodes.  The tree is implied by
the arity of each node, which is what a stack machine consumes.
-/

namespace SslFrontend

inductive NodeKind where
  | int | float | string
  /-- A name that is not resolved yet. -/
  | ident
  | globalVar | localVar | proc | builtin
  /-- A name that nothing declares. -/
  | error
  | add | sub | mul | div | mod | neg | not | and | or
  | bwAnd | bwOr | bwXor | bwNot
  | eq | ne | lt | le | gt | ge
  /-- `array index Index`. -/
  | index
  /-- `procedure ProcAddr`. -/
  | procAddr
  /-- `arguments callee Call`, with the number of arguments. -/
  | call
  /-- `value target Store`. -/
  | store
  /-- `value index target StoreIndex`. -/
  | storeIndex
  | pop
  /-- `condition If then [Else else] EndIf`. -/
  | branch | otherwise | endBranch
  /-- `Loop condition LoopCond body [LoopStep step] EndLoop`. -/
  | loop | loopCond | loopStep | endLoop
  /-- `[value] Return`, with 1 when a value precedes it. -/
  | ret
  | leave | next
deriving DecidableEq, Repr, Inhabited

namespace NodeKind

def name : NodeKind → String
  | .int => "Int" | .float => "Float" | .string => "String" | .ident => "Ident"
  | .globalVar => "GlobalVar" | .localVar => "LocalVar" | .proc => "Proc"
  | .builtin => "Builtin" | .error => "Error"
  | .add => "Add" | .sub => "Sub" | .mul => "Mul" | .div => "Div" | .mod => "Mod"
  | .neg => "Neg" | .not => "Not" | .and => "And" | .or => "Or"
  | .bwAnd => "BwAnd" | .bwOr => "BwOr" | .bwXor => "BwXor" | .bwNot => "BwNot"
  | .eq => "Eq" | .ne => "Ne" | .lt => "Lt" | .le => "Le" | .gt => "Gt" | .ge => "Ge"
  | .index => "Index" | .procAddr => "ProcAddr" | .call => "Call"
  | .store => "Store" | .storeIndex => "StoreIndex" | .pop => "Pop"
  | .branch => "If" | .otherwise => "Else" | .endBranch => "EndIf"
  | .loop => "Loop" | .loopCond => "LoopCond" | .loopStep => "LoopStep"
  | .endLoop => "EndLoop" | .ret => "Return" | .leave => "Break" | .next => "Continue"

def all : List NodeKind :=
  [.int, .float, .string, .ident, .globalVar, .localVar, .proc, .builtin, .error,
    .add, .sub, .mul, .div, .mod, .neg, .not, .and, .or, .bwAnd, .bwOr, .bwXor, .bwNot,
    .eq, .ne, .lt, .le, .gt, .ge, .index, .procAddr, .call, .store, .storeIndex, .pop,
    .branch, .otherwise, .endBranch, .loop, .loopCond, .loopStep, .endLoop, .ret,
    .leave, .next]

theorem mem_all (kind : NodeKind) : kind ∈ all := by
  cases kind <;> decide

def ofName? (text : String) : Option NodeKind := all.find? (·.name == text)

/-- Whether the node names a symbol, resolved or not. -/
def isSymbol : NodeKind → Bool
  | .ident | .globalVar | .localVar | .proc | .builtin | .error => true
  | _ => false

/-- Whether the node's value is part of its text. -/
def showsValue : NodeKind → Bool
  | .int | .float | .string | .call | .ret => true
  | kind => kind.isSymbol

/-- Whether the node can be called. -/
def isCallable : NodeKind → Bool
  | .proc | .builtin => true
  | _ => false

end NodeKind

structure Node where
  kind : NodeKind
  value : Value
  pos : Position
deriving DecidableEq, Repr, Inhabited

namespace Node

/-- A node without a value of its own. -/
def op (kind : NodeKind) (pos : Position) : Node := ⟨kind, .int 0, pos⟩

def text (node : Node) : String :=
  if node.kind.showsValue then s!"{node.kind.name}({node.value.text})" else node.kind.name

end Node

/-- A run of postfix code. -/
abbrev Code := List Node

namespace Code

def kinds (code : Code) : List NodeKind := code.map Node.kind

/-- The nodes separated by blanks. -/
def text (code : Code) : String := " ".intercalate (code.map Node.text)

end Code

end SslFrontend
