import SslFrontend.Code.Node

/-! # Stack discipline of postfix code

Postfix code is read from left to right.  A node of an expression takes its
operands from a stack and puts one value back; a node that ends or frames a
statement takes the last of its operands and leaves the stack empty.  Frames of
`If` and `Loop` are kept on a stack of their own, each with the part of it that
is being read.

`Stack.run` reads code and is stuck where the stack underflows, where a
statement leaves a value behind, and where a marker does not fit the frame it
stands in.
-/

namespace SslFrontend

/-- How many values a node of an expression takes, to put one back; none for a
node that is no part of an expression. -/
def Node.operands? (node : Node) : Option Nat :=
  match node.kind with
  | .int | .float | .string | .globalVar | .localVar | .proc | .builtin | .error => some 0
  | .neg | .not | .bwNot | .procAddr => some 1
  | .add | .sub | .mul | .div | .mod | .and | .or | .bwAnd | .bwOr | .bwXor
  | .eq | .ne | .lt | .le | .gt | .ge | .index => some 2
  | .call => node.value.index?.map (· + 1)
  | _ => none

/-- How many values a node of a statement takes; it puts none back. -/
def Node.consumed? (node : Node) : Option Nat :=
  match node.kind with
  | .store => some 2
  | .storeIndex => some 3
  | .pop | .branch | .loopCond => some 1
  | .otherwise | .endBranch | .loop | .loopStep | .endLoop | .leave | .next => some 0
  | .ret =>
    if node.value = .int 0 then some 0
    else if node.value = .int 1 then some 1
    else none
  | _ => none

theorem Node.operands?_of_consumed? {node : Node} {count : Nat}
    (h : node.consumed? = some count) : node.operands? = none := by
  unfold Node.consumed? at h
  unfold Node.operands?
  revert h
  cases node.kind <;> simp

/-- The part of an `If` or a `Loop` that is being read. -/
inductive Frame where
  | thenPart
  | elsePart
  /-- The condition of a loop. -/
  | head
  | body
  | stepPart
deriving DecidableEq, Repr

namespace Frame

/-- Whether the innermost loop is in its body, so that it can be left. -/
def inLoopBody : List Frame → Bool
  | .body :: _ => true
  | .thenPart :: rest | .elsePart :: rest => inLoopBody rest
  | _ => false

/-- The frames after a node of a statement, the innermost first.  No statement
stands in the condition of a loop. -/
def after? : NodeKind → List Frame → Option (List Frame)
  | .loopCond, .head :: rest => some (.body :: rest)
  | .loopCond, _ | _, .head :: _ => none
  | .branch, frames => some (.thenPart :: frames)
  | .otherwise, .thenPart :: rest => some (.elsePart :: rest)
  | .endBranch, .thenPart :: rest | .endBranch, .elsePart :: rest => some rest
  | .loop, frames => some (.head :: frames)
  | .loopStep, .body :: rest => some (.stepPart :: rest)
  | .endLoop, .body :: rest | .endLoop, .stepPart :: rest => some rest
  | .otherwise, _ | .endBranch, _ | .loopStep, _ | .endLoop, _ => none
  | .leave, frames | .next, frames => if inLoopBody frames then some frames else none
  | _, frames => some frames

/-- Frames in which statements may stand, in the body of a loop or not. -/
structure Admit (inLoop : Bool) (frames : List Frame) : Prop where
  /-- No statement stands in the condition of a loop. -/
  head : frames.head? ≠ some .head
  loop : inLoop = true → inLoopBody frames = true

namespace Admit

variable {inLoop : Bool} {frames : List Frame}

theorem thenPart (h : Admit inLoop frames) : Admit inLoop (.thenPart :: frames) :=
  ⟨by simp, h.loop⟩

theorem elsePart (h : Admit inLoop frames) : Admit inLoop (.elsePart :: frames) :=
  ⟨by simp, h.loop⟩

theorem body (frames : List Frame) : Admit true (.body :: frames) := ⟨by simp, fun _ => rfl⟩

theorem stepPart (frames : List Frame) : Admit false (.stepPart :: frames) :=
  ⟨by simp, by simp⟩

theorem nil : Admit false [] := ⟨by simp, by simp⟩

theorem after? (h : Admit inLoop frames) {kind : NodeKind}
    (hkind : kind = .pop ∨ kind = .store ∨ kind = .storeIndex ∨ kind = .ret) :
    Frame.after? kind frames = some frames := by
  have hhead := h.head
  rcases frames with _ | ⟨frame, rest⟩
  · rcases hkind with rfl | rfl | rfl | rfl <;> rfl
  · cases frame with
    | head => exact absurd rfl hhead
    | _ => rcases hkind with rfl | rfl | rfl | rfl <;> rfl

theorem after?_jump (h : Admit true frames) {kind : NodeKind}
    (hkind : kind = .leave ∨ kind = .next) : Frame.after? kind frames = some frames := by
  have hloop := h.loop rfl
  have hhead := h.head
  rcases frames with _ | ⟨frame, rest⟩
  · exact absurd hloop (by decide)
  · cases frame with
    | head => exact absurd rfl hhead
    | _ => rcases hkind with rfl | rfl <;> simp [Frame.after?, hloop]

theorem after?_branch (h : Admit inLoop frames) :
    Frame.after? .branch frames = some (.thenPart :: frames) := by
  have hhead := h.head
  rcases frames with _ | ⟨frame, rest⟩
  · rfl
  · cases frame with
    | head => exact absurd rfl hhead
    | _ => rfl

theorem after?_loop (h : Admit inLoop frames) :
    Frame.after? .loop frames = some (.head :: frames) := by
  have hhead := h.head
  rcases frames with _ | ⟨frame, rest⟩
  · rfl
  · cases frame with
    | head => exact absurd rfl hhead
    | _ => rfl

end Admit

end Frame

/-- How much is on the stack, and the open frames, the innermost first. -/
structure Stack where
  height : Nat
  frames : List Frame
deriving DecidableEq, Repr

namespace Stack

def empty : Stack := ⟨0, []⟩

/-- What one node does. -/
def step (stack : Stack) (node : Node) : Option Stack :=
  match node.operands?, node.consumed? with
  | some count, _ =>
    if count ≤ stack.height then some ⟨stack.height - count + 1, stack.frames⟩ else none
  | none, some count =>
    if stack.height = count then (Frame.after? node.kind stack.frames).map (Stack.mk 0)
    else none
  | none, none => none

def run (stack : Stack) : Code → Option Stack
  | [] => some stack
  | node :: rest => (stack.step node).bind (run · rest)

theorem run_cons (stack : Stack) (node : Node) (rest : Code) :
    stack.run (node :: rest) = (stack.step node).bind (run · rest) := rfl

theorem run_append (stack : Stack) (first second : Code) :
    stack.run (first ++ second) = (stack.run first).bind (run · second) := by
  induction first generalizing stack with
  | nil => rfl
  | cons node rest ih =>
      cases hs : stack.step node with
      | none => simp [run_cons, hs]
      | some after => simp [run_cons, hs, ih]

theorem run_append_of_run {stack middle : Stack} {first : Code}
    (h : stack.run first = some middle) (second : Code) :
    stack.run (first ++ second) = middle.run second := by
  rw [run_append, h]
  rfl

theorem step_of_operands {node : Node} {count : Nat} (h : node.operands? = some count)
    (height : Nat) (frames : List Frame) :
    (Stack.mk (height + count) frames).step node = some ⟨height + 1, frames⟩ := by
  simp [step, h]

theorem step_push {node : Node} (h : node.operands? = some 0) (height : Nat)
    (frames : List Frame) : (Stack.mk height frames).step node = some ⟨height + 1, frames⟩ :=
  step_of_operands h height frames

theorem step_of_consumed {node : Node} {count : Nat} {frames after : List Frame}
    (hcount : node.consumed? = some count)
    (hframes : Frame.after? node.kind frames = some after) :
    (Stack.mk count frames).step node = some ⟨0, after⟩ := by
  simp [step, Node.operands?_of_consumed? hcount, hcount, hframes]

end Stack

namespace Code

/-- Code of whole statements: it starts and ends with nothing on the stack and
no frame open. -/
def Balanced (code : Code) : Prop := Stack.empty.run code = some .empty

/-- Code of one expression: it leaves one value. -/
def Single (code : Code) : Prop := Stack.empty.run code = some ⟨1, []⟩

instance (code : Code) : Decidable code.Balanced :=
  inferInstanceAs (Decidable (_ = _))

instance (code : Code) : Decidable code.Single :=
  inferInstanceAs (Decidable (_ = _))

end Code

end SslFrontend
