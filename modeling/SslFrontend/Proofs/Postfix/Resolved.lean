import SslFrontend.Proofs.Postfix.Shape
import SslFrontend.Proofs.Postfix.Stack

/-! # Resolved code keeps the stack discipline

Resolving puts a symbol or an error in the place of each pending name, and a
call without arguments behind each procedure that nothing takes.  Neither
changes what is on the stack, so code of a known shape runs the way its shape
says, whatever the names turn out to be.
-/

namespace SslFrontend

variable {V : Vocabulary} (found : List (Option Symbol))

/-! ## Single nodes -/

theorem Node.resolved_of_ne_ident {node : Node} (h : node.kind ≠ .ident) :
    node.resolved found = node := by
  simp [Node.resolved, h]

theorem Node.resolved_pos (node : Node) : (node.resolved found).pos = node.pos := by
  unfold Node.resolved
  split
  · split <;> rfl
  · rfl

theorem Node.resolved_kind_of_ident {node : Node} (h : node.kind = .ident) :
    (∃ symbol, (node.resolved found).kind = Symbol.nodeKind symbol) ∨
      (node.resolved found).kind = .error := by
  unfold Node.resolved
  rw [if_pos h]
  split
  · rename_i symbol _
    exact .inl ⟨symbol, rfl⟩
  · exact .inr rfl

theorem Node.resolved_takesCallee (node : Node) :
    (node.resolved found).kind.takesCallee = node.kind.takesCallee := by
  by_cases h : node.kind = .ident
  · rcases Node.resolved_kind_of_ident found h with ⟨symbol, hs⟩ | he
    · rw [hs, h]
      cases symbol <;> rfl
    · rw [he, h]
      rfl
  · rw [Node.resolved_of_ne_ident found h]

theorem Node.operands?_resolved_of_isMention {node : Node} (h : node.kind.isMention = true) :
    (node.resolved found).operands? = some 0 := by
  by_cases hi : node.kind = .ident
  · rcases Node.resolved_kind_of_ident found hi with ⟨symbol, hs⟩ | he
    · unfold Node.operands?
      rw [hs]
      cases symbol <;> rfl
    · unfold Node.operands?
      rw [he]
  · rw [Node.resolved_of_ne_ident found hi]
    unfold Node.operands?
    revert h hi
    cases node.kind <;> simp [NodeKind.isMention]

theorem NodeKind.takesCallee_of_isMention {kind : NodeKind} (h : kind.isMention = true) :
    kind.takesCallee = false := by
  revert h
  cases kind <;> simp [NodeKind.isMention, NodeKind.takesCallee]

theorem NodeKind.takesCallee_of_isLiteral {kind : NodeKind} (h : kind.isLiteral = true) :
    kind.takesCallee = false := by
  revert h
  cases kind <;> simp [NodeKind.isLiteral, NodeKind.takesCallee]

/-! ## Runs of nodes -/

/-- The first node of code, if there is one, takes no callee. -/
def Code.StartsFresh (code : Code) : Prop :=
  ∀ node, code.head? = some node → node.kind.takesCallee = false

theorem Code.StartsFresh.append {first second : Code} (hf : first.StartsFresh)
    (hs : second.StartsFresh) : Code.StartsFresh (first ++ second) := by
  cases first with
  | nil => simpa using hs
  | cons node rest => exact fun n hn => hf n (by simpa using hn)

theorem Code.startsFresh_cons {node : Node} (h : node.kind.takesCallee = false) (rest : Code) :
    Code.StartsFresh (node :: rest) := by
  intro n hn
  obtain rfl : node = n := by simpa using hn
  exact h

/-- Parts of code are resolved apart unless the second one takes a callee out of
the first. -/
theorem Code.resolved_append {first second : Code} (h : second.StartsFresh) :
    Code.resolved found (first ++ second) =
      Code.resolved found first ++ Code.resolved found second := by
  induction first with
  | nil => rfl
  | cons node rest ih =>
      -- Whether a call is put in is decided by the next node, which is in `second`
      -- only for the last node of `first`.
      have htaken : ((rest ++ second).head?.map fun next => next.kind.takesCallee).getD false =
          (rest.head?.map fun next => next.kind.takesCallee).getD false := by
        cases rest with
        | nil =>
            cases hs : second.head? with
            | none => simp [hs]
            | some next => simp [hs, h next hs]
        | cons next more => rfl
      simp only [List.cons_append, Code.resolved, htaken, ih]
      split <;> rfl

theorem Code.resolved_singleton {node : Node} (h : node.kind ≠ .ident)
    (hc : node.kind.isCallable = false) : Code.resolved found [node] = [node] := by
  simp [Code.resolved, Node.resolved_of_ne_ident found h, hc]

theorem Code.resolved_pair (node : Node) {user : Node} (h : user.kind.takesCallee = true) :
    Code.resolved found [node, user] = [node.resolved found, user] := by
  have hident : user.kind ≠ .ident := by
    intro hi
    rw [hi] at h
    exact absurd h (by decide)
  have hcallable : user.kind.isCallable = false := by
    revert h
    cases user.kind <;> simp [NodeKind.takesCallee, NodeKind.isCallable]
  simp [Code.resolved, h, hcallable, Node.resolved_of_ne_ident found hident]

theorem Stack.run_resolved_literal {node : Node} (h : node.kind.isLiteral = true)
    (height : Nat) (frames : List Frame) :
    (Stack.mk height frames).run (Code.resolved found [node]) = some ⟨height + 1, frames⟩ := by
  have hident : node.kind ≠ .ident := by
    intro hi
    rw [hi] at h
    exact absurd h (by decide)
  have hcallable : node.kind.isCallable = false := by
    revert h
    cases node.kind <;> simp [NodeKind.isLiteral, NodeKind.isCallable]
  have hoperands : node.operands? = some 0 := by
    unfold Node.operands?
    revert h
    cases node.kind <;> simp [NodeKind.isLiteral]
  rw [Code.resolved_singleton found hident hcallable, Stack.run_cons,
    Stack.step_push hoperands height frames]
  rfl

theorem Stack.run_resolved_mention {node : Node} (h : node.kind.isMention = true)
    (height : Nat) (frames : List Frame) :
    (Stack.mk height frames).run (Code.resolved found [node]) = some ⟨height + 1, frames⟩ := by
  have hpush := Stack.step_push
    (Node.operands?_resolved_of_isMention found h) height frames
  simp only [Code.resolved, List.head?_nil, Option.map_none, Option.getD_none, Bool.not_false,
    Bool.and_true]
  split
  · have hcall := @Stack.step_of_operands ⟨.call, .int 0, (node.resolved found).pos⟩ 1 rfl
      height frames
    rw [Stack.run_cons, hpush, Option.bind_some, Stack.run_cons, hcall]
    rfl
  · rw [Stack.run_cons, hpush]
    rfl

/-- A mentioned name and an operation of an expression that takes it. -/
theorem Stack.run_resolved_operation {node user : Node} {count : Nat}
    (h : node.kind.isMention = true) (huser : user.kind.takesCallee = true)
    (hcount : user.operands? = some (count + 1)) (height : Nat) (frames : List Frame) :
    (Stack.mk (height + count) frames).run (Code.resolved found [node, user]) =
      some ⟨height + 1, frames⟩ := by
  have hpush := Stack.step_push
    (Node.operands?_resolved_of_isMention found h) (height + count) frames
  have huse := Stack.step_of_operands hcount height frames
  rw [Code.resolved_pair found node huser, Stack.run_cons, hpush, Option.bind_some, Stack.run_cons,
    Nat.add_assoc, huse]
  rfl

theorem Stack.run_resolved_op {op : NodeKind} {pos : Position} {count : Nat}
    (hident : op ≠ .ident) (hcallable : op.isCallable = false)
    (hcount : (Node.op op pos).operands? = some count) (height : Nat) (frames : List Frame) :
    (Stack.mk (height + count) frames).run (Code.resolved found [Node.op op pos]) =
      some ⟨height + 1, frames⟩ := by
  rw [Code.resolved_singleton found hident hcallable, Stack.run_cons,
    Stack.step_of_operands hcount height frames]
  rfl

theorem Stack.run_resolved_statement {node : Node} {count : Nat} {frames after : List Frame}
    (hcount : node.consumed? = some count)
    (hframes : Frame.after? node.kind frames = some after) :
    (Stack.mk count frames).run (Code.resolved found [node]) = some ⟨0, after⟩ := by
  have hplain : node.kind ≠ .ident ∧ node.kind.isCallable = false := by
    unfold Node.consumed? at hcount
    revert hcount
    cases node.kind <;> simp [NodeKind.isCallable]
  rw [Code.resolved_singleton found hplain.1 hplain.2, Stack.run_cons,
    Stack.step_of_consumed hcount hframes]
  rfl

theorem Stack.run_resolved_marker (op : NodeKind) (pos : Position) {count : Nat}
    {frames after : List Frame} (hcount : (Node.op op pos).consumed? = some count)
    (hframes : Frame.after? op frames = some after) :
    (Stack.mk count frames).run (Code.resolved found [Node.op op pos]) = some ⟨0, after⟩ :=
  Stack.run_resolved_statement found hcount hframes

theorem Stack.run_resolved_append {first second : Code} {stack middle last : Stack}
    (h : second.StartsFresh) (hf : stack.run (Code.resolved found first) = some middle)
    (hs : middle.run (Code.resolved found second) = some last) :
    stack.run (Code.resolved found (first ++ second)) = some last := by
  rw [Code.resolved_append found h, Stack.run_append_of_run hf, hs]

theorem Stack.run_resolved_store {target user : Node} {count : Nat} {frames : List Frame}
    (h : target.kind.isMention = true) (huser : user.kind.takesCallee = true)
    (hcount : user.consumed? = some (count + 1))
    (hframes : Frame.after? user.kind frames = some frames) :
    (Stack.mk count frames).run (Code.resolved found [target, user]) = some ⟨0, frames⟩ := by
  have hpush := Stack.step_push
    (Node.operands?_resolved_of_isMention found h) count frames
  rw [Code.resolved_pair found target huser, Stack.run_cons, hpush, Option.bind_some,
    Stack.run_cons, Stack.step_of_consumed hcount hframes]
  rfl

/-! ## Values -/

theorem NodeKind.takesCallee_of_isUnary {kind : NodeKind} (h : kind.isUnary = true) :
    kind.takesCallee = false := by
  revert h
  cases kind <;> simp [NodeKind.isUnary, NodeKind.takesCallee]

theorem NodeKind.takesCallee_of_isBinary {kind : NodeKind} (h : kind.isBinary = true) :
    kind.takesCallee = false := by
  revert h
  cases kind <;> simp [NodeKind.isBinary, NodeKind.takesCallee]

theorem NodeKind.operands?_of_isUnary {kind : NodeKind} (h : kind.isUnary = true)
    (pos : Position) : (Node.op kind pos).operands? = some 1 := by
  revert h
  cases kind <;> simp [NodeKind.isUnary, Node.operands?, Node.op]

theorem NodeKind.operands?_of_isBinary {kind : NodeKind} (h : kind.isBinary = true)
    (pos : Position) : (Node.op kind pos).operands? = some 2 := by
  revert h
  cases kind <;> simp [NodeKind.isBinary, Node.operands?, Node.op]

theorem Values.startsFresh {n : Nat} {code : Code} (h : Values V n code) :
    code.StartsFresh := by
  induction h with
  | nil => exact fun _ hn => by simp at hn
  | literal _ kind _ ih =>
      exact ih.append (Code.startsFresh_cons (NodeKind.takesCallee_of_isLiteral kind) [])
  | name _ kind _ ih | address _ kind _ _ ih | call _ kind _ _ _ ih =>
      exact ih.append (Code.startsFresh_cons (NodeKind.takesCallee_of_isMention kind) _)
  | unary _ kind _ ih =>
      exact ih.append (Code.startsFresh_cons (NodeKind.takesCallee_of_isUnary kind) [])
  | binary _ kind _ ih =>
      exact ih.append (Code.startsFresh_cons (NodeKind.takesCallee_of_isBinary kind) [])

/-- The limit on arguments is one that a call can carry. -/
def Vocabulary.Fits (V : Vocabulary) : Prop := V.limit ≤ Value.maxIndex

theorem Values.run_resolved (hV : V.Fits) {n : Nat} {code : Code} (h : Values V n code)
    (height : Nat) (frames : List Frame) :
    (Stack.mk height frames).run (Code.resolved found code) = some ⟨height + n, frames⟩ := by
  induction h generalizing height with
  | nil => rfl
  | @literal n code node _ kind _ ih =>
      have hfresh := Code.startsFresh_cons (NodeKind.takesCallee_of_isLiteral kind) []
      exact Stack.run_resolved_append found hfresh (ih height)
        (Stack.run_resolved_literal found kind (height + n) frames)
  | @name n code node _ kind _ ih =>
      have hfresh := Code.startsFresh_cons (NodeKind.takesCallee_of_isMention kind) []
      exact Stack.run_resolved_append found hfresh (ih height)
        (Stack.run_resolved_mention found kind (height + n) frames)
  | @address n code node pos _ kind _ _ ih =>
      have hfresh := Code.startsFresh_cons (NodeKind.takesCallee_of_isMention kind)
        [Node.op .procAddr pos]
      have hcount : (Node.op .procAddr pos).operands? = some (0 + 1) := rfl
      exact Stack.run_resolved_append found hfresh (ih height)
        (Stack.run_resolved_operation found kind rfl hcount (height + n) frames)
  | @call n count code callee pos _ kind _ _ bound ih =>
      have hfresh := Code.startsFresh_cons (NodeKind.takesCallee_of_isMention kind)
        [⟨.call, .ofIndex count, pos⟩]
      have hcount : Node.operands? ⟨.call, .ofIndex count, pos⟩ = some (count + 1) := by
        simp only [Node.operands?, Value.index?_ofIndex (Nat.le_trans bound hV),
          Option.map_some]
      refine Stack.run_resolved_append found hfresh (ih height) ?_
      rw [← Nat.add_assoc]
      exact Stack.run_resolved_operation found kind rfl hcount (height + n) frames
  | @unary n code op pos _ kind _ ih =>
      have hfresh := @Code.startsFresh_cons (Node.op op pos)
        (NodeKind.takesCallee_of_isUnary kind) []
      refine Stack.run_resolved_append found hfresh (ih height) ?_
      refine Stack.run_resolved_op found ?_ ?_ (NodeKind.operands?_of_isUnary kind pos)
        (height + n) frames <;>
        (revert kind; cases op <;> simp [NodeKind.isUnary, NodeKind.isCallable])
  | @binary n code op pos _ kind _ ih =>
      have hfresh := @Code.startsFresh_cons (Node.op op pos)
        (NodeKind.takesCallee_of_isBinary kind) []
      refine Stack.run_resolved_append found hfresh (ih height) ?_
      refine Stack.run_resolved_op found ?_ ?_ (NodeKind.operands?_of_isBinary kind pos)
        (height + n) frames <;>
        (revert kind; cases op <;> simp [NodeKind.isBinary, NodeKind.isCallable])

theorem Values.single_resolved (hV : V.Fits) {code : Code} (h : Values V 1 code) :
    (Code.resolved found code).Single :=
  h.run_resolved found hV 0 []

/-! ## Statements -/

theorem Statements.startsFresh {l : Bool} {code : Code} (h : Statements V l code) :
    code.StartsFresh := by
  induction h with
  | nil => exact fun _ hn => by simp at hn
  | append _ _ ih₁ ih₂ => exact ih₁.append ih₂
  | drop operand _ | retValue operand _ =>
      exact operand.startsFresh.append (Code.startsFresh_cons rfl [])
  | store operand kind _ _ | storeIndex operand kind _ _ =>
      exact operand.startsFresh.append
        (Code.startsFresh_cons (NodeKind.takesCallee_of_isMention kind) _)
  | init operand kind _ _ =>
      exact operand.startsFresh.append
        (Code.startsFresh_cons (NodeKind.takesCallee_of_isMention (by rw [kind]; rfl)) _)
  | ret _ => exact Code.startsFresh_cons rfl []
  | jump kind _ =>
      rcases kind with rfl | rfl <;> exact Code.startsFresh_cons rfl []
  | branch operand _ _ _ _ =>
      simp only [List.append_assoc]
      exact operand.startsFresh.append (Code.startsFresh_cons rfl _)
  | branchElse operand _ _ _ _ _ _ _ =>
      simp only [List.append_assoc]
      exact operand.startsFresh.append (Code.startsFresh_cons rfl _)
  | loop _ _ _ _ _ | loopStep _ _ _ _ _ _ _ => exact Code.startsFresh_cons rfl _

theorem Values.run_empty (hV : V.Fits) {n : Nat} {code : Code} (h : Values V n code)
    (frames : List Frame) :
    (Stack.mk 0 frames).run (Code.resolved found code) = some ⟨n, frames⟩ := by
  simpa using h.run_resolved found hV 0 frames

/-- The condition of a branch opens its first part. -/
theorem Values.run_branch (hV : V.Fits) {condition : Code} (h : Values V 1 condition) {l : Bool}
    {frames : List Frame} (hf : Frame.Admit l frames) (first : Position) :
    (Stack.mk 0 frames).run (Code.resolved found (condition ++ [.op .branch first])) =
      some ⟨0, .thenPart :: frames⟩ :=
  Stack.run_resolved_append found (Code.startsFresh_cons rfl []) (h.run_empty found hV frames)
    (Stack.run_resolved_marker found .branch first rfl hf.after?_branch)

/-- The condition of a loop is read in a frame of its own, and opens the body. -/
theorem Values.run_loop (hV : V.Fits) {condition : Code} (h : Values V 1 condition) {l : Bool}
    {frames : List Frame} (hf : Frame.Admit l frames) (first : Position) :
    (Stack.mk 0 frames).run
        (Code.resolved found ([.op .loop first] ++ condition ++ [.op .loopCond first])) =
      some ⟨0, .body :: frames⟩ := by
  have hhead := Stack.run_resolved_append found h.startsFresh
    (Stack.run_resolved_marker found .loop first rfl hf.after?_loop)
    (h.run_empty found hV (.head :: frames))
  exact Stack.run_resolved_append found (Code.startsFresh_cons rfl []) hhead
    (Stack.run_resolved_marker found .loopCond first rfl rfl)

/-- Whole statements leave the stack as empty as they find it, and the frames as
they are. -/
theorem Statements.run_resolved (hV : V.Fits) {l : Bool} {code : Code} (h : Statements V l code)
    {frames : List Frame} (hf : Frame.Admit l frames) :
    (Stack.mk 0 frames).run (Code.resolved found code) = some ⟨0, frames⟩ := by
  have hvalue : ∀ {n : Nat} {value : Code} (frames : List Frame), Values V n value →
      (Stack.mk 0 frames).run (Code.resolved found value) = some ⟨n, frames⟩ :=
    fun frames hv => hv.run_empty found hV frames
  have fresh : ∀ {node : Node}, node.kind.takesCallee = false → Code.StartsFresh [node] :=
    fun hn => Code.startsFresh_cons hn []
  -- The frames change from one rule to the next, the stack is empty in between.
  induction h generalizing frames with
  | nil => rfl
  | append _ after ih₁ ih₂ =>
      exact Stack.run_resolved_append found after.startsFresh (ih₁ hf) (ih₂ hf)
  | drop operand _ =>
      exact Stack.run_resolved_append found (fresh rfl) (hvalue frames operand)
        (Stack.run_resolved_statement found rfl (hf.after? (.inl rfl)))
  | store operand kind _ _ =>
      exact Stack.run_resolved_append found
        (Code.startsFresh_cons (NodeKind.takesCallee_of_isMention kind) _) (hvalue frames operand)
        (Stack.run_resolved_store found kind rfl rfl (hf.after? (.inr (.inl rfl))))
  | init operand kind _ _ =>
      have hmention : NodeKind.isMention .localVar = true := rfl
      rw [← kind] at hmention
      exact Stack.run_resolved_append found
        (Code.startsFresh_cons (NodeKind.takesCallee_of_isMention hmention) _)
        (hvalue frames operand)
        (Stack.run_resolved_store found hmention rfl rfl (hf.after? (.inr (.inl rfl))))
  | storeIndex operands kind _ _ =>
      exact Stack.run_resolved_append found
        (Code.startsFresh_cons (NodeKind.takesCallee_of_isMention kind) _)
        (hvalue frames operands)
        (Stack.run_resolved_store found kind rfl rfl (hf.after? (.inr (.inr (.inl rfl)))))
  | ret _ =>
      exact Stack.run_resolved_statement found rfl
        (hf.after? (.inr (.inr (.inr rfl))))
  | retValue operand _ =>
      exact Stack.run_resolved_append found (fresh rfl) (hvalue frames operand)
        (Stack.run_resolved_statement found rfl
          (hf.after? (.inr (.inr (.inr rfl)))))
  | jump kind _ =>
      rcases kind with rfl | rfl
      · exact Stack.run_resolved_statement found rfl
          (hf.after?_jump (.inl rfl))
      · exact Stack.run_resolved_statement found rfl
          (hf.after?_jump (.inr rfl))
  | @branch l condition body first last operand inner _ _ ih =>
      have hcondition := operand.run_branch found hV hf first
      have hbody := Stack.run_resolved_append found inner.startsFresh hcondition (ih hf.thenPart)
      exact Stack.run_resolved_append found (fresh rfl) hbody
        (Stack.run_resolved_marker found .endBranch last rfl rfl)
  | @branchElse l condition body other first middle last operand inner inner' _ _ _ ih ih' =>
      have hcondition := operand.run_branch found hV hf first
      have hbody := Stack.run_resolved_append found inner.startsFresh hcondition (ih hf.thenPart)
      have hturn : Frame.after? .otherwise (.thenPart :: frames) = some (.elsePart :: frames) :=
        rfl
      have hother := Stack.run_resolved_append found inner'.startsFresh
        (Stack.run_resolved_marker found .otherwise middle rfl hturn) (ih' hf.elsePart)
      have hboth := Stack.run_resolved_append found (Code.startsFresh_cons rfl _) hbody hother
      exact Stack.run_resolved_append found (fresh rfl) hboth
        (Stack.run_resolved_marker found .endBranch last rfl rfl)
  | @loop l condition body first last operand inner _ _ ih =>
      have hcondition := operand.run_loop found hV hf first
      have hbody := Stack.run_resolved_append found inner.startsFresh hcondition
        (ih (.body frames))
      exact Stack.run_resolved_append found (fresh rfl) hbody
        (Stack.run_resolved_marker found .endLoop last rfl rfl)
  | @loopStep l condition body more first last operand inner inner' _ _ ih ih' =>
      have hcondition := operand.run_loop found hV hf first
      have hbody := Stack.run_resolved_append found inner.startsFresh hcondition
        (ih (.body frames))
      have hturn : Frame.after? .loopStep (.body :: frames) = some (.stepPart :: frames) := rfl
      have hstep := Stack.run_resolved_append found inner'.startsFresh
        (Stack.run_resolved_marker found .loopStep first rfl hturn) (ih' (.stepPart frames))
      have hboth := Stack.run_resolved_append found (Code.startsFresh_cons rfl _) hbody hstep
      exact Stack.run_resolved_append found (fresh rfl) hboth
        (Stack.run_resolved_marker found .endLoop last rfl rfl)

theorem Statements.balanced_resolved (hV : V.Fits) {code : Code} (h : Statements V false code) :
    (Code.resolved found code).Balanced :=
  h.run_resolved found hV .nil

end SslFrontend
