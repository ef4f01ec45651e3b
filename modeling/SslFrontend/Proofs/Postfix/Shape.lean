import SslFrontend.Parser.Expression

/-! # Shapes of emitted code

The code that productions answer with, built up as they build it: `Values`
holds of code that leaves a number of values, `Statements` of a run of whole
statements.  Both are over a vocabulary, which says what the leaves of the code
may be; a property of all leaves is a property of the vocabulary.  Main
statements: shapes can be put together, and the operator chain of an expression
keeps them.
-/

namespace SslFrontend

namespace NodeKind

/-- Nodes that carry a value, or stand for one that could not be read. -/
def isLiteral : NodeKind → Bool
  | .int | .float | .string | .error => true
  | _ => false

/-- Nodes that a mention of a name leaves in code that is not resolved yet. -/
def isMention : NodeKind → Bool
  | .ident | .globalVar | .localVar | .proc => true
  | _ => false

def isUnary : NodeKind → Bool
  | .neg | .not | .bwNot => true
  | _ => false

def isBinary : NodeKind → Bool
  | .add | .sub | .mul | .div | .mod | .and | .or | .bwAnd | .bwOr | .bwXor
  | .eq | .ne | .lt | .le | .gt | .ge | .index => true
  | _ => false

end NodeKind

/-- What the leaves of code may be. -/
structure Vocabulary where
  literal : Node → Prop
  /-- A node for a mentioned name. -/
  name : Node → Prop
  /-- A local that its declaration stores into. -/
  own : Node → Prop
  /-- Where operators stand. -/
  site : Position → Prop
  /-- The greatest number of arguments. -/
  limit : Nat

namespace Vocabulary

/-- All that one vocabulary admits, another one admits. -/
structure Le (V W : Vocabulary) : Prop where
  literal : ∀ {node}, V.literal node → W.literal node
  name : ∀ {node}, V.name node → W.name node
  own : ∀ {node}, V.own node → W.own node
  site : ∀ {pos}, V.site pos → W.site pos
  limit : V.limit ≤ W.limit

end Vocabulary

variable {V W : Vocabulary}

/-- Code that leaves so many values on the stack. -/
inductive Values (V : Vocabulary) : Nat → Code → Prop where
  | nil : Values V 0 []
  | literal {n : Nat} {code : Code} {node : Node} (before : Values V n code)
      (kind : node.kind.isLiteral = true) (leaf : V.literal node) :
      Values V (n + 1) (code ++ [node])
  | name {n : Nat} {code : Code} {node : Node} (before : Values V n code)
      (kind : node.kind.isMention = true) (leaf : V.name node) :
      Values V (n + 1) (code ++ [node])
  | address {n : Nat} {code : Code} {node : Node} {pos : Position} (before : Values V n code)
      (kind : node.kind.isMention = true) (leaf : V.name node) (site : V.site pos) :
      Values V (n + 1) (code ++ [node, Node.op .procAddr pos])
  | call {n count : Nat} {code : Code} {callee : Node} {pos : Position}
      (before : Values V (n + count) code) (kind : callee.kind.isMention = true)
      (leaf : V.name callee) (site : V.site pos) (bound : count ≤ V.limit) :
      Values V (n + 1) (code ++ [callee, ⟨.call, .ofIndex count, pos⟩])
  | unary {n : Nat} {code : Code} {op : NodeKind} {pos : Position}
      (before : Values V (n + 1) code) (kind : op.isUnary = true) (site : V.site pos) :
      Values V (n + 1) (code ++ [Node.op op pos])
  | binary {n : Nat} {code : Code} {op : NodeKind} {pos : Position}
      (before : Values V (n + 2) code) (kind : op.isBinary = true) (site : V.site pos) :
      Values V (n + 1) (code ++ [Node.op op pos])

namespace Values

theorem mono (h : V.Le W) {n : Nat} {code : Code} (hc : Values V n code) : Values W n code := by
  induction hc with
  | nil => exact .nil
  | literal _ kind leaf ih => exact .literal ih kind (h.literal leaf)
  | name _ kind leaf ih => exact .name ih kind (h.name leaf)
  | address _ kind leaf site ih => exact .address ih kind (h.name leaf) (h.site site)
  | call _ kind leaf site bound ih =>
      exact .call ih kind (h.name leaf) (h.site site) (Nat.le_trans bound h.limit)
  | unary _ kind site ih => exact .unary ih kind (h.site site)
  | binary _ kind site ih => exact .binary ih kind (h.site site)

theorem append {m n : Nat} {first second : Code} (hf : Values V m first)
    (hs : Values V n second) : Values V (m + n) (first ++ second) := by
  induction hs with
  | nil => simpa using hf
  | literal _ kind leaf ih =>
      rw [← List.append_assoc]
      exact .literal ih kind leaf
  | name _ kind leaf ih =>
      rw [← List.append_assoc]
      exact .name ih kind leaf
  | address _ kind leaf site ih =>
      rw [← List.append_assoc]
      exact .address ih kind leaf site
  | call _ kind leaf site bound ih =>
      rw [← List.append_assoc]
      exact .call (by simpa [Nat.add_assoc] using ih) kind leaf site bound
  | unary _ kind site ih =>
      rw [← List.append_assoc]
      exact .unary ih kind site
  | binary _ kind site ih =>
      rw [← List.append_assoc]
      exact .binary ih kind site

theorem ofLiteral {node : Node} (kind : node.kind.isLiteral = true) (leaf : V.literal node) :
    Values V 1 [node] :=
  .literal .nil kind leaf

theorem ofName {node : Node} (kind : node.kind.isMention = true) (leaf : V.name node) :
    Values V 1 [node] :=
  .name .nil kind leaf

theorem ofAddress {node : Node} {pos : Position} (kind : node.kind.isMention = true)
    (leaf : V.name node) (site : V.site pos) : Values V 1 [node, Node.op .procAddr pos] :=
  .address .nil kind leaf site

theorem ofCall {count : Nat} {args : Code} {callee : Node} {pos : Position}
    (hargs : Values V count args) (kind : callee.kind.isMention = true) (leaf : V.name callee)
    (site : V.site pos) (bound : count ≤ V.limit) :
    Values V 1 (Parse.callCode args callee count pos) :=
  .call (by rwa [Nat.zero_add]) kind leaf site bound

/-- Operators of one kind of shape, put behind the operands they apply to. -/
theorem unaries {code run : Code} (hc : Values V 1 code)
    (hr : ∀ node ∈ run, ∃ op pos, node = Node.op op pos ∧ op.isUnary = true ∧ V.site pos) :
    Values V 1 (code ++ run) := by
  induction run generalizing code with
  | nil => simpa using hc
  | cons node rest ih =>
      obtain ⟨op, pos, rfl, hop, hpos⟩ := hr _ List.mem_cons_self
      have hcode : Values V 1 (code ++ [Node.op op pos]) := .unary hc hop hpos
      have hrest := ih hcode fun node hnode => hr node (List.mem_cons_of_mem _ hnode)
      simpa using hrest

end Values

/-! ## Operator chains -/

namespace Operator

/-- An operator that stands somewhere with the node of a binary operation. -/
def Stands (V : Vocabulary) (op : Operator) : Prop :=
  ∃ kind pos, op.node = Node.op kind pos ∧ kind.isBinary = true ∧ V.site pos

theorem Stands.values {op : Operator} (h : op.Stands V) {n : Nat} {code : Code}
    (hc : Values V (n + 2) code) : Values V (n + 1) (code ++ [op.node]) := by
  obtain ⟨kind, pos, hnode, hkind, hpos⟩ := h
  rw [hnode]
  exact .binary hc hkind hpos

/-- Every operator that is written out takes one of the values that wait. -/
theorem release_values (level : Nat) {waiting : List Operator} {code : Code}
    (hw : ∀ op ∈ waiting, op.Stands V) (hc : Values V (waiting.length + 1) code) :
    Values V ((release level waiting).2.length + 1) (code ++ (release level waiting).1) ∧
      ∀ op ∈ (release level waiting).2, op.Stands V := by
  induction waiting generalizing code with
  | nil => simpa [release] using hc
  | cons top below ih =>
      have hbelow : ∀ op ∈ below, op.Stands V := fun op hop => hw op (List.mem_cons_of_mem _ hop)
      by_cases hl : level ≤ top.level
      · have htop := (hw top List.mem_cons_self).values hc
        obtain ⟨hvalues, hleft⟩ := ih hbelow htop
        simp only [release, if_pos hl]
        exact ⟨by simpa using hvalues, hleft⟩
      · simp only [release, if_neg hl, List.append_nil]
        exact ⟨hc, hw⟩

theorem waiting_values {waiting : List Operator} {code : Code}
    (hw : ∀ op ∈ waiting, op.Stands V) (hc : Values V (waiting.length + 1) code) :
    Values V 1 (code ++ waiting.map node) := by
  induction waiting generalizing code with
  | nil => simpa using hc
  | cons top below ih =>
      have htop := (hw top List.mem_cons_self).values hc
      have hbelow := ih (fun op hop => hw op (List.mem_cons_of_mem _ hop)) htop
      simpa using hbelow

theorem chain_values {waiting : List Operator} {links : List (Operator × Code)} {code : Code}
    (hw : ∀ op ∈ waiting, op.Stands V) (hc : Values V (waiting.length + 1) code)
    (hl : ∀ link ∈ links, link.1.Stands V ∧ Values V 1 link.2) :
    Values V 1 (code ++ chain waiting links) := by
  -- Each operator that waits has one value to its left, so the code is always one
  -- value ahead of them.
  induction links generalizing waiting code with
  | nil => exact waiting_values hw hc
  | cons link rest ih =>
      obtain ⟨op, operand⟩ := link
      obtain ⟨hop, hoperand⟩ := hl _ List.mem_cons_self
      obtain ⟨hreleased, hleft⟩ := release_values op.level hw hc
      have hnext := @ih (op :: (release op.level waiting).2)
        (code ++ (release op.level waiting).1 ++ operand)
        (List.forall_mem_cons.mpr ⟨hop, hleft⟩)
        (by simpa [Nat.add_assoc] using hreleased.append hoperand)
        fun link hlink => hl link (List.mem_cons_of_mem _ hlink)
      simpa [chain] using hnext

end Operator

/-! ## Statements -/

/-- Code of whole statements, in a loop or outside of loops. -/
inductive Statements (V : Vocabulary) : Bool → Code → Prop where
  | nil {l : Bool} : Statements V l []
  | append {l : Bool} {first second : Code} (before : Statements V l first)
      (after : Statements V l second) : Statements V l (first ++ second)
  | drop {l : Bool} {value : Code} {pos : Position} (operand : Values V 1 value)
      (site : V.site pos) : Statements V l (value ++ [Node.op .pop pos])
  | store {l : Bool} {value : Code} {target : Node} {pos : Position}
      (operand : Values V 1 value) (kind : target.kind.isMention = true)
      (leaf : V.name target) (site : V.site pos) :
      Statements V l (value ++ [target, Node.op .store pos])
  | init {l : Bool} {value : Code} {target : Node} {pos : Position}
      (operand : Values V 1 value) (kind : target.kind = .localVar)
      (leaf : V.own target) (site : V.site pos) :
      Statements V l (value ++ [target, Node.op .store pos])
  | storeIndex {l : Bool} {value : Code} {target : Node} {pos : Position}
      (operands : Values V 2 value) (kind : target.kind.isMention = true)
      (leaf : V.name target) (site : V.site pos) :
      Statements V l (value ++ [target, Node.op .storeIndex pos])
  | ret {l : Bool} {pos : Position} (site : V.site pos) :
      Statements V l [⟨.ret, .int 0, pos⟩]
  | retValue {l : Bool} {value : Code} {pos : Position} (operand : Values V 1 value)
      (site : V.site pos) : Statements V l (value ++ [⟨.ret, .int 1, pos⟩])
  | jump {op : NodeKind} {pos : Position} (kind : op = .leave ∨ op = .next)
      (site : V.site pos) : Statements V true [Node.op op pos]
  | branch {l : Bool} {condition body : Code} {first last : Position}
      (operand : Values V 1 condition) (inner : Statements V l body)
      (site : V.site first) (site' : V.site last) :
      Statements V l (condition ++ [Node.op .branch first] ++ body ++ [Node.op .endBranch last])
  | branchElse {l : Bool} {condition body other : Code} {first middle last : Position}
      (operand : Values V 1 condition) (inner : Statements V l body)
      (inner' : Statements V l other) (site : V.site first) (site' : V.site middle)
      (site'' : V.site last) :
      Statements V l (condition ++ [Node.op .branch first] ++ body ++
        Node.op .otherwise middle :: other ++ [Node.op .endBranch last])
  | loop {l : Bool} {condition body : Code} {first last : Position}
      (operand : Values V 1 condition) (inner : Statements V true body)
      (site : V.site first) (site' : V.site last) :
      Statements V l ([Node.op .loop first] ++ condition ++ [Node.op .loopCond first] ++ body ++
        [Node.op .endLoop last])
  | loopStep {l : Bool} {condition body more : Code} {first last : Position}
      (operand : Values V 1 condition) (inner : Statements V true body)
      (inner' : Statements V false more) (site : V.site first) (site' : V.site last) :
      Statements V l ([Node.op .loop first] ++ condition ++ [Node.op .loopCond first] ++ body ++
        Node.op .loopStep first :: more ++ [Node.op .endLoop last])

theorem Statements.mono (h : V.Le W) {l : Bool} {code : Code} (hc : Statements V l code) :
    Statements W l code := by
  induction hc with
  | nil => exact .nil
  | append _ _ ih₁ ih₂ => exact .append ih₁ ih₂
  | drop operand site => exact .drop (operand.mono h) (h.site site)
  | store operand kind leaf site =>
      exact .store (operand.mono h) kind (h.name leaf) (h.site site)
  | init operand kind leaf site => exact .init (operand.mono h) kind (h.own leaf) (h.site site)
  | storeIndex operands kind leaf site =>
      exact .storeIndex (operands.mono h) kind (h.name leaf) (h.site site)
  | ret site => exact .ret (h.site site)
  | retValue operand site => exact .retValue (operand.mono h) (h.site site)
  | jump kind site => exact .jump kind (h.site site)
  | branch operand _ site site' ih =>
      exact .branch (operand.mono h) ih (h.site site) (h.site site')
  | branchElse operand _ _ site site' site'' ih ih' =>
      exact .branchElse (operand.mono h) ih ih' (h.site site) (h.site site') (h.site site'')
  | loop operand _ site site' ih =>
      exact .loop (operand.mono h) ih (h.site site) (h.site site')
  | loopStep operand _ _ site site' ih ih' =>
      exact .loopStep (operand.mono h) ih ih' (h.site site) (h.site site')

end SslFrontend
