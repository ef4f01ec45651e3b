import Mathlib.Data.List.Forall2
import SslFrontend.Code.Fold
import SslFrontend.Proofs.Postfix.Stack

/-! # Constants are values of trees

Code is folded on a stack, from left to right.  What comes out is what the tree that
the code writes in postorder evaluates to: each node takes the values of its parts,
and a node without a rule, or with parts that no rule fits, has no value.  Code that
writes no tree has no constant.

The rules speak of whole numbers as integers that are wrapped to 32 bits.  The
operations on binary32 numbers are taken as they are.

Main statement: `Code.constant?_postorder`.
-/

namespace SslFrontend

/-! ## Trees -/

/-- How many operands a node of an expression has.  A name has none, whether it is
resolved or not, and a call has its arguments and its callee. -/
def Node.arity? (node : Node) : Option Nat :=
  if node.kind = .ident then some 0 else node.operands?

/-- A node with the parts it is made of, from left to right. -/
inductive NodeTree where
  | node (root : Node) (parts : List NodeTree)

namespace NodeTree

mutual
/-- The nodes of a tree, each behind its parts. -/
def postorder : NodeTree → Code
  | node root parts => postorderAll parts ++ [root]

def postorderAll : List NodeTree → Code
  | [] => []
  | tree :: rest => postorder tree ++ postorderAll rest
end

/-- Every node has as many parts as it has operands. -/
inductive Formed : NodeTree → Prop
  | node {root : Node} {parts : List NodeTree} (arity : root.arity? = some parts.length)
      (each : ∀ part ∈ parts, Formed part) : Formed (node root parts)

theorem postorderAll_append (first second : List NodeTree) :
    postorderAll (first ++ second) = postorderAll first ++ postorderAll second := by
  induction first with
  | nil => rfl
  | cons tree rest ih => simp [postorderAll, ih]

end NodeTree

/-! ## Evaluation -/

namespace Arithmetic

/-- An integer in 32 bits. -/
def wrapped (n : Int) : Value := .int (.ofInt n)

/-- A quotient exists and fits. -/
def HasQuotient (a b : Int32) : Prop := b ≠ 0 ∧ ¬(a = Int32.minValue ∧ b = -1)

instance (a b : Int32) : Decidable (HasQuotient a b) := inferInstanceAs (Decidable (_ ∧ _))

def unary? : NodeKind → Value → Option Value
  | .neg, .int n => some (wrapped (-n.toInt))
  | .neg, .float x => some (.float x.neg)
  | .not, .int n => some (wrapped (if n.toInt = 0 then 1 else 0))
  | .bwNot, .int n => some (wrapped (-n.toInt - 1))
  | _, _ => none

/-- Operations on two whole numbers.  A quotient is cut off toward zero. -/
def whole? : NodeKind → Int32 → Int32 → Option Value
  | .add, a, b => some (wrapped (a.toInt + b.toInt))
  | .sub, a, b => some (wrapped (a.toInt - b.toInt))
  | .mul, a, b => some (wrapped (a.toInt * b.toInt))
  | .div, a, b => if HasQuotient a b then some (wrapped (a.toInt.tdiv b.toInt)) else none
  | .mod, a, b => if HasQuotient a b then some (wrapped (a.toInt.tmod b.toInt)) else none
  | .bwAnd, a, b => some (.int (.ofBitVec (a.toBitVec &&& b.toBitVec)))
  | .bwOr, a, b => some (.int (.ofBitVec (a.toBitVec ||| b.toBitVec)))
  | .bwXor, a, b => some (.int (.ofBitVec (a.toBitVec ^^^ b.toBitVec)))
  | _, _, _ => none

/-- Operations on two binary32 numbers. -/
def real? : NodeKind → Binary32 → Binary32 → Option Value
  | .add, x, y => some (.float (x.add y))
  | .sub, x, y => some (.float (x.sub y))
  | .mul, x, y => some (.float (x.mul y))
  | .div, x, y => if y.isZero then none else some (.float (x.div y))
  | _, _, _ => none

/-- A number as a binary32 number; a text is none. -/
def promoted? : Value → Option Binary32
  | .int n => some (.ofInt n.toInt)
  | .float x => some x
  | .string _ => none

/-- Two whole numbers stay whole; with a binary32 number on either side, both are. -/
def binary? (kind : NodeKind) : Value → Value → Option Value
  | .int a, .int b => whole? kind a b
  | a, b => do real? kind (← promoted? a) (← promoted? b)

/-- The value of a node whose parts have these values. -/
def combine? (root : Node) : List Value → Option Value
  | [] => if root.kind ∈ [.int, .float, .string] then some root.value else none
  | [a] => unary? root.kind a
  | [a, b] => binary? root.kind a b
  | _ => none

end Arithmetic

namespace NodeTree

mutual
/-- The value of a constant tree. -/
def value? : NodeTree → Option Value
  | node root parts => (values? parts).bind (Arithmetic.combine? root)

def values? : List NodeTree → Option (List Value)
  | [] => some []
  | tree :: rest => do return (← value? tree) :: (← values? rest)
end

theorem values?_eq_some_iff {trees : List NodeTree} {values : List Value} :
    values? trees = some values ↔ List.Forall₂ (fun t v => value? t = some v) trees values := by
  induction trees generalizing values with
  | nil => simp [values?, eq_comm]
  | cons tree rest ih =>
      cases values with
      | nil =>
          simp only [values?, List.forall₂_nil_right_iff, reduceCtorEq, iff_false]
          intro h
          obtain ⟨v, -, h⟩ := Option.bind_eq_some_iff.mp h
          obtain ⟨vs, -, h⟩ := Option.bind_eq_some_iff.mp h
          cases h
      | cons v vs => simp [values?, Option.bind_eq_some_iff, ih, List.forall₂_cons]

end NodeTree

namespace Arithmetic

/-! ## The rules and the stack -/

theorem divides_iff (a b : Int32) : Fold.divides a b = true ↔ HasQuotient a b := by
  simp [Fold.divides, HasQuotient, imp_iff_not_or]

theorem wrapped_tdiv (a b : Int32) : wrapped (a.toInt.tdiv b.toInt) = .int (a / b) := by
  rw [wrapped, Int32.ofInt_tdiv a.minValue_le_toInt a.toInt_le b.minValue_le_toInt b.toInt_le,
    Int32.ofInt_toInt, Int32.ofInt_toInt]

theorem wrapped_tmod (a b : Int32) : wrapped (a.toInt.tmod b.toInt) = .int (a % b) := by
  rw [wrapped, Int32.ofInt_tmod a.minValue_le_toInt a.toInt_le b.minValue_le_toInt b.toInt_le,
    Int32.ofInt_toInt, Int32.ofInt_toInt]

theorem whole?_eq (kind : NodeKind) (a b : Int32) :
    whole? kind a b = (Fold.intOp kind a b).map .int := by
  have hdivides : Fold.divides a b = decide (HasQuotient a b) := by
    rw [Bool.eq_iff_iff, divides_iff, decide_eq_true_eq]
  cases kind <;>
    simp only [whole?, Fold.intOp, Option.map_some, Option.map_none, wrapped_tdiv, wrapped_tmod,
      hdivides, decide_eq_true_eq]
  · simp [wrapped, Int32.ofInt_add]
  · simp [wrapped, Int32.ofInt_sub]
  · simp [wrapped, Int32.ofInt_mul]
  · split <;> rfl
  · split <;> rfl
  · simp [Int32.ofBitVec_and]
  · simp [Int32.ofBitVec_or]
  · simp [Int32.ofBitVec_xor]

theorem real?_eq (kind : NodeKind) (x y : Binary32) :
    real? kind x y = (Fold.floatOp kind x y).map .float := by
  cases kind <;> try rfl
  simp only [real?, Fold.floatOp]
  split <;> rfl

theorem unary?_eq (kind : NodeKind) (a : Value) : unary? kind a = Fold.unary kind a := by
  cases kind <;> cases a <;> try rfl
  · simp [unary?, Fold.unary, wrapped, Int32.ofInt_neg]
  · simp only [unary?, Fold.unary, wrapped, ← Int32.toInt_inj]
    split <;> simp_all
  · simp [unary?, Fold.unary, wrapped, Int32.ofInt_sub, Int32.ofInt_neg, Int32.not_eq_neg_sub]

theorem binary?_eq (kind : NodeKind) (a b : Value) : binary? kind a b = Fold.binary kind a b := by
  cases a <;> cases b <;>
    simp [binary?, promoted?, Fold.binary, whole?_eq, real?_eq]

/-- Two parts have a value under these nodes only. -/
theorem binary?_eq_none {kind : NodeKind}
    (h : kind ∉ [.add, .sub, .mul, .div, .mod, .bwAnd, .bwOr, .bwXor]) (a b : Value) :
    binary? kind a b = none := by
  have hwhole : ∀ m n, whole? kind m n = none := by cases kind <;> simp_all [whole?]
  have hreal : ∀ x y, real? kind x y = none := by cases kind <;> simp_all [real?]
  cases a <;> cases b <;> simp [binary?, promoted?, hwhole, hreal]

/-- A node does to the stack what its rule says of the values of its parts. -/
theorem step_eq {root : Node} {args : List Value} (h : root.arity? = some args.length)
    (stack : List Value) :
    Fold.step root (args.reverse ++ stack) = (combine? root args).map (· :: stack) := by
  obtain ⟨kind, value, pos⟩ := root
  rcases args with _ | ⟨a, _ | ⟨b, _ | ⟨c, more⟩⟩⟩
  · cases kind <;> simp_all [Node.arity?, Node.operands?, Fold.step, combine?]
  · cases kind <;>
      simp_all [Node.arity?, Node.operands?, Fold.step, combine?, unary?_eq, Fold.unary]
  · by_cases hrule : kind ∈ [.add, .sub, .mul, .div, .mod, .bwAnd, .bwOr, .bwXor]
    · simp only [combine?, binary?_eq]
      cases kind <;> first | rfl | simp at hrule
    · simp only [combine?, binary?_eq_none hrule]
      cases kind <;> simp_all [Node.arity?, Node.operands?, Fold.step]
  · cases kind <;> simp_all [Node.arity?, Node.operands?, Fold.step, combine?]

/-- A step that is not stuck finds the values of a node's parts on the stack. -/
theorem exists_args_of_step {root : Node} {stack after : List Value}
    (h : Fold.step root stack = some after) : ∃ args rest : List Value,
      stack = args.reverse ++ rest ∧ root.arity? = some args.length := by
  obtain ⟨kind, value, pos⟩ := root
  unfold Fold.step at h
  split at h
  case h_15 => cases h
  case h_1 | h_2 | h_3 => exact ⟨[], _, rfl, by simp_all [Node.arity?, Node.operands?]⟩
  case h_4 a rest _ | h_5 a rest _ | h_6 a rest _ =>
    exact ⟨[a], rest, rfl, by simp_all [Node.arity?, Node.operands?]⟩
  all_goals
    rename_i b a rest _
    exact ⟨[a, b], rest, rfl, by simp_all [Node.arity?, Node.operands?]⟩

end Arithmetic

namespace NodeTree

/-- Folding code of a tree puts the value of the tree on the stack. -/
theorem Formed.run_postorder {tree : NodeTree} (h : tree.Formed) (stack : List Value) :
    Fold.run tree.postorder stack = tree.value?.map (· :: stack) := by
  induction h generalizing stack with
  | @node root parts arity each ih =>
      -- The values of the parts stand on the stack with the last one on top.
      have hparts : ∀ (ts : List NodeTree), (∀ t ∈ ts, t ∈ parts) → ∀ stack,
          Fold.run (postorderAll ts) stack = (values? ts).map (·.reverse ++ stack) := by
        intro ts
        induction ts with
        | nil => exact fun _ _ => rfl
        | cons t rest ihrest =>
            intro hmem stack
            rw [postorderAll, Fold.run_append, ih t (hmem t List.mem_cons_self), values?]
            cases t.value? with
            | none => rfl
            | some v =>
                simp only [Option.map_some, Option.bind_some,
                  ihrest fun t ht => hmem t (List.mem_cons_of_mem _ ht)]
                cases values? rest <;> simp
      rw [postorder, Fold.run_append, hparts parts (fun _ h => h), value?]
      cases hvalues : values? parts with
      | none => rfl
      | some values =>
          have hlength := (values?_eq_some_iff.mp hvalues).length_eq
          simp only [Option.map_some, Option.bind_some, Fold.run,
            Arithmetic.step_eq (hlength ▸ arity)]
          cases Arithmetic.combine? root values <;> rfl

/-- Code that folds from the values of trees to other values writes, behind those
trees, trees of these values. -/
theorem exists_trees_of_run {code : Code} {stack out : List Value}
    (h : Fold.run code stack = some out) {trees : List NodeTree} (hformed : ∀ t ∈ trees, t.Formed)
    (hvalues : List.Forall₂ (fun t v => value? t = some v) trees stack.reverse) :
    ∃ made : List NodeTree, (∀ t ∈ made, t.Formed) ∧
      List.Forall₂ (fun t v => value? t = some v) made out.reverse ∧
      postorderAll made = postorderAll trees ++ code := by
  induction code generalizing stack trees with
  | nil =>
      obtain rfl := Option.some.inj h
      exact ⟨trees, hformed, hvalues, (List.append_nil _).symm⟩
  | cons root rest ih =>
      obtain ⟨after, hstep, hrest⟩ := Option.bind_eq_some_iff.mp h
      obtain ⟨args, below, rfl, harity⟩ := Arithmetic.exists_args_of_step hstep
      rw [Arithmetic.step_eq harity] at hstep
      obtain ⟨v, hv, rfl⟩ := Option.map_eq_some_iff.mp hstep
      rw [List.reverse_append, List.reverse_reverse] at hvalues
      -- The last trees are the parts of a new one.
      obtain ⟨kept, parts, hkept, hparts, rfl⟩ : ∃ kept parts,
          List.Forall₂ (fun t v => value? t = some v) kept below.reverse ∧
          List.Forall₂ (fun t v => value? t = some v) parts args ∧ trees = kept ++ parts :=
        ⟨_, _, List.forall₂_take_append _ _ _ hvalues, List.forall₂_drop_append _ _ _ hvalues,
          (List.take_append_drop _ trees).symm⟩
      have hnode : (NodeTree.node root parts).Formed :=
        .node (hparts.length_eq ▸ harity) fun t ht => hformed t (List.mem_append_right _ ht)
      have hvalue : (NodeTree.node root parts).value? = some v := by
        rw [value?, values?_eq_some_iff.mpr hparts]
        exact hv
      have hall : ∀ t ∈ kept ++ [NodeTree.node root parts], t.Formed := by
        intro t ht
        rcases List.mem_append.mp ht with ht | ht
        · exact hformed t (List.mem_append_left _ ht)
        · rwa [List.mem_singleton.mp ht]
      have hevery : List.Forall₂ (fun t v => value? t = some v) (kept ++ [.node root parts])
          (v :: below).reverse := by
        rw [List.reverse_cons]
        exact List.rel_append hkept (.cons hvalue .nil)
      obtain ⟨made, hmade, hout, hcode⟩ := ih hrest hall hevery
      refine ⟨made, hmade, hout, ?_⟩
      simp [hcode, postorderAll_append, postorderAll, postorder]

end NodeTree

/-- Code of a tree folds to the value of the tree, or to none if the tree has none;
code of no tree has no constant. -/
theorem Code.constant?_postorder :
    (∀ tree : NodeTree, tree.Formed → tree.postorder.constant? = tree.value?) ∧
    ∀ code : Code, (∀ tree : NodeTree, tree.Formed → tree.postorder ≠ code) →
      code.constant? = none := by
  constructor
  · intro tree h
    rw [Code.constant?, h.run_postorder]
    cases tree.value? <;> rfl
  · intro code hnone
    rw [Code.constant?]
    split
    · rename_i value hrun
      have hempty : ∀ t ∈ ([] : List NodeTree), t.Formed := nofun
      obtain ⟨made, hmade, hvalues, hcode⟩ := NodeTree.exists_trees_of_run hrun hempty .nil
      -- One value is left, so it is one tree that was made.
      obtain ⟨tree, rest, -, hrest, rfl⟩ := List.forall₂_cons_right_iff.mp hvalues
      obtain rfl := List.forall₂_nil_right_iff.mp hrest
      refine absurd ?_ (hnone tree (hmade tree List.mem_cons_self))
      simpa [NodeTree.postorderAll] using hcode
    · rfl

/-- `-(60 * 10)` is constant, `7 % 0` is not, and neither is code of nothing. -/
theorem Code.constant?_postorder_numbers :
    let leaf (n : Int32) : NodeTree := .node ⟨.int, .int n, .unknown⟩ []
    let two (kind : NodeKind) (m n : Int32) : NodeTree :=
      .node (.op kind .unknown) [leaf m, leaf n]
    let negated : NodeTree := .node (.op .neg .unknown) [two .mul 60 10]
    negated.Formed ∧ (two .mod 7 0).Formed ∧
      negated.postorder.constant? = some (.int (-600)) ∧
      (two .mod 7 0).postorder.constant? = none ∧ Code.constant? [] = none := by
  intro leaf two negated
  have hleaf : ∀ n, (leaf n).Formed := fun n => .node rfl (by simp)
  have htwo : ∀ {kind} m n, (Node.op kind .unknown).arity? = some 2 → (two kind m n).Formed := by
    intro kind m n harity
    refine .node harity fun t ht => ?_
    rcases List.mem_pair.mp ht with rfl | rfl <;> exact hleaf _
  have hmod : (two .mod 7 0).Formed := htwo 7 0 rfl
  have hnegated : negated.Formed := by
    refine .node rfl fun t ht => ?_
    obtain rfl := List.mem_singleton.mp ht
    exact htwo 60 10 rfl
  refine ⟨hnegated, hmod, ?_, ?_, ?_⟩
  · rw [Code.constant?_postorder.1 negated hnegated]
    decide
  · rw [Code.constant?_postorder.1 _ hmod]
    decide
  · refine Code.constant?_postorder.2 [] fun tree _ => ?_
    cases tree
    simp [NodeTree.postorder]

end SslFrontend
