import SslFrontend.Code.Fold
import SslFrontend.Proofs.Postfix.Shape
import SslFrontend.Proofs.Symbol.Pool

/-! # The nodes of emitted code

Every node of code over a vocabulary is one that the vocabulary admits: a leaf
it knows, or a node that carries no more than a count.  So what holds of the
leaves holds of all nodes, and a constant is made of the values of literals.
-/

namespace SslFrontend

/-- Every count can be carried: a great one as the greatest. -/
theorem Value.exists_index?_ofIndex (count : Nat) : ∃ i, (ofIndex count).index? = some i := by
  have hsame : ofIndex (min count maxIndex) = ofIndex count := by
    unfold ofIndex
    rw [Nat.min_assoc, Nat.min_self]
  exact ⟨min count maxIndex, hsame ▸ index?_ofIndex (Nat.min_le_right count maxIndex)⟩

theorem Value.exists_int_of_index? {value : Value} {i : Nat} (h : value.index? = some i) :
    ∃ n, value = .int n := by
  cases value with
  | int n => exact ⟨n, rfl⟩
  | float x => cases h
  | string handle => cases h

/-- Whether a node is neither a literal nor stands for a symbol. -/
def NodeKind.isOperation (kind : NodeKind) : Bool :=
  !kind.isLiteral && !kind.isMention && kind != .builtin

/-- The nodes that code over a vocabulary is made of. -/
inductive Vocabulary.Admits (V : Vocabulary) (node : Node) : Prop where
  | literal (kind : node.kind.isLiteral = true) (leaf : V.literal node)
  | name (kind : node.kind.isMention = true) (leaf : V.name node)
  | own (kind : node.kind = .localVar) (leaf : V.own node)
  | operation (kind : node.kind.isOperation = true) (count : ∃ i, node.value.index? = some i)
      (site : V.site node.pos)

variable {V : Vocabulary}

namespace Vocabulary.Admits

theorem op {kind : NodeKind} {pos : Position} (hk : kind.isOperation = true) (hp : V.site pos) :
    V.Admits (Node.op kind pos) :=
  .operation hk ⟨0, rfl⟩ hp

theorem call (count : Nat) {pos : Position} (hp : V.site pos) :
    V.Admits ⟨.call, .ofIndex count, pos⟩ :=
  .operation rfl (Value.exists_index?_ofIndex count) hp

theorem ret (n : Int32) (hn : 0 ≤ n) {pos : Position} (hp : V.site pos) :
    V.Admits ⟨.ret, .int n, pos⟩ :=
  .operation rfl ⟨_, if_pos hn⟩ hp

end Vocabulary.Admits

theorem NodeKind.isOperation_of_isUnary {kind : NodeKind} (h : kind.isUnary = true) :
    kind.isOperation = true := by
  revert h
  cases kind <;> simp [NodeKind.isUnary, NodeKind.isOperation, NodeKind.isLiteral,
    NodeKind.isMention]

theorem NodeKind.isOperation_of_isBinary {kind : NodeKind} (h : kind.isBinary = true) :
    kind.isOperation = true := by
  revert h
  cases kind <;> simp [NodeKind.isBinary, NodeKind.isOperation, NodeKind.isLiteral,
    NodeKind.isMention]

/-- Among the literals only an error has the place of a symbol. -/
theorem NodeKind.eq_error_of_isLiteral {kind : NodeKind} (h : kind.isLiteral = true)
    (hs : kind.isSymbol = true) : kind = .error := by
  revert h hs
  cases kind <;> decide

theorem NodeKind.not_isSymbol_of_isOperation {kind : NodeKind} (h : kind.isOperation = true) :
    kind.isSymbol = false := by
  revert h
  cases kind <;> decide

theorem Values.admits {n : Nat} {code : Code} (h : Values V n code) :
    ∀ node ∈ code, V.Admits node := by
  induction h with
  | nil => simp
  | literal _ kind leaf ih => simpa [or_imp, forall_and] using ⟨ih, .literal kind leaf⟩
  | name _ kind leaf ih => simpa [or_imp, forall_and] using ⟨ih, .name kind leaf⟩
  | address _ kind leaf site ih =>
      simpa [or_imp, forall_and] using ⟨ih, .name kind leaf, .op rfl site⟩
  | @call _ count _ _ _ _ kind leaf site _ ih =>
      simpa [or_imp, forall_and] using ⟨ih, .name kind leaf, .call count site⟩
  | unary _ kind site ih =>
      have hop := NodeKind.isOperation_of_isUnary kind
      simpa [or_imp, forall_and] using ⟨ih, .op hop site⟩
  | binary _ kind site ih =>
      have hop := NodeKind.isOperation_of_isBinary kind
      simpa [or_imp, forall_and] using ⟨ih, .op hop site⟩

theorem Statements.admits {l : Bool} {code : Code} (h : Statements V l code) :
    ∀ node ∈ code, V.Admits node := by
  induction h with
  | nil => simp
  | append _ _ ih₁ ih₂ => simpa [or_imp, forall_and] using ⟨ih₁, ih₂⟩
  | drop operand site => simpa [or_imp, forall_and] using ⟨operand.admits, .op rfl site⟩
  | store operand kind leaf site | storeIndex operand kind leaf site =>
      simpa [or_imp, forall_and] using ⟨operand.admits, .name kind leaf, .op rfl site⟩
  | init operand kind leaf site =>
      simpa [or_imp, forall_and] using ⟨operand.admits, .own kind leaf, .op rfl site⟩
  | ret site => simpa using Vocabulary.Admits.ret 0 (by decide) site
  | retValue operand site =>
      simpa [or_imp, forall_and] using ⟨operand.admits, .ret 1 (by decide) site⟩
  | jump kind site =>
      rcases kind with rfl | rfl <;> simpa using Vocabulary.Admits.op rfl site
  | branch operand _ site site' ih =>
      simpa [or_imp, forall_and] using ⟨operand.admits, .op rfl site, ih, .op rfl site'⟩
  | branchElse operand _ _ site site' site'' ih ih' =>
      simpa [or_imp, forall_and] using
        ⟨operand.admits, .op rfl site, ih, .op rfl site', ih', .op rfl site''⟩
  | loop operand _ site site' ih =>
      simpa [or_imp, forall_and] using
        ⟨.op rfl site, operand.admits, .op rfl site, ih, .op rfl site'⟩
  | loopStep operand _ _ site site' ih ih' =>
      simpa [or_imp, forall_and] using
        ⟨.op rfl site, operand.admits, .op rfl site, ih, .op rfl site, ih', .op rfl site'⟩

/-! ## Constants -/

namespace Fold

variable {pool : Pool}

theorem unary_resolves {kind : NodeKind} {a value : Value} (h : unary kind a = some value) :
    value.ResolvesIn pool := by
  unfold unary at h
  split at h <;> cases h
  · exact .int _ pool
  · exact .float _ pool
  · exact .int _ pool
  · exact .int _ pool

theorem binary_resolves {kind : NodeKind} {a b value : Value} (h : binary kind a b = some value) :
    value.ResolvesIn pool := by
  unfold binary at h
  split at h
  · obtain ⟨n, _, rfl⟩ := Option.map_eq_some_iff.mp h
    exact .int n pool
  · obtain ⟨x, _, rfl⟩ := Option.map_eq_some_iff.mp h
    exact .float x pool
  · obtain ⟨x, _, rfl⟩ := Option.map_eq_some_iff.mp h
    exact .float x pool
  · obtain ⟨x, _, rfl⟩ := Option.map_eq_some_iff.mp h
    exact .float x pool
  · cases h

theorem step_resolves {node : Node} {stack after : List Value}
    (hn : node.kind.isLiteral = true → node.value.ResolvesIn pool)
    (hs : ∀ value ∈ stack, value.ResolvesIn pool) (h : step node stack = some after) :
    ∀ value ∈ after, value.ResolvesIn pool := by
  have htop : ∀ {found : Option Value} {rest : List Value},
      (∀ value, found = some value → value.ResolvesIn pool) →
      (∀ value ∈ rest, value.ResolvesIn pool) →
      found.map (· :: rest) = some after → ∀ value ∈ after, value.ResolvesIn pool := by
    intro found rest hfound hrest hafter
    obtain ⟨value, hvalue, rfl⟩ := Option.map_eq_some_iff.mp hafter
    exact List.forall_mem_cons.mpr ⟨hfound value hvalue, hrest⟩
  have hpush : node.kind.isLiteral = true → some (node.value :: stack) = some after →
      ∀ value ∈ after, value.ResolvesIn pool := by
    intro hk hafter
    obtain rfl := Option.some.inj hafter
    exact List.forall_mem_cons.mpr ⟨hn hk, hs⟩
  unfold step at h
  split at h
  case h_1 hk | h_2 hk | h_3 hk => exact hpush (by rw [hk]; rfl) h
  case h_15 => cases h
  case h_4 | h_5 | h_6 =>
    exact htop (fun _ hv => unary_resolves hv) (List.forall_mem_cons.mp hs).2 h
  all_goals
    exact htop (fun _ hv => binary_resolves hv)
      (List.forall_mem_cons.mp (List.forall_mem_cons.mp hs).2).2 h

theorem run_resolves {code : Code} {stack after : List Value}
    (hc : ∀ node ∈ code, node.kind.isLiteral = true → node.value.ResolvesIn pool)
    (hs : ∀ value ∈ stack, value.ResolvesIn pool) (h : run code stack = some after) :
    ∀ value ∈ after, value.ResolvesIn pool := by
  induction code generalizing stack with
  | nil =>
      obtain rfl := Option.some.inj h
      exact hs
  | cons node rest ih =>
      obtain ⟨hnode, hrest⟩ := List.forall_mem_cons.mp hc
      obtain ⟨middle, hstep, hrun⟩ := Option.bind_eq_some_iff.mp h
      exact ih hrest (step_resolves hnode hs hstep) hrun

end Fold

/-- A constant that is a text is one of the literals of its code. -/
theorem Code.constant?_resolves {code : Code} {pool : Pool} {value : Value}
    (hc : ∀ node ∈ code, node.kind.isLiteral = true → node.value.ResolvesIn pool)
    (h : code.constant? = some value) : value.ResolvesIn pool := by
  unfold Code.constant? at h
  split at h
  · rename_i found hrun
    obtain rfl := Option.some.inj h
    exact Fold.run_resolves hc (by simp) hrun found List.mem_cons_self
  · cases h

end SslFrontend
