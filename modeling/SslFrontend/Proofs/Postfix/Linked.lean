import Mathlib.Data.List.Chain
import SslFrontend.Proofs.Postfix.Leaves
import SslFrontend.Proofs.Postfix.Resolved

/-! # Symbols and what takes them

A call, a store or an `@` stands right behind the name that it takes, and
resolving puts a call behind each procedure that nothing takes.  So in resolved
code the node in front of each of these is what a name was resolved to, and
behind each procedure stands one of these.
-/

namespace SslFrontend

variable {V : Vocabulary}

/-- A node that another one may take: a mentioned name, or a local that its
declaration stores into. -/
def Vocabulary.Taken (V : Vocabulary) (node : Node) : Prop :=
  node.kind.isMention = true ∧ (V.name node ∨ (node.kind = .localVar ∧ V.own node))

/-- What takes a callee stands right behind a node with a property. -/
def Code.Linked (P : Node → Prop) (code : Code) : Prop :=
  code.IsChain fun operand user => user.kind.takesCallee = true → P operand

namespace Code.Linked

variable {P : Node → Prop}

theorem nil : Code.Linked P [] := List.IsChain.nil

theorem singleton (node : Node) : Code.Linked P [node] := List.IsChain.singleton node

theorem pair {operand : Node} (h : P operand) (user : Node) :
    Code.Linked P [operand, user] :=
  List.isChain_pair.mpr fun _ => h

theorem append {first second : Code} (hf : first.Linked P) (hs : second.Linked P)
    (fresh : second.StartsFresh) : Code.Linked P (first ++ second) := by
  refine List.IsChain.append hf hs fun operand _ user huser htakes => ?_
  rw [fresh user huser] at htakes
  cases htakes

theorem concat {code : Code} (h : code.Linked P) (node : Node)
    (hn : node.kind.takesCallee = false) : Code.Linked P (code ++ [node]) :=
  h.append (singleton node) (Code.startsFresh_cons hn [])

end Code.Linked

theorem Vocabulary.Taken.linked {operand : Node} (h : V.Taken operand) {code : Code}
    (hc : code.Linked V.Taken) (user : Node) : Code.Linked V.Taken (code ++ [operand, user]) :=
  hc.append (.pair h user) (Code.startsFresh_cons (NodeKind.takesCallee_of_isMention h.1) _)

theorem Values.linked {n : Nat} {code : Code} (h : Values V n code) : code.Linked V.Taken := by
  induction h with
  | nil => exact .nil
  | literal _ kind _ ih => exact ih.concat _ (NodeKind.takesCallee_of_isLiteral kind)
  | name _ kind _ ih => exact ih.concat _ (NodeKind.takesCallee_of_isMention kind)
  | address _ kind leaf _ ih | call _ kind leaf _ _ ih =>
      exact Vocabulary.Taken.linked ⟨kind, .inl leaf⟩ ih _
  | unary _ kind _ ih =>
      exact ih.concat _ (NodeKind.takesCallee_of_isUnary kind)
  | binary _ kind _ ih =>
      exact ih.concat _ (NodeKind.takesCallee_of_isBinary kind)

theorem Values.linked_loop {condition : Code} (h : Values V 1 condition) (first : Position) :
    Code.Linked V.Taken ([.op .loop first] ++ condition ++ [.op .loopCond first]) := by
  have hhead := (Code.Linked.singleton (Node.op .loop first)).append h.linked h.startsFresh
  exact hhead.concat _ rfl

theorem Statements.linked {l : Bool} {code : Code} (h : Statements V l code) :
    code.Linked V.Taken := by
  induction h with
  | nil => exact .nil
  | append _ after ih₁ ih₂ => exact ih₁.append ih₂ after.startsFresh
  | drop operand _ | retValue operand _ => exact operand.linked.concat _ rfl
  | store operand kind leaf _ | storeIndex operand kind leaf _ =>
      exact Vocabulary.Taken.linked ⟨kind, .inl leaf⟩ operand.linked _
  | init operand kind leaf _ =>
      have hmention : NodeKind.isMention .localVar = true := rfl
      rw [← kind] at hmention
      exact Vocabulary.Taken.linked ⟨hmention, .inr ⟨kind, leaf⟩⟩ operand.linked _
  | ret _ | jump _ _ => exact .singleton _
  | branch operand inner _ _ ih =>
      exact ((operand.linked.concat _ rfl).append ih inner.startsFresh).concat _ rfl
  | @branchElse _ _ _ _ first middle _ operand inner inner' _ _ _ ih ih' =>
      have hother := (Code.Linked.singleton (Node.op .otherwise middle)).append ih'
        inner'.startsFresh
      have hbody := (operand.linked.concat (.op .branch first) rfl).append ih
        inner.startsFresh
      have hboth := hbody.append hother (Code.startsFresh_cons rfl _)
      exact hboth.concat _ rfl
  | @loop _ _ _ first _ operand inner _ _ ih =>
      have hbody := (operand.linked_loop first).append ih inner.startsFresh
      exact hbody.concat _ rfl
  | @loopStep _ _ _ _ first _ operand inner inner' _ _ ih ih' =>
      have hbody := (operand.linked_loop first).append ih inner.startsFresh
      have hstep := (Code.Linked.singleton (Node.op .loopStep first)).append ih'
        inner'.startsFresh
      have hboth := hbody.append hstep (Code.startsFresh_cons rfl _)
      exact hboth.concat _ rfl

/-- What is known of every node of code and of the nodes side by side. -/
structure Vocabulary.Emits (V : Vocabulary) (code : Code) : Prop where
  admits : ∀ node ∈ code, V.Admits node
  linked : code.Linked V.Taken
  fresh : code.StartsFresh

theorem Values.emits {n : Nat} {code : Code} (h : Values V n code) : V.Emits code :=
  ⟨h.admits, h.linked, h.startsFresh⟩

theorem Statements.emits {l : Bool} {code : Code} (h : Statements V l code) : V.Emits code :=
  ⟨h.admits, h.linked, h.startsFresh⟩

/-! ## Resolved code -/

variable (found : List (Option Symbol))

/-- A resolved node stands before the rest, with a call between them where it is
a procedure that nothing takes. -/
theorem Code.resolved_cons (node : Node) (rest : Code) :
    ((node.resolved found).kind.isCallable = true ∧ rest.StartsFresh ∧
      Code.resolved found (node :: rest) =
        node.resolved found :: ⟨.call, .int 0, node.pos⟩ :: Code.resolved found rest) ∨
    (((node.resolved found).kind.isCallable = true →
        ∃ next, rest.head? = some next ∧ next.kind.takesCallee = true) ∧
      Code.resolved found (node :: rest) = node.resolved found :: Code.resolved found rest) := by
  have hpos := Node.resolved_pos found node
  cases hcallable : (node.resolved found).kind.isCallable with
  | false => exact .inr ⟨nofun, by simp [Code.resolved, hcallable]⟩
  | true =>
      cases hhead : rest.head? with
      | none =>
          refine .inl ⟨rfl, fun next hnext => ?_, by simp [Code.resolved, hcallable, hhead, hpos]⟩
          rw [hhead] at hnext
          cases hnext
      | some next =>
          cases htakes : next.kind.takesCallee with
          | false =>
              refine .inl ⟨rfl, fun other hother => ?_,
                by simp [Code.resolved, hcallable, hhead, htakes, hpos]⟩
              rw [hhead] at hother
              obtain rfl := Option.some.inj hother
              exact htakes
          | true =>
              exact .inr ⟨fun _ => ⟨next, rfl, htakes⟩,
                by simp [Code.resolved, hhead, htakes]⟩

/-- Each node of resolved code is a resolved node, or a call behind one. -/
theorem Code.mem_resolved {code : Code} {node : Node} (h : node ∈ Code.resolved found code) :
    ∃ source ∈ code, node = source.resolved found ∨
      (node = ⟨.call, .int 0, source.pos⟩ ∧ (source.resolved found).kind.isCallable = true) := by
  induction code with
  | nil => exact absurd h List.not_mem_nil
  | cons first rest ih =>
      have hrest : node ∈ Code.resolved found rest → ∃ source ∈ first :: rest,
          node = source.resolved found ∨ (node = ⟨.call, .int 0, source.pos⟩ ∧
            (source.resolved found).kind.isCallable = true) := by
        intro hmem
        obtain ⟨source, hsource, hnode⟩ := ih hmem
        exact ⟨source, List.mem_cons_of_mem _ hsource, hnode⟩
      rcases Code.resolved_cons found first rest with ⟨hcallable, _, heq⟩ | ⟨_, heq⟩
      · rw [heq] at h
        rcases List.mem_cons.mp h with rfl | h
        · exact ⟨first, List.mem_cons_self, .inl rfl⟩
        · rcases List.mem_cons.mp h with rfl | h
          · exact ⟨first, List.mem_cons_self, .inr ⟨rfl, hcallable⟩⟩
          · exact hrest h
      · rw [heq] at h
        rcases List.mem_cons.mp h with rfl | h
        · exact ⟨first, List.mem_cons_self, .inl rfl⟩
        · exact hrest h

/-- The nodes that resolved code over a vocabulary is made of. -/
inductive Vocabulary.Gives (V : Vocabulary) (node : Node) : Prop where
  | literal (kind : node.kind.isLiteral = true) (leaf : V.literal node)
  | name {source : Node} (kind : source.kind.isMention = true) (leaf : V.name source)
      (resolved : node = source.resolved found)
  | own (kind : node.kind = .localVar) (leaf : V.own node)
  | operation (kind : node.kind.isOperation = true) (count : ∃ i, node.value.index? = some i)
      (site : V.site node.pos)

theorem NodeKind.ne_ident_of_isLiteral {kind : NodeKind} (h : kind.isLiteral = true) :
    kind ≠ .ident := by
  rintro rfl
  cases h

theorem NodeKind.ne_ident_of_isOperation {kind : NodeKind} (h : kind.isOperation = true) :
    kind ≠ .ident := by
  rintro rfl
  cases h

/-- Only a name is resolved to a procedure. -/
theorem Vocabulary.Admits.isMention_of_isCallable {node : Node} (h : V.Admits node)
    (hc : (node.resolved found).kind.isCallable = true) :
    node.kind.isMention = true ∧ V.name node := by
  have hplain : node.kind ≠ .ident → node.kind.isCallable = true := by
    intro hi
    rwa [Node.resolved_of_ne_ident found hi] at hc
  cases h with
  | literal kind leaf =>
      have hcallable := hplain (NodeKind.ne_ident_of_isLiteral kind)
      revert kind hcallable
      cases node.kind <;> simp [NodeKind.isLiteral, NodeKind.isCallable]
  | name kind leaf => exact ⟨kind, leaf⟩
  | own kind leaf =>
      have hcallable := hplain (by rw [kind]; exact NodeKind.noConfusion)
      rw [kind] at hcallable
      cases hcallable
  | operation kind _ _ =>
      have hcallable := hplain (NodeKind.ne_ident_of_isOperation kind)
      revert kind hcallable
      cases node.kind <;> simp [NodeKind.isOperation, NodeKind.isLiteral, NodeKind.isMention,
        NodeKind.isCallable]

theorem Vocabulary.Admits.gives {node : Node} (h : V.Admits node) :
    V.Gives found (node.resolved found) := by
  have hsame : node.kind ≠ .ident → node.resolved found = node := Node.resolved_of_ne_ident found
  cases h with
  | literal kind leaf =>
      rw [hsame (NodeKind.ne_ident_of_isLiteral kind)]
      exact .literal kind leaf
  | name kind leaf => exact .name kind leaf rfl
  | own kind leaf =>
      rw [hsame (by rw [kind]; exact NodeKind.noConfusion)]
      exact .own kind leaf
  | operation kind count site =>
      rw [hsame (NodeKind.ne_ident_of_isOperation kind)]
      exact .operation kind count site

theorem Vocabulary.Emits.gives {code : Code} (h : V.Emits code)
    (hsite : ∀ node, V.name node → V.site node.pos) :
    ∀ node ∈ Code.resolved found code, V.Gives found node := by
  intro node hnode
  obtain ⟨source, hsource, rfl | ⟨rfl, hcallable⟩⟩ := Code.mem_resolved found hnode
  · exact (h.admits source hsource).gives found
  · obtain ⟨_, hname⟩ := (h.admits source hsource).isMention_of_isCallable found hcallable
    exact .operation rfl ⟨0, rfl⟩ (hsite source hname)

theorem Code.head?_resolved (code : Code) :
    (Code.resolved found code).head? = code.head?.map (·.resolved found) := by
  cases code with
  | nil => rfl
  | cons node rest =>
      rcases Code.resolved_cons found node rest with ⟨_, _, heq⟩ | ⟨_, heq⟩
      · rw [heq]
        rfl
      · rw [heq]
        rfl

theorem Code.StartsFresh.resolved {code : Code} (h : code.StartsFresh) :
    (Code.resolved found code).StartsFresh := by
  intro node hnode
  rw [Code.head?_resolved] at hnode
  obtain ⟨source, hsource, rfl⟩ := Option.map_eq_some_iff.mp hnode
  rw [Node.resolved_takesCallee]
  exact h source hsource

/-- What a node with a property is resolved to. -/
def Node.From (P : Node → Prop) (node : Node) : Prop :=
  ∃ source, P source ∧ node = source.resolved found

/-- What takes a callee stands right behind one, and behind each procedure
stands what takes it. -/
structure Code.Served (P : Node → Prop) (code : Code) : Prop where
  fresh : code.StartsFresh
  links : code.IsChain fun operand user =>
    (user.kind.takesCallee = true → operand.From found P) ∧
      (operand.kind.isCallable = true → user.kind.takesCallee = true)
  last : ∀ node, code.getLast? = some node → node.kind.isCallable = false

theorem Code.links_resolved {P : Node → Prop} {code : Code} (h : code.Linked P)
    (hc : ∀ node ∈ code, (node.resolved found).kind.isCallable = true → P node) :
    (Code.resolved found code).IsChain fun operand user =>
      (user.kind.takesCallee = true → operand.From found P) ∧
        (operand.kind.isCallable = true → user.kind.takesCallee = true) := by
  induction code with
  | nil => exact .nil
  | cons node rest ih =>
      obtain ⟨hnode, hrest⟩ := List.forall_mem_cons.mp hc
      obtain ⟨hnext, hlinked⟩ := List.isChain_cons.mp h
      have hlinks := ih hlinked hrest
      rcases Code.resolved_cons found node rest with ⟨hcallable, hfresh, heq⟩ | ⟨htaken, heq⟩
      · rw [heq]
        refine .cons (.cons hlinks fun user huser => ?_) fun user huser => ?_
        · have htakes := hfresh.resolved found user huser
          rw [htakes]
          exact ⟨nofun, nofun⟩
        · obtain rfl : (⟨.call, .int 0, node.pos⟩ : Node) = user := by simpa using huser
          exact ⟨fun _ => ⟨node, hnode hcallable, rfl⟩, fun _ => rfl⟩
      · rw [heq]
        refine .cons hlinks fun user huser => ?_
        rw [Code.head?_resolved] at huser
        obtain ⟨next, hhead, rfl⟩ := Option.map_eq_some_iff.mp huser
        rw [Node.resolved_takesCallee]
        refine ⟨fun htakes => ⟨node, hnext next hhead htakes, rfl⟩, fun hcallable => ?_⟩
        obtain ⟨other, hother, htakes⟩ := htaken hcallable
        rw [hhead] at hother
        obtain rfl := Option.some.inj hother
        exact htakes

theorem Code.last_resolved {code : Code} {node : Node}
    (h : (Code.resolved found code).getLast? = some node) : node.kind.isCallable = false := by
  induction code with
  | nil => cases h
  | cons first rest ih =>
      have hhead := Code.head?_resolved found rest
      cases hr : Code.resolved found rest with
      | nil =>
          rw [hr] at hhead
          have hnone := Option.map_eq_none_iff.mp hhead.symm
          rcases Code.resolved_cons found first rest with ⟨_, _, heq⟩ | ⟨htaken, heq⟩
          · rw [heq, hr] at h
            obtain rfl : (⟨.call, .int 0, first.pos⟩ : Node) = node := by simpa using h
            rfl
          · rw [heq, hr] at h
            obtain rfl : first.resolved found = node := by simpa using h
            rw [Bool.eq_false_iff]
            intro hcallable
            obtain ⟨next, hnext, _⟩ := htaken hcallable
            rw [hnone] at hnext
            cases hnext
      | cons second more =>
          refine ih ?_
          rcases Code.resolved_cons found first rest with ⟨_, _, heq⟩ | ⟨_, heq⟩
          · rw [heq, hr] at h
            rw [hr]
            simpa using h
          · rw [heq, hr] at h
            rw [hr]
            simpa using h

/-- In resolved code each procedure is taken, and whatever takes something takes
what a name was resolved to. -/
theorem Vocabulary.Emits.served {code : Code} (h : V.Emits code) :
    (Code.resolved found code).Served found V.Taken := by
  have hc : ∀ node ∈ code, (node.resolved found).kind.isCallable = true → V.Taken node := by
    intro node hnode hcallable
    obtain ⟨hkind, hname⟩ := (h.admits node hnode).isMention_of_isCallable found hcallable
    exact ⟨hkind, .inl hname⟩
  exact ⟨h.fresh.resolved found, Code.links_resolved found h.linked hc,
    fun _ => Code.last_resolved found⟩

end SslFrontend
