import SslFrontend.Proofs.Run.Primitives

/-! # Runs of expressions

A production of an expression answers with code of one value whose leaves are
known (`expression_yields`).  Nothing here depends on how deep the expressions
inside are: they are taken as a production that `Expresses` a scope.
-/

namespace SslFrontend

variable {stream : TokenStream} {scope : Option ScopeId}

/-- Run in a scope, a production answers with code of one value. -/
def Expresses (stream : TokenStream) (scope : Option ScopeId) (p : Parse Code) : Prop :=
  ∀ x : Config stream, x.scope = scope →
    Inner p x fun code y => Values (y.vocabulary scope) 1 code

theorem Values.later {x y : Config stream} {n : Nat} {code : Code}
    (h : Values (x.vocabulary scope) n code) (hs : InnerSteps x y) :
    Values (y.vocabulary scope) n code :=
  h.mono (hs.vocabulary_le scope)

namespace Config

variable (x : Config stream) {pos : Position}

theorem int_leaf (n : Int32) (hpos : stream.Has pos) :
    (x.vocabulary scope).literal ⟨.int, .int n, pos⟩ :=
  ⟨hpos, .int n _, by simp, by simp⟩

theorem float_leaf (r : Binary32) (hpos : stream.Has pos) :
    (x.vocabulary scope).literal ⟨.float, .float r, pos⟩ :=
  ⟨hpos, .float r _, by simp, by simp⟩

theorem string_leaf {handle : Handle} {text : String} (hpos : stream.Has pos)
    (h : x.table.strings.find? text = some handle) :
    (x.vocabulary scope).literal ⟨.string, .string handle, pos⟩ :=
  ⟨hpos, .string (Pool.resolve_find? h), fun _ => ⟨handle, rfl⟩, by simp⟩

theorem error_leaf (hpos : stream.Has pos) (h : x.Blamed) :
    (x.vocabulary scope).literal (Node.op .error pos) :=
  ⟨hpos, .int 0 _, by simp [Node.op], fun _ => h⟩

/-- A mentioned name is a leaf of the scope it is mentioned in. -/
theorem Mentions.values {x y : Config stream} {node : Node} (h : x.Mentions y node)
    (hx : x.scope = scope) : (y.vocabulary scope).name node :=
  hx ▸ h.leaf

theorem Mentions.scope_eq {x y : Config stream} {node : Node} (h : x.Mentions y node)
    (hx : x.scope = scope) : y.scope = scope :=
  h.step.scope_eq.trans hx

theorem mono_name {x y : Config stream} {node : Node} (h : (x.vocabulary scope).name node)
    (hs : InnerSteps x y) : (y.vocabulary scope).name node :=
  (hs.vocabulary_le scope).name h

end Config

theorem InnerSteps.scope_of {x y : Config stream} (hs : InnerSteps x y) (hx : x.scope = scope) :
    y.scope = scope :=
  hs.scope_eq.trans hx

theorem InnerSteps.position_le {x y : Config stream} (hs : InnerSteps x y) :
    x.cursor.position ≤ y.cursor.position :=
  hs.grows.cursor.position_le

variable {inner : Parse Code} {x : Config stream}

/-! ## Arguments -/

/-- The number of arguments stays below the number of tokens read. -/
theorem argumentRun_yields (hi : Expresses stream scope inner) (hx : x.scope = scope)
    (hpos : 0 < x.cursor.position) :
    Inner (Parse.argumentRun inner) x fun found y =>
      Values (y.vocabulary scope) found.2 found.1 ∧ found.2 ≤ stream.tokens.length := by
  refine Inner.rounds (I := fun found y => Values (y.vocabulary scope) found.2 found.1 ∧
    found.2 < y.cursor.position) ⟨.nil, hpos⟩ ?_
  rintro ⟨code, count⟩ y hxy ⟨hcode, hcount⟩
  apply Inner.bind (hi y (hxy.scope_of hx))
  intro code' z hyz hcode'
  have hnext : Values (z.vocabulary scope) (count + 1) (code ++ code') :=
    (hcode.later hyz).append hcode'
  have hread := hyz.position_le
  refine .eat (fun hcomma => ?_) fun _ => ?_
  · have hkind := Cursor.kind_of_check_mark hcomma
    have hmore : z.advance.cursor.position = z.cursor.position + 1 :=
      Cursor.advance_position (by rw [hkind]; exact TokenKind.noConfusion)
    have hstep : InnerSteps z z.advance := .single (.move z _ _)
    exact .pure ⟨hnext.later hstep, by simp only at hcount ⊢; omega⟩
  · have hlimit : z.cursor.position ≤ stream.tokens.length := z.tracked.position_le
    exact .pure ⟨hnext, by simp only at hcount ⊢; omega⟩

theorem arguments_yields (hi : Expresses stream scope inner) (hx : x.scope = scope)
    (hpos : 0 < x.cursor.position) :
    Inner (Parse.arguments inner) x fun found y =>
      Values (y.vocabulary scope) found.2 found.1 ∧ found.2 ≤ stream.tokens.length := by
  refine .check (.join ?_)
  refine Inner.bind (P := fun found y => Values (y.vocabulary scope) found.2 found.1 ∧
    found.2 ≤ stream.tokens.length) ?_ fun found y hxy hfound => ?_
  · refine .ite (fun _ => ?_) fun _ => argumentRun_yields hi hx hpos
    exact .pure ⟨.nil, Nat.zero_le _⟩
  · refine .discard (.expect trivial fun _ => .pure ?_)
    have hstep : InnerSteps y y.advance := .single (.move y _ _)
    exact ⟨hfound.1.later hstep, hfound.2⟩

/-! ## Operands -/

theorem stringOperand_yields {text : String} {pos : Position} (hpos : stream.Has pos) :
    Inner (Parse.stringOperand text pos) x fun code y => Values (y.vocabulary scope) 1 code := by
  refine .table ?_
  cases h : x.table.strings.intern text with
  | ok found =>
      obtain ⟨handle, strings⟩ := found
      simp only
      let code : Code := [⟨.string, .string handle, pos⟩]
      refine .stepVia (.intern x h) rfl (.pure (a := code) ?_)
      exact .ofLiteral rfl (Config.string_leaf _ hpos (Pool.intern_spec h).2)
  | error error =>
      have hblamed : (x.report [SymbolTable.refused pos error]).Blamed :=
        .inl ⟨_, List.mem_append_right _ List.mem_cons_self, rfl⟩
      exact .report (.pure (.ofLiteral rfl (Config.error_leaf _ hpos hblamed)))

theorem primary_yields (hi : Expresses stream scope inner) :
    Expresses stream scope (Parse.primary scope inner) := by
  intro x hx
  have hpos := x.tracked.has_pos
  refine .cursor ?_
  extract_lets token pos
  cases hkind : token.kind with
  | int n => exact .discard (.advance (.pure (.ofLiteral rfl (Config.int_leaf _ n hpos))))
  | float r => exact .discard (.advance (.pure (.ofLiteral rfl (Config.float_leaf _ r hpos))))
  | str text => exact .discard (.advance (stringOperand_yields hpos))
  | ident name =>
      refine .discard (.mentionRead hx hkind rfl fun callee y hy => ?_)
      have hy' := hy.scope_eq hx
      refine .eat (fun _ => ?_) fun _ => .pure (.ofName hy.kind (hy.values hx))
      have hread : 0 < y.advance.cursor.position := by
        have hle := y.cursor.follows_advance.position_le
        have hy'' := hy.position
        exact Nat.lt_of_lt_of_le (by omega) hle
      refine Inner.bind (arguments_yields hi hy' hread) fun found z hyz hfound => ?_
      have hsteps : InnerSteps y z := .head (.move y _ _) hyz
      have hleaf := Config.mono_name (hy.values hx) hsteps
      exact .pure (.ofCall hfound.1 hy.kind hleaf hpos hfound.2)
  | keyword word =>
      cases word with
      | kwTrue => exact .discard (.advance (.pure (.ofLiteral rfl (Config.int_leaf _ 1 hpos))))
      | kwFalse => exact .discard (.advance (.pure (.ofLiteral rfl (Config.int_leaf _ 0 hpos))))
      | _ => exact .throw trivial
  | mark sign =>
      cases sign with
      | atSign =>
          refine .discard (.advance (.mentionNext hx trivial (fun _ _ => rfl) fun name node y hy =>
            .pure ?_))
          exact .ofAddress hy.kind (hy.values hx) hpos
      | lparen =>
          refine .discard (.advance (Inner.bind (hi _ hx) fun code y _ hcode => ?_))
          refine .discard (.expect trivial fun _ => .pure ?_)
          exact hcode.later (.single (.move y _ _))
      | _ => exact .throw trivial
  | included path => exact .throw trivial
  | invalid =>
      refine .discard (.advance (.pure (.ofLiteral rfl (Config.error_leaf _ hpos ?_))))
      have hne : x.cursor.kind ≠ .eof := by
        intro heof
        rw [Cursor.kind] at heof
        exact absurd (hkind.symm.trans heof) TokenKind.noConfusion
      exact .inr ⟨token, x.tracked.current_mem hne, hkind⟩
  | eof => exact .throw trivial

/-! ## Chains -/

theorem indices_yields (hi : Expresses stream scope inner) (hx : x.scope = scope) {code : Code}
    (hcode : Values (x.vocabulary scope) 1 code) :
    Inner (Parse.indices inner code) x fun code y => Values (y.vocabulary scope) 1 code := by
  refine Inner.rounds (I := fun code y => Values (y.vocabulary scope) 1 code) hcode ?_
  intro code y hxy hcode
  refine .check (.ite (fun _ => ?_) fun _ => .pure hcode)
  have hpos : stream.Has y.cursor.pos := y.tracked.has_pos
  have hopen : InnerSteps y y.advance := .single (.move y _ _)
  refine .advance (Inner.bind (hi y.advance (hxy.scope_of hx)) fun index z hyz hindex => ?_)
  refine .discard (.expect trivial fun _ => .pure ?_)
  have hclose : InnerSteps z z.advance := .single (.move z _ _)
  have hboth : Values (z.vocabulary scope) 2 (code ++ index) :=
    (hcode.later (hopen.trans hyz)).append hindex
  exact .binary (hboth.later hclose) rfl hpos

theorem unaryRun_yields : Inner Parse.unaryRun x fun run _ =>
    ∀ node ∈ run, ∃ op pos, node = Node.op op pos ∧ op.isUnary = true ∧ stream.Has pos := by
  have hunary : ∀ {kind op}, Operator.unary? kind = some op → op.isUnary = true := by
    intro kind op h
    unfold Operator.unary? at h
    split at h <;> cases h <;> rfl
  refine .cursor (.moveCursor (x.cursor.follows_skipWhile _) (.pure ?_))
  intro node hnode
  obtain ⟨token, htoken, hop⟩ := List.mem_filterMap.mp hnode
  obtain ⟨op, hkind, rfl⟩ := Option.map_eq_some_iff.mp hop
  have hmem : token ∈ x.cursor.rest := (List.takeWhile_sublist _).subset htoken
  exact ⟨op, token.pos, rfl, hunary hkind, .inr ⟨token, x.tracked.mem_of_mem_rest hmem, rfl⟩⟩

theorem operand_yields (hi : Expresses stream scope inner) :
    Expresses stream scope (Parse.operand scope inner) := by
  intro x hx
  apply Inner.bind unaryRun_yields
  intro run y hxy hrun
  have hy := hxy.scope_of hx
  apply Inner.bind (primary_yields hi y hy)
  intro code z hyz hcode
  refine Inner.bind (indices_yields hi (hyz.scope_of hy) hcode) fun code w _ hcode => .pure ?_
  exact hcode.unaries fun node hnode => hrun node (List.mem_reverse.mp hnode)

theorem binary?_isBinary {kind : TokenKind} {level : Nat} {op : NodeKind}
    (h : Operator.binary? kind = some (level, op)) : op.isBinary = true := by
  unfold Operator.binary? at h
  split at h <;> cases h <;> rfl

theorem Operator.Stands.mono {V W : Vocabulary} (h : V.Le W) {op : Operator} (ho : op.Stands V) :
    op.Stands W := by
  obtain ⟨kind, pos, hnode, hkind, hpos⟩ := ho
  exact ⟨kind, pos, hnode, hkind, h.site hpos⟩

theorem chainRun_yields (hi : Expresses stream scope inner) (hx : x.scope = scope) :
    Inner (Parse.chainRun scope inner) x fun links y =>
      ∀ link ∈ links, link.1.Stands (y.vocabulary scope) ∧
        Values (y.vocabulary scope) 1 link.2 := by
  refine Inner.rounds (I := fun links y => ∀ link ∈ links,
    link.1.Stands (y.vocabulary scope) ∧ Values (y.vocabulary scope) 1 link.2) (by simp) ?_
  intro links y hxy hlinks
  refine .kind ?_
  split
  · rename_i level op hop
    have hpos : stream.Has y.cursor.pos := y.tracked.has_pos
    have hread : InnerSteps y y.advance := .single (.move y _ _)
    have hscope : y.advance.scope = scope := hxy.scope_of hx
    refine .advance (Inner.bind (operand_yields hi y.advance hscope) fun code z hyz hcode => ?_)
    refine .pure fun link hlink => ?_
    rcases List.mem_append.mp hlink with hbefore | hlast
    · have hle := InnerSteps.vocabulary_le (hread.trans hyz) scope
      exact ⟨(hlinks link hbefore).1.mono hle, (hlinks link hbefore).2.mono hle⟩
    · rw [List.mem_singleton.mp hlast]
      exact ⟨⟨op, _, rfl, binary?_isBinary hop, hpos⟩, hcode⟩
  · exact .pure hlinks

theorem expressionWith_yields (hi : Expresses stream scope inner) :
    Expresses stream scope (Parse.expressionWith scope inner) := by
  intro x hx
  apply Inner.bind (operand_yields hi x hx)
  intro first y hxy hfirst
  refine Inner.bind (chainRun_yields hi (hxy.scope_of hx)) fun links z hyz hlinks => .pure ?_
  exact Operator.chain_values (by simp) (hfirst.later hyz) hlinks

theorem expressionTo_yields (depth : Nat) :
    Expresses stream scope (Parse.expressionTo scope depth) := by
  -- The depth bounds the recursion only: without any left, an expression fails.
  induction depth with
  | zero => exact fun x _ => .cursor (.throw trivial)
  | succ depth ih => exact expressionWith_yields ih

theorem expression_yields : Expresses stream scope (Parse.expression scope) :=
  fun x hx => .cursor (expressionTo_yields _ x hx)

end SslFrontend
