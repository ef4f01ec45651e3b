import SslFrontend.Parser.Statement
import SslFrontend.Proofs.Run.Declaration

/-! # Runs of statements

A statement answers with code of whole statements, whatever it had to skip
(`statement_yields`).  A block always ends with the code of its complete
statements, closed or not (`openBlock_yields`): each round of it reads a token.
-/

namespace SslFrontend

variable {stream : TokenStream} {scope : Option ScopeId} {context : Context} {x : Config stream}

/-! ## Assignments -/

namespace Assignment

variable {V : Vocabulary} {target : Node} {index : Option Code} {pos : Position}

theorem targetValue_values (kind : target.kind.isMention = true) (leaf : V.name target)
    (site : V.site pos) (hi : ∀ code, index = some code → Values V 1 code) :
    Values V 1 (targetValue target index pos) := by
  cases index with
  | none => exact .ofName kind leaf
  | some code =>
      have hboth : Values V 2 ([target] ++ code) :=
        (Values.ofName kind leaf).append (hi code rfl)
      exact .binary hboth rfl site

theorem targetStore_statements {l : Bool} {value : Code} (hv : Values V 1 value)
    (kind : target.kind.isMention = true) (leaf : V.name target) (site : V.site pos)
    (hi : ∀ code, index = some code → Values V 1 code) :
    Statements V l (value ++ targetStore target index pos) := by
  cases index with
  | none => exact .store hv kind leaf site
  | some code =>
      have hboth : Values V 2 (value ++ code) := hv.append (hi code rfl)
      simpa [targetStore] using Statements.storeIndex hboth kind leaf site

theorem isBinary_of_ofKind? {kind : TokenKind} {op : NodeKind}
    (h : ofKind? kind = some (.compound op) ∨ ofKind? kind = some (.step op)) :
    op.isBinary = true := by
  unfold ofKind? at h
  split at h <;> simp_all <;> subst_vars <;> rfl

end Assignment

theorem assign_yields {target : Node} {index : Option Code} (hx : x.scope = scope)
    (kind : target.kind.isMention = true) (leaf : (x.vocabulary scope).name target)
    (hindex : ∀ code, index = some code → Values (x.vocabulary scope) 1 code) {l : Bool} :
    Inner (Parse.assign scope target index) x fun code y =>
      Statements (y.vocabulary scope) l code := by
  have hpos : stream.Has x.cursor.pos := x.tracked.has_pos
  have hread : InnerSteps x x.advance := .single (.move x _ _)
  refine .advance ?_
  split
  · exact .throw trivial
  · refine Inner.bind (expression_yields x.advance hx) fun value y hxy hvalue => .pure ?_
    have hleaf := Config.mono_name leaf (hread.trans hxy)
    exact Assignment.targetStore_statements hvalue kind hleaf hpos
      fun code hcode => (hindex code hcode).later (hread.trans hxy)
  · rename_i op hop
    refine Inner.bind (expression_yields x.advance hx) fun value y hxy hvalue => .pure ?_
    have hleaf := Config.mono_name leaf (hread.trans hxy)
    have hlater := fun code hcode => (hindex code hcode).later (hread.trans hxy)
    have hold : Values (y.vocabulary scope) 1 (Assignment.targetValue target index _) :=
      Assignment.targetValue_values kind hleaf hpos hlater
    have hnew : Values (y.vocabulary scope) 1 (_ ++ [Node.op op _]) :=
      .binary (hold.append hvalue) (Assignment.isBinary_of_ofKind? (.inl hop)) hpos
    exact Assignment.targetStore_statements hnew kind hleaf hpos hlater
  · rename_i op hop
    refine .pure ?_
    have hleaf := Config.mono_name leaf hread
    have hlater := fun code hcode => (hindex code hcode).later hread
    have hold := Assignment.targetValue_values kind hleaf hpos hlater
    have hone := Values.literal hold rfl (Config.int_leaf x.advance 1 hpos)
    have hnew := Values.binary hone (Assignment.isBinary_of_ofKind? (.inr hop)) hpos
    rw [List.append_assoc] at hnew
    exact Assignment.targetStore_statements hnew kind hleaf hpos hlater

theorem assignment_yields (hx : x.scope = scope) {l : Bool} :
    Inner (Parse.assignment scope) x fun code y => Statements (y.vocabulary scope) l code := by
  refine .mentionNext hx trivial (fun _ _ => rfl) fun name target y hy => ?_
  have hassign : ∀ (index : Option Code) (z : Config stream), InnerSteps y z →
      (∀ code, index = some code → Values (z.vocabulary scope) 1 code) →
      Inner (Parse.assign scope target index) z fun code w =>
        Statements (w.vocabulary scope) l code := by
    intro index z hyz hindex
    have hz : z.scope = scope := hyz.scope_of (hy.scope_eq hx)
    exact assign_yields hz hy.kind (Config.mono_name (hy.values hx) hyz) hindex
  refine .eat (fun _ => ?_) fun _ => ?_
  · have hread : InnerSteps y y.advance := .single (.move y _ _)
    have hy' : y.advance.scope = scope := hy.scope_eq hx
    apply Inner.bind (expression_yields y.advance hy')
    intro code z hyz hcode
    refine .discard (.expect trivial fun _ => .pureBind ?_)
    have hclose : InnerSteps z z.advance := .single (.move z _ _)
    refine hassign (some code) z.advance (hread.trans (hyz.trans hclose)) ?_
    rintro code' ⟨⟩
    exact hcode.later hclose
  · exact .pureBind (hassign none y .refl fun _ h => nomatch h)

/-- An assignment or a dropped value fits in a loop and outside. -/
theorem simple_yields (hx : x.scope = scope) (l : Bool) :
    Inner (Parse.simple scope) x fun code y => Statements (y.vocabulary scope) l code := by
  have hpos : stream.Has x.cursor.pos := x.tracked.has_pos
  refine .cursor (.ite (fun _ => assignment_yields hx) fun _ => ?_)
  exact Inner.bind (expression_yields x hx) fun code y _ hcode => .pure (.drop hcode hpos)

/-! ## Blocks -/

/-- A block answers with the code of its complete statements. -/
def Blocks (stream : TokenStream) (context : Context) (p : Parse Parse.Block) : Prop :=
  ∀ x : Config stream, x.scope = context.scope →
    Yields InnerStep p x
      (fun found y => Statements (y.vocabulary context.scope) context.inLoop found.code)
      fun _ => False

theorem forceProgress_yields {x y : Config stream} {E : Config stream → Prop}
    (hx : x.cursor.kind ≠ .eof) (hxy : InnerSteps x y) :
    Yields InnerStep (Parse.blockStatement.forceProgress x.cursor.position) y
      (fun _ z => z.cursor.rest.length < x.cursor.rest.length) E := by
  have hend : x.cursor.atEnd = false := by simpa [Cursor.atEnd] using hx
  refine .cursor (.ite (fun hstart => ?_) fun hstart => .pure ?_)
  · have hsame : y.cursor = x.cursor := hxy.grows.cursor.eq_of_position_eq hstart
    refine .last (.discard (.advance (.pure ?_)))
    have hless := Cursor.advance_rest_length_lt hend
    rw [← hsame] at hless
    exact hsame ▸ hless
  · have hlength := hxy.grows.cursor.rest_length
    have hle := hxy.position_le
    have hne : y.cursor.position ≠ x.cursor.position := hstart
    omega

theorem recover_yields (boundary : KindSet) {E : Config stream → Prop} :
    Yields InnerStep (Parse.recover boundary) x (fun _ _ => True) E :=
  .moveCursor (x.cursor.follows_synchronize boundary)
    (.last (.discard (.eat (fun _ => .pure trivial) fun _ => .pure trivial)))

theorem blockStatement_yields {inner : Parse Code} (hi : Executes stream context inner)
    (hx : x.scope = context.scope) (hk : x.cursor.kind ≠ .eof) {code : Code}
    (hcode : Statements (x.vocabulary context.scope) context.inLoop code)
    {E : Config stream → Prop} :
    Yields InnerStep (Parse.blockStatement inner code) x
      (roundPost
        (fun next y => Statements (y.vocabulary context.scope) context.inLoop next ∧
          y.cursor.rest.length < x.cursor.rest.length)
        fun found y => Statements (y.vocabulary context.scope) context.inLoop found.code) E := by
  refine .cursor (.bind (hi x hx).attempt fun found y hxy hfound => ?_)
  have hxy' : InnerSteps x y := hxy
  cases found with
  | ok more =>
      have hboth := Statements.append (hcode.later hxy') hfound
      refine .bind (forceProgress_yields hk hxy') fun _ z hyz hless => .pure ?_
      exact ⟨hboth.later hyz, hless⟩
  | error e =>
      refine .ite (fun _ => .pure (hcode.later hxy')) fun _ => .report ?_
      have hreport : InnerSteps x (y.report [e.diagnostic]) := hxy'.tail (.report y _)
      refine .bind (recover_yields _) fun _ z hyz _ => ?_
      have hxz : InnerSteps x z := hreport.trans hyz
      refine .bind (forceProgress_yields hk hxz) fun _ w hzw hless => .pure ?_
      exact ⟨hcode.later (hxz.trans hzw), hless⟩

theorem checkCloser_yields {opener closer : Token} {E : Config stream → Prop} :
    Yields InnerStep (Parse.checkCloser opener closer) x (fun _ _ => True) E :=
  .ite (fun _ => .last (.report (.pure trivial))) fun _ => .pure trivial

/-- A block never fails: it ends with a closer, with the input, or with the
statement that does not end. -/
theorem openBlock_yields {inner : Parse Code} (hi : Executes stream context inner) :
    Blocks stream context (Parse.openBlock inner) := by
  intro x hx
  refine .advance ?_
  refine .rounds_progress (I := fun code y =>
    Statements (y.vocabulary context.scope) context.inLoop code) ?_ _ .refl .nil
    (Nat.lt_succ_self _)
  intro code y hxy hcode
  have hy : y.scope = context.scope := InnerSteps.scope_of hxy hx
  refine .kind (.ite (fun _ => ?_) fun _ => .ite (fun _ => .pure hcode) fun hend => ?_)
  · refine .advance (.bind checkCloser_yields fun _ z hyz _ => .pure ?_)
    exact hcode.later (.head (.move y _ _) hyz)
  · have hk : y.cursor.kind ≠ .eof := fun heof => hend (.inl heof)
    exact blockStatement_yields hi hy hk hcode

theorem block_yields {inner : Parse Code} (hi : Executes stream context inner) :
    Executes stream context (Parse.block inner) := by
  intro x hx
  have hopen : Inner (Parse.openBlock inner) x _ :=
    (openBlock_yields hi x hx).weaken (fun _ _ _ => id) fun _ _ _ => trivial
  apply Inner.bind hopen
  intro found y _ hcode
  cases found.failure with
  | some e => exact .throw trivial
  | none => exact .pure hcode

/-! ## Branches and loops -/

variable {inner body : Parse Code}

theorem ifStatement_yields (hi : Executes stream context inner) :
    Executes stream context (Parse.ifStatement context.scope inner) := by
  intro x hx
  have hpos : stream.Has x.cursor.current.pos := x.tracked.has_pos
  refine .advance (Inner.bind (expression_yields x.advance hx) fun condition y hxy hcond => ?_)
  refine .discard (.expect trivial fun _ => ?_)
  have hy : y.advance.scope = context.scope := hxy.scope_of hx
  refine Inner.bind (hi y.advance hy) fun thenCode z hyz hthen => .check (.ite (fun _ => ?_) ?_)
  all_goals
    have hyz' : InnerSteps y z := .head (.move y _ _) hyz
    have hcond' := hcond.later hyz'
  · have hother : stream.Has z.cursor.current.pos := z.tracked.has_pos
    refine .advance (Inner.bind (hi z.advance (hyz'.scope_of (hxy.scope_of hx))) ?_)
    intro other w hzw hcode
    have hzw' : InnerSteps z w := .head (.move z _ _) hzw
    have hlast : stream.Has w.cursor.previousPos := w.tracked.has_previousPos
    refine .pureBind (.cursor (.pure ?_))
    exact .branchElse (hcond'.later hzw') (hthen.later hzw') hcode hpos hother hlast
  · intro _
    have hlast : stream.Has z.cursor.previousPos := z.tracked.has_previousPos
    refine .pureBind (.cursor (.pure ?_))
    simpa using Statements.branch hcond' hthen hpos hlast

theorem whileStatement_yields
    (hb : Executes stream { context with inLoop := true } body) :
    Executes stream context (Parse.whileStatement context.scope body) := by
  intro x hx
  have hpos : stream.Has x.cursor.pos := x.tracked.has_pos
  refine .advance (Inner.bind (expression_yields x.advance hx) fun condition y hxy hcond => ?_)
  refine .discard (.expect trivial fun _ => ?_)
  have hy : y.advance.scope = context.scope := hxy.scope_of hx
  refine Inner.bind (hb y.advance hy) fun code z hyz hcode => .cursor (.pure ?_)
  have hlast : stream.Has z.cursor.previousPos := z.tracked.has_previousPos
  exact .loop (hcond.later (.head (.move y _ _) hyz)) hcode hpos hlast

theorem forStatement_yields (hb : Executes stream { context with inLoop := true } body) :
    Executes stream context (Parse.forStatement context.scope body) := by
  intro x hx
  have hpos : stream.Has x.cursor.current.pos := x.tracked.has_pos
  have hsimple : ∀ (closer : TokenKind) (l : Bool) (y : Config stream),
      y.scope = context.scope →
      Inner (if y.cursor.check closer = true then pure [] else Parse.simple context.scope :
        Parse Code) y fun code z => Statements (z.vocabulary context.scope) l code :=
    fun _ l y hy => .ite (fun _ => .pure .nil) fun _ => simple_yields hy l
  have hadvance : ∀ y : Config stream, InnerSteps y y.advance := fun y => .single (.move y _ _)
  refine .advance (.discard (.expect trivial fun _ => .check (.join ?_)))
  apply Inner.bind (hsimple _ context.inLoop x.advance.advance hx)
  intro start y hxy hstart
  refine .discard (.expect trivial fun _ => .check (.join ?_))
  have hy : y.advance.scope = context.scope := hxy.scope_of hx
  refine Inner.bind (P := fun code z => Values (z.vocabulary context.scope) 1 code) ?_ ?_
  · refine .ite (fun _ => .pure ?_) fun _ => expression_yields y.advance hy
    exact .ofLiteral rfl (Config.int_leaf _ 1 hpos)
  intro condition z hyz hcond
  refine .discard (.expect trivial fun _ => .check (.join ?_))
  have hz : z.advance.scope = context.scope := hyz.scope_of hy
  apply Inner.bind (hsimple _ false z.advance hz)
  intro step w hzw hstep
  refine .discard (.expect trivial fun _ => ?_)
  have hw : w.advance.scope = context.scope := hzw.scope_of hz
  refine Inner.bind (hb w.advance hw) fun code v hwv hcode => .cursor (.pure ?_)
  have hlast : stream.Has v.cursor.previousPos := v.tracked.has_previousPos
  have hwv' : InnerSteps w v := (hadvance w).trans hwv
  have hzv : InnerSteps z v := ((hadvance z).trans hzw).trans hwv'
  have hyv : InnerSteps y v := ((hadvance y).trans hyz).trans hzv
  have hcond' := hcond.later hzv
  have hloop : Statements (v.vocabulary context.scope) context.inLoop
      ([Node.op .loop x.cursor.current.pos] ++ condition ++
        [Node.op .loopCond x.cursor.current.pos] ++ code ++
        (if step.isEmpty then [] else Node.op .loopStep x.cursor.current.pos :: step) ++
        [Node.op .endLoop v.cursor.previousPos]) := by
    cases step with
    | nil => simpa using Statements.loop hcond' hcode hpos hlast
    | cons node rest => exact .loopStep hcond' hcode (hstep.later hwv') hpos hlast
  simpa using Statements.append (hstart.later hyv) hloop

/-! ## Simple statements -/

theorem returnStatement_yields :
    Executes stream context (Parse.returnStatement context.scope) := by
  intro x hx
  have hpos : stream.Has x.cursor.pos := x.tracked.has_pos
  refine .advance (.check (.ite (fun _ => ?_) fun _ => ?_))
  · exact .discard (.advance (.pure (.ret hpos)))
  · apply Inner.bind (expression_yields x.advance hx)
    intro value y _ hvalue
    refine .discard (.expect trivial fun _ => .pure ?_)
    exact .retValue (hvalue.later (.single (.move y _ _))) hpos

theorem jumpStatement_yields :
    Executes stream context (Parse.jumpStatement context.inLoop) := by
  intro x hx
  have hpos : stream.Has x.cursor.pos := x.tracked.has_pos
  cases hloop : context.inLoop with
  | false => exact .advance (.report (.discard (.expect trivial fun _ => .pure .nil)))
  | true =>
      refine .advance (.discard (.expect trivial fun _ => .pure (.jump ?_ hpos)))
      split
      · exact .inl rfl
      · exact .inr rfl

theorem callStatement_yields :
    Executes stream context (Parse.callStatement context.scope) := by
  intro x hx
  refine .discard (.advance ?_)
  have hx' : x.advance.scope = context.scope := hx
  refine .mentionNext hx' trivial (fun _ _ => rfl) fun name callee y hy => ?_
  have hpos : stream.Has x.advance.cursor.pos := x.advance.tracked.has_pos
  have hfinish : ∀ (found : Code × Nat) (z : Config stream), InnerSteps y z →
      Values (z.vocabulary context.scope) found.2 found.1 → found.2 ≤ stream.tokens.length →
      Inner (do
        discard <| Parse.expect (.mark .semicolon)
        return Parse.callCode found.1 callee found.2 x.advance.cursor.pos ++
          [Node.op .pop x.advance.cursor.pos] : Parse Code) z
        fun code w => Statements (w.vocabulary context.scope) context.inLoop code := by
    intro found z hyz hargs hbound
    refine .discard (.expect trivial fun _ => .pure ?_)
    have hclose : InnerSteps z z.advance := .single (.move z _ _)
    have hleaf := Config.mono_name (hy.values hx') (hyz.trans hclose)
    exact .drop (.ofCall (hargs.later hclose) hy.kind hleaf hpos hbound) hpos
  refine .eat (fun _ => ?_) fun _ => .pureBind (hfinish ([], 0) y .refl .nil (Nat.zero_le _))
  have hread : 0 < y.advance.cursor.position := by
    have hle := y.cursor.follows_advance.position_le
    have hy' := hy.position
    exact Nat.lt_of_lt_of_le (by omega) hle
  refine Inner.bind (arguments_yields expression_yields (hy.scope_eq hx') hread)
    fun found z hyz hfound => ?_
  exact hfinish found z (.head (.move y _ _) hyz) hfound.1 hfound.2

theorem declarationStatement_yields :
    Executes stream context (Parse.declarationStatement context) := by
  intro x hx
  apply Inner.bind qualifiers_yields
  intro q y hxy _
  refine .check (.ite (fun _ => ?_) fun _ => .cursor (.throw trivial))
  exact variableDeclaration_yields q y (hxy.scope_of hx)

/-! ## All statements -/

theorem statementWith_yields {inner : Context → Parse Code}
    (hi : ∀ context, Executes stream context (inner context)) (context : Context) :
    Executes stream context (Parse.statementWith inner context) := by
  intro x hx
  refine .kind ?_
  split
  · exact .discard (.advance (.pure .nil))
  · exact block_yields (hi context) x hx
  · exact block_yields (hi context) x hx
  · exact ifStatement_yields (hi context) x hx
  · exact whileStatement_yields (hi _) x hx
  · exact forStatement_yields (hi _) x hx
  · exact returnStatement_yields x hx
  · exact jumpStatement_yields x hx
  · exact jumpStatement_yields x hx
  · exact callStatement_yields x hx
  iterate 6 exact declarationStatement_yields x hx
  · apply Inner.bind (simple_yields hx context.inLoop)
    intro code y _ hcode
    exact .discard (.expect trivial fun _ => .pure (hcode.later (.single (.move y _ _))))

theorem statementTo_yields (depth : Nat) (context : Context) :
    Executes stream context (Parse.statementTo depth context) := by
  induction depth generalizing context with
  | zero => exact fun x _ => .cursor (.throw trivial)
  | succ depth ih => exact statementWith_yields ih context

theorem statement_yields (context : Context) :
    Executes stream context (Parse.statement context) :=
  fun x hx => .cursor (statementTo_yields _ context x hx)

end SslFrontend
