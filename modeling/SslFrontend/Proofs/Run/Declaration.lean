import SslFrontend.Parser.Declaration
import SslFrontend.Proofs.Postfix.Leaves
import SslFrontend.Proofs.Run.Expression

/-! # Runs of declarations

A declaration answers with code that stores the initial values of locals
(`variableDeclaration_yields`).  A name is declared in the step that reads it,
so no scope has more names than tokens were read.
-/

namespace SslFrontend

variable {stream : TokenStream} {context : Context} {x : Config stream}

/-- Run where a context says, a production answers with code of whole
statements. -/
def Executes (stream : TokenStream) (context : Context) (p : Parse Code) : Prop :=
  ∀ x : Config stream, x.scope = context.scope →
    Inner p x fun code y => Statements (y.vocabulary context.scope) context.inLoop code

theorem Statements.later {x y : Config stream} {scope : Option ScopeId} {l : Bool} {code : Code}
    (h : Statements (x.vocabulary scope) l code) (hs : InnerSteps x y) :
    Statements (y.vocabulary scope) l code :=
  h.mono (hs.vocabulary_le scope)

/-! ## Qualifiers and parts -/

theorem qualifiers_yields : Inner Parse.qualifiers x fun _ _ => True := by
  refine Inner.rounds (I := fun _ _ => True) trivial fun q y _ _ => .kind ?_
  split
  · split
    · refine .advance (.ite (fun _ => ?_) fun _ => .pure trivial)
      exact .report (.pure trivial)
    · exact .pure trivial
  · exact .pure trivial

theorem unitScope_ne_localVar (modifiers : Modifiers) :
    Parse.unitScope modifiers ≠ .localVar := by
  unfold Parse.unitScope
  split
  · exact VarScope.noConfusion
  · split <;> exact VarScope.noConfusion

/-- Variables outside of procedures are no locals. -/
theorem declaredScope_yields (q : Qualifiers) :
    Inner (Parse.declaredScope context q) x fun scope _ =>
      context.scope = none → scope ≠ .localVar := by
  unfold Parse.declaredScope
  cases hscope : context.scope with
  | some procedure => exact .reportAll (.pure fun h => nomatch h)
  | none =>
      have hunit := fun (_ : (none : Option ScopeId) = none) => unitScope_ne_localVar q.modifiers
      refine .reportAll (.ite (fun _ => ?_) fun _ => .pure hunit)
      exact .pos (.report (.pure hunit))

theorem arrayLength_yields : Inner Parse.arrayLength x fun _ _ => True := by
  refine .eat (fun _ => ?_) fun _ => .pure trivial
  refine .cursor ?_
  split
  · refine .ite (fun _ => ?_) fun _ => .ite (fun _ => .throw trivial) fun _ => .throw trivial
    exact .discard (.advance (.discard (.expect trivial fun _ => .pure trivial)))
  · exact .throw trivial

/-- An initial value is code of one value, at a known place. -/
theorem initializer_yields {scope : Option ScopeId} (hx : x.scope = scope) :
    Inner (Parse.initializer scope) x fun found y => ∀ code start,
      found = some (code, start) → Values (y.vocabulary scope) 1 code ∧ stream.Has start := by
  have hgiven : ∀ y : Config stream, y.scope = scope → ∀ given : Bool,
      Inner (if given = true then do
          let pos ← Parse.pos
          return some (← Parse.expression scope, pos)
        else return none : Parse (Option (Code × Position))) y fun found y => ∀ code start,
      found = some (code, start) → Values (y.vocabulary scope) 1 code ∧ stream.Has start := by
    intro y hy given
    refine .ite (fun _ => .pos ?_) fun _ => .pure fun _ _ h => nomatch h
    have hpos : stream.Has y.cursor.pos := y.tracked.has_pos
    refine Inner.bind (expression_yields y hy) fun code z _ hcode => .pure ?_
    rintro code' start hfound
    cases hfound
    exact ⟨hcode, hpos⟩
  refine .eat (fun _ => hgiven x.advance hx true) fun _ => ?_
  exact .eat (fun _ => hgiven x.advance hx true) fun _ => hgiven x hx false

/-! ## Variables -/

/-- A symbol that is declared at a place in the scope that is read. -/
def Config.Declared (x : Config stream) (scope : Option ScopeId) (symbol : Symbol)
    (pos : Position) : Prop :=
  ∀ sc, scope = some sc → ∃ index, symbol = .inner sc index ∧
    x.table.siteOf? (.inner sc index) = some pos

theorem Config.Declared.later {x y : Config stream} {scope : Option ScopeId} {symbol : Symbol}
    {pos : Position} (h : x.Declared scope symbol pos) (hs : InnerSteps x y) :
    y.Declared scope symbol pos := by
  intro sc hsc
  obtain ⟨index, hsymbol, hsite⟩ := h sc hsc
  exact ⟨index, hsymbol, hs.grows.table.siteOf?_inner trivial hsite⟩

theorem SymbolTable.declareLocal_declared {t u : SymbolTable} {scope : ScopeId} {name : String}
    {pos : Position} {symbol : Symbol} (h : t.declareLocal scope name pos = .ok (symbol, u)) :
    ∃ index, symbol = .inner scope index ∧ u.siteOf? (.inner scope index) = some pos := by
  obtain ⟨p, handle, namelist, hp, _, _, rfl, rfl⟩ := declareLocal_spec h
  refine ⟨p.locals.length, rfl, ?_⟩
  unfold siteOf?
  simp only
  rw [scope?_modifyScope_self, hp]
  simp [Variable.fresh]

namespace ParserState

variable {s : ParserState} {scope : VarScope} {name : String} {pos : Position} {α : Type}

theorem declareVariable_ok {symbol : Symbol} {table : SymbolTable}
    (h : s.table.declareIn context.scope scope name pos = .ok (symbol, table))
    (k : Option Symbol → Parse α) :
    (Parse.declareVariable context scope name pos >>= k) s =
      (Parse.record symbol pos .declaration >>= fun _ => k (some symbol))
        { s with table := table } := by
  unfold Parse.declareVariable
  show EStateM.bind (EStateM.bind Parse.table _) k s = _
  have htable : Parse.table s = .ok s.table s := rfl
  simp only [EStateM.bind, htable, h]
  rfl

theorem declareVariable_error {problem : Diagnostic}
    (h : s.table.declareIn context.scope scope name pos = .error problem)
    (k : Option Symbol → Parse α) :
    (Parse.declareVariable context scope name pos >>= k) s =
      (Parse.report problem >>= fun _ => k none) s := by
  unfold Parse.declareVariable
  show EStateM.bind (EStateM.bind Parse.table _) k s = _
  have htable : Parse.table s = .ok s.table s := rfl
  simp only [EStateM.bind, htable, h]
  rfl

end ParserState

theorem InnerStep.declareIn {scope : VarScope} {name : String} {symbol : Symbol}
    {table : SymbolTable} (hk : x.cursor.kind = .ident name)
    (h : x.table.declareIn x.scope scope name x.cursor.pos = .ok (symbol, table)) :
    InnerStep x (x.advance.setTable table) := by
  cases hx : x.scope with
  | some procedure =>
      rw [hx] at h
      exact .declareLocal x hx hk h
  | none =>
      rw [hx] at h
      exact .declareVar x hx hk h

theorem SymbolTable.declareIn_declared {t u : SymbolTable} {place : Option ScopeId}
    {scope : VarScope} {name : String} {pos : Position} {symbol : Symbol}
    (h : t.declareIn place scope name pos = .ok (symbol, u)) {sc : ScopeId}
    (hsc : place = some sc) :
    ∃ index, symbol = .inner sc index ∧ u.siteOf? (.inner sc index) = some pos := by
  subst hsc
  exact declareLocal_declared h

namespace Yields

variable {α : Type} {Q : α → Config stream → Prop} {E : Config stream → Prop}

/-- The token that is read must be a name, and is declared, or reported. -/
theorem declareNext {scope : VarScope} {k : String → Position → Option Symbol → Parse α}
    {next : String × Position → Parse α} (hx : x.scope = context.scope) (hE : E x)
    (hnext : ∀ name pos, next (name, pos) =
      Parse.declareVariable context scope name pos >>= k name pos)
    (h : ∀ name declared y, x.cursor.kind = .ident name → InnerSteps x y →
      x.cursor.advance.Follows y.cursor →
      (∀ symbol, declared = some symbol → y.Declared context.scope symbol x.cursor.pos) →
      Yields InnerStep (k name x.cursor.pos declared) y Q E) :
    Yields InnerStep (Parse.expectIdent >>= next) x Q E := by
  have hpos : stream.Has x.cursor.pos := x.tracked.has_pos
  by_cases hident : ∃ name, x.cursor.kind = .ident name
  · obtain ⟨name, hname⟩ := hident
    have hread : Parse.expectIdent x.state = .ok (name, x.cursor.pos) x.advance.state :=
      ParserState.expectIdent_of_ident hname
    cases hd : x.table.declareIn context.scope scope name x.cursor.pos with
    | ok found =>
        obtain ⟨symbol, table⟩ := found
        have hstep : InnerStep x (x.advance.setTable table) := .declareIn hname (hx ▸ hd)
        refine .stepVia hstep (q := do
          Parse.record symbol x.cursor.pos .declaration
          k name x.cursor.pos (some symbol)) ?_ ?_
        · show EStateM.bind Parse.expectIdent next x.state = _
          simp only [EStateM.bind, hread, hnext]
          exact ParserState.declareVariable_ok (s := x.advance.state) hd _
        · refine .record hpos fun y hxy _ =>
            h name _ y hname (.head hstep hxy) (InnerSteps.grows hxy).cursor ?_
          rintro symbol' ⟨⟩
          exact Config.Declared.later (fun sc hsc => SymbolTable.declareIn_declared hd hsc) hxy
    | error problem =>
        refine .stepVia (.move x _ x.cursor.follows_advance) (q := do
          Parse.report problem
          k name x.cursor.pos none) ?_ ?_
        · show EStateM.bind Parse.expectIdent next x.state = _
          simp only [EStateM.bind, hread, hnext]
          exact ParserState.declareVariable_error (s := x.advance.state) hd _
        · exact .report (h name none _ hname (.tail (.single (.move x _ _)) (.report _ _)) (.refl _)
            fun _ hsymbol => by cases hsymbol)
  · exact expectIdent hE fun name hname => absurd ⟨name, hname⟩ hident

end Yields

/-- A constant of code whose leaves are known is a value of the unit. -/
theorem Values.constant_resolves {scope : Option ScopeId} {n : Nat} {code : Code} {value : Value}
    (h : Values (x.vocabulary scope) n code) (hv : code.constant? = some value) :
    value.ResolvesIn x.table.strings := by
  refine Code.constant?_resolves (fun node hnode hkind => ?_) hv
  cases h.admits node hnode with
  | literal _ leaf => exact leaf.2.1
  | name kind _ =>
      revert hkind kind
      cases node.kind <;> simp [NodeKind.isLiteral, NodeKind.isMention]
  | own kind _ => simp [kind, NodeKind.isLiteral] at hkind
  | operation kind _ _ => simp [NodeKind.isOperation, hkind] at kind

/-- An initial value is kept with its variable, or stored by the code. -/
theorem setInitial_yields {symbol : Symbol} {scope : VarScope} {length : Nat} {name : String}
    {pos start : Position} {code : Code} {l : Bool}
    (hdeclared : x.Declared context.scope symbol pos)
    (hscope : context.scope = none → scope ≠ .localVar)
    (hcode : Values (x.vocabulary context.scope) 1 code) (hpos : stream.Has pos)
    (hstart : stream.Has start) :
    Inner (Parse.setInitial symbol scope length name pos code start) x fun code y =>
      Statements (y.vocabulary context.scope) l code := by
  unfold Parse.setInitial
  refine .ite (fun _ => .report (.pure .nil)) fun _ => ?_
  split
  · rename_i value hvalue
    have hgiven : ∀ v, some value = some v → v.ResolvesIn x.table.strings := by
      rintro v ⟨⟩
      exact hcode.constant_resolves hvalue
    exact .stepVia (.adjust x symbol (.withValue hgiven)) rfl (.pure (a := ([] : Code)) .nil)
  · refine .ite (fun hlocal => ?_) fun _ => .report (.pure .nil)
    have hstep := InnerStep.adjust x symbol (.initialized _)
    let stored : Code := code ++ [symbol.toNode pos, Node.op .store start]
    refine .stepVia hstep rfl (.pure (a := stored) ?_)
    cases hsc : context.scope with
    | none => exact absurd hlocal.1 (hscope hsc)
    | some sc =>
        obtain ⟨index, rfl, hsite⟩ := (hdeclared.later (.single hstep)) sc hsc
        rw [hsc] at hcode
        exact .init (hcode.later (.single hstep)) rfl ⟨sc, index, pos, rfl, rfl, hpos, hsite⟩
          hstart

theorem variableItem_yields {scope : VarScope} (hscope : context.scope = none → scope ≠ .localVar) :
    Executes stream context (Parse.variableItem context scope) := by
  intro x hx
  have hpos : stream.Has x.cursor.pos := x.tracked.has_pos
  refine .declareNext hx trivial (fun _ _ => rfl) fun name declared y _ hxy _ hdeclared => ?_
  apply Inner.bind arrayLength_yields
  intro length z hyz _
  have hz : z.scope = context.scope := InnerSteps.scope_of (hxy.trans hyz) hx
  apply Inner.bind (initializer_yields hz)
  intro init w hzw hinit
  cases declared with
  | none => exact .pure .nil
  | some symbol =>
      have hw : w.Declared context.scope symbol x.cursor.pos :=
        (hdeclared symbol rfl).later (hyz.trans hzw)
      have hstep := InnerStep.adjust w symbol (.arrayLength _ length)
      cases init with
      | none =>
          exact .stepVia hstep rfl (.pure (a := ([] : Code)) .nil)
      | some found =>
          obtain ⟨code, start⟩ := found
          obtain ⟨hcode, hstart⟩ := hinit code start rfl
          refine .stepVia hstep rfl (setInitial_yields (hw.later (.single hstep)) hscope
            (hcode.later (.single hstep)) hpos hstart)

/-! ## Lists and blocks -/

theorem variableBlock_yields {scope : VarScope} {opener : Token}
    (hscope : context.scope = none → scope ≠ .localVar) :
    Executes stream context (Parse.variableBlock context scope opener) := by
  intro x hx
  refine Inner.rounds (I := fun code y =>
    Statements (y.vocabulary context.scope) context.inLoop code) .nil fun code y hxy hcode => ?_
  refine .eat (fun _ => .pure (hcode.later (.single (.move y _ _)))) fun _ => ?_
  refine .cursor (.ite (fun _ => .throw trivial) fun _ => ?_)
  apply Inner.bind (variableItem_yields hscope y (hxy.scope_of hx))
  intro item z hyz hitem
  refine .discard (.expect trivial fun _ => .pure ?_)
  exact .later (.append (hcode.later hyz) hitem) (.single (.move z _ _))

theorem variableList_yields {scope : VarScope}
    (hscope : context.scope = none → scope ≠ .localVar) :
    Executes stream context (Parse.variableList context scope) := by
  intro x hx
  let I (code : Code) (y : Config stream) : Prop :=
    Statements (y.vocabulary context.scope) context.inLoop code
  apply Inner.rounds (I := I) .nil
  intro code y hxy hcode
  have hcomma : ∀ {code : Code} {w : Config stream}, I code w →
      Inner (do if ← Parse.eat (.mark .comma) then return .inl code else return .inr code :
        Parse (Code ⊕ Code)) w (roundPost I I) := by
    intro code w hcode
    exact .eat (fun _ => .pure (hcode.later (.single (.move w _ _)))) fun _ => .pure hcode
  apply Inner.bind (variableItem_yields hscope y (hxy.scope_of hx)).attempt
  intro found z hyz hfound
  cases found with
  | ok item => exact .pureBind (hcomma (.append (hcode.later hyz) hfound))
  | error e =>
      have hskip := (z.report [e.diagnostic]).cursor.follows_synchronize .declarationBoundary
      have hsteps : InnerSteps z ((z.report [e.diagnostic]).move _ hskip) :=
        .tail (.single (.report z _)) (.move _ _ hskip)
      exact .report (.moveCursor hskip (.pureBind (hcomma (hcode.later (hyz.trans hsteps)))))

theorem variableDeclaration_yields (q : Qualifiers) :
    Executes stream context (Parse.variableDeclaration context q) := by
  intro x hx
  refine Inner.bind (declaredScope_yields q) fun scope y hxy hscope => .advance ?_
  have hy : y.advance.scope = context.scope := hxy.scope_of hx
  refine .eat (fun _ => variableBlock_yields hscope y.advance.advance hy) fun _ => ?_
  apply Inner.bind (variableList_yields hscope y.advance hy)
  intro code z _ hcode
  exact .discard (.expect trivial fun _ => .pure (hcode.later (.single (.move z _ _))))

end SslFrontend
