import SslFrontend.Parser.Module
import SslFrontend.Proofs.Along.Rules
import SslFrontend.Proofs.Symbol.Edit

/-! # Along expressions, declarations and statements

Each repetition of the grammar is a name for what one round of it does, and
`repeatRounds` of that.

What holds across whatever is done at a time inside a scope holds along every
production that stays inside it (`HoldsWithin.statement_along`), and along the
parts of a header that are no parameters.
-/

/-! ## The loops of the grammar -/

namespace SslFrontend.Parse

/-- One more argument. -/
def argumentRound (inner : Parse Code) : Code × Nat → Parse ((Code × Nat) ⊕ (Code × Nat))
  | (code, count) => do
    let next := (code ++ (← inner), count + 1)
    if ← eat (.mark .comma) then return .inl next else return .inr next

theorem argumentRun_eq (inner : Parse Code) :
    argumentRun inner = repeatRounds (argumentRound inner) ([], 0) := rfl

/-- One more index. -/
def indexRound (inner : Parse Code) (code : Code) : Parse (Code ⊕ Code) := do
  if ← check (.mark .lbracket) then
    let pos := (← advance).pos
    let index ← inner
    discard <| expect (.mark .rbracket)
    return .inl (code ++ index ++ [Node.op .index pos])
  else
    return .inr code

theorem indices_eq (inner : Parse Code) :
    indices inner = repeatRounds (indexRound inner) := rfl

/-- One more binary operator, with its right side. -/
def linkRound (scope : Option ScopeId) (inner : Parse Code) (links : List (Operator × Code)) :
    Parse (List (Operator × Code) ⊕ List (Operator × Code)) := do
  match Operator.binary? (← kind) with
  | some (level, kind) =>
    let pos := (← advance).pos
    let code ← operand scope inner
    return .inl (links ++ [(⟨level, Node.op kind pos⟩, code)])
  | none => return .inr links

theorem chainRun_eq (scope : Option ScopeId) (inner : Parse Code) :
    chainRun scope inner = repeatRounds (linkRound scope inner) [] := rfl

/-- One more qualifier. -/
def qualifierRound (q : Qualifiers) : Parse (Qualifiers ⊕ Qualifiers) := do
  match ← kind with
  | .keyword word =>
    match Qualifier.ofKeyword? word with
    | some qualifier =>
      let pos := (← advance).pos
      if q.modifiers.has qualifier then
        report (.warning .repeatedQualifier s!"duplicate `{qualifier.word}` qualifier" pos
          "already given")
      return .inl ⟨q.written ++ [(qualifier, pos)]⟩
    | none => return .inr q
  | _ => return .inr q

theorem qualifiers_eq : qualifiers = repeatRounds qualifierRound ⟨[]⟩ := rfl

/-- One more variable of a block, or its end. -/
def variableBlockRound (context : Context) (scope : VarScope) (opener : Token) (code : Code) :
    Parse (Code ⊕ Code) := do
  if ← eat (.keyword .kwEnd) then return .inr code
  let c ← cursor
  if c.atEnd || c.check (.keyword .kwProcedure) then
    throw (.unclosed opener "variable block")
  let item ← variableItem context scope
  discard <| expect (.mark .semicolon)
  return .inl (code ++ item)

theorem variableBlock_eq (context : Context) (scope : VarScope) (opener : Token) :
    variableBlock context scope opener =
      repeatRounds (variableBlockRound context scope opener) [] := rfl

/-- One more variable of a list. -/
def variableListRound (context : Context) (scope : VarScope) (code : Code) :
    Parse (Code ⊕ Code) := do
  let code ←
    match ← attempt (variableItem context scope) with
    | .ok item => pure (code ++ item)
    | .error e =>
      report e.diagnostic
      moveCursor (·.synchronize .declarationBoundary)
      pure code
  if ← eat (.mark .comma) then return .inl code else return .inr code

theorem variableList_eq (context : Context) (scope : VarScope) :
    variableList context scope = repeatRounds (variableListRound context scope) [] := rfl

/-- One more statement of a block, or its end. -/
def blockRound (inner : Parse Code) (opener : Token) (code : Code) : Parse (Code ⊕ Block) := do
  let found ← kind
  if Cursor.closes found then
    checkCloser opener (← advance)
    return .inr ⟨code, none⟩
  else if found = .eof ∨ found = .keyword .kwProcedure then
    return .inr ⟨code, some (.unclosed opener "block")⟩
  else
    blockStatement inner code

theorem openBlock_eq (inner : Parse Code) :
    openBlock inner = advance >>= fun opener => repeatRounds (blockRound inner opener) [] := rfl

/-- One more parameter. -/
def parameterRound (params : List NumberedParam) :
    Parse (List NumberedParam ⊕ List NumberedParam) := do
  let params := params ++ [← parameter params]
  if ← eat (.mark .comma) then return .inl params else return .inr params

theorem parameterRun_eq : parameterRun = repeatRounds parameterRound [] := rfl

/-- One more trigger. -/
def triggerRound (trigger : Trigger) : Parse (Trigger ⊕ Trigger) := do
  let pos ← pos
  match ← kind with
  | .keyword .kwIn =>
    discard advance
    return .inl (← keepFirst trigger pos (← timedTrigger pos))
  | .keyword .kwWhen =>
    discard advance
    return .inl (← keepFirst trigger pos (some (.conditional (← expression none))))
  | _ => return .inr trigger

theorem trigger_eq : trigger = repeatRounds triggerRound .none := rfl

/-- What no trigger starts with ends the triggers. -/
theorem triggerRound_last {s : ParserState} (trigger : Trigger)
    (hin : s.cursor.kind ≠ .keyword .kwIn) (hwhen : s.cursor.kind ≠ .keyword .kwWhen) :
    triggerRound trigger s = .ok (.inr trigger) s := by
  have hlook : ∀ k : TokenKind → Parse (Trigger ⊕ Trigger),
      (kind >>= k) s = k s.cursor.kind s := fun _ => rfl
  have hpos : ∀ k : Position → Parse (Trigger ⊕ Trigger),
      (pos >>= k) s = k s.cursor.pos s := fun _ => rfl
  unfold triggerRound
  rw [hpos, hlook]
  cases hk : s.cursor.kind with
  | keyword word =>
      cases word with
      | kwIn => exact absurd hk hin
      | kwWhen => exact absurd hk hwhen
      | _ => rfl
  | _ => rfl

/-! ## Productions that look something up -/

theorem rounds_succ {α β : Type} (round : α → Parse (α ⊕ β)) (bound : Nat) (a : α)
    (s : ParserState) : rounds round (bound + 1) a s =
      match round a s with
      | .ok (.inl next) t => rounds round bound next t
      | .ok (.inr last) t => .ok last t
      | .error e t => .error e t := by
  show EStateM.bind (round a) _ s = _
  unfold EStateM.bind
  cases round a s with
  | error e t => rfl
  | ok r t => cases r <;> rfl

theorem stringOperand_eq (text : String) (pos : Position) (s : ParserState) :
    stringOperand text pos s =
      match s.table.strings.intern text with
      | .ok (handle, strings) => .ok [⟨.string, .string handle, pos⟩]
          { s with table := { s.table with strings := strings } }
      | .error error => .ok [Node.op .error pos]
          { s with problems := s.problems.push (SymbolTable.refused pos error) } := by
  have hlook : ∀ k : SymbolTable → Parse Code, (table >>= k) s = k s.table s := fun _ => rfl
  unfold stringOperand
  rw [hlook]
  cases s.table.strings.intern text <;> rfl

theorem declareVariable_eq (context : Context) (scope : VarScope) (name : String)
    (pos : Position) (s : ParserState) : declareVariable context scope name pos s =
      match s.table.declareIn context.scope scope name pos with
      | .ok (symbol, table) => .ok (some symbol)
          { s with table := table, ledger := s.ledger.record symbol pos .declaration }
      | .error problem => .ok none { s with problems := s.problems.push problem } := by
  have hlook : ∀ k : SymbolTable → Parse (Option Symbol), (table >>= k) s = k s.table s :=
    fun _ => rfl
  unfold declareVariable
  rw [hlook]
  cases s.table.declareIn context.scope scope name pos <;> rfl

/-- What an item that starts with a token is, behind its qualifiers. -/
def itemFrom (q : Qualifiers) : TokenKind → Parse Code
  | .keyword .kwProcedure => do
    procedure q
    return []
  | .keyword .kwVariable => variableDeclaration .top q
  | _ =>
    if q.isEmpty then statement .top
    else do throw (.expected "`variable` or `procedure`" (← cursor))

theorem item_eq_itemFrom : item = qualifiers >>= fun q => kind >>= itemFrom q := rfl

end SslFrontend.Parse

namespace SslFrontend.HoldsWithin

open Parse (Along)

variable {R : ParserState → ParserState → Prop} {scope : Option ScopeId} {inner : Parse Code}

section Within

variable {declares : Prop} (h : HoldsWithin declares scope R)

include h

/-! ## Expressions -/

theorem unaryRun_along : Along R Parse.unaryRun :=
  .bind h h.cursor fun _ =>
    .bind h (h.moveCursor fun c => c.follows_skipWhile _) fun _ => .pure h _

theorem argumentRound_along (hi : Along R inner) (found : Code × Nat) :
    Along R (Parse.argumentRound inner found) :=
  .bind h hi fun _ => .bind h (h.eat _) fun _ => .ite (.pure h _) (.pure h _)

theorem argumentRun_along (hi : Along R inner) : Along R (Parse.argumentRun inner) :=
  .repeatRounds h (h.argumentRound_along hi) _

theorem arguments_along (hi : Along R inner) : Along R (Parse.arguments inner) := by
  have hclose : ∀ found : Code × Nat, Along R (do
      discard <| Parse.expect (.mark .rparen)
      return found : Parse (Code × Nat)) :=
    fun found => .bind h (.discard (h.expect _)) fun _ => .pure h found
  refine .bind h (h.check _) fun _ => .ite ?_ ?_
  · exact hclose ([], 0)
  · exact .bind h (h.argumentRun_along hi) hclose

theorem stringOperand_along (text : String) (pos : Position) :
    Along R (Parse.stringOperand text pos) := by
  intro s
  have hlook : ∀ {k : SymbolTable → Parse Code}, R s ((k s.table).after s) →
      R s ((Parse.table >>= k).after s) := fun hk => hk
  refine hlook ?_
  cases hi : s.table.strings.intern text with
  | ok found =>
      simp only
      exact h.intern s hi
  | error e =>
      simp only
      exact h.report s [SymbolTable.refused pos e]

theorem primary_along (hi : Along R inner) : Along R (Parse.primary scope inner) := by
  intro s
  have hlook : ∀ {k : Cursor → Parse Code}, R s ((k s.cursor).after s) →
      R s ((Parse.cursor >>= k).after s) := fun hk => hk
  have hskip : ∀ {p : Parse Code}, Along R p → Along R (discard Parse.advance >>= fun _ => p) :=
    fun hp => .bind h (.discard h.advance) fun _ => hp
  refine hlook ?_
  extract_lets token pos
  cases hkind : token.kind with
  | int n => exact hskip (.pure h _) s
  | float r => exact hskip (.pure h _) s
  | str text => exact hskip (h.stringOperand_along text pos) s
  | ident name =>
      show R s (Parse.after (Parse.mention scope name s.cursor.pos >>= _)
        { s with cursor := s.cursor.advance })
      refine h.mentionRead hkind fun callee => .bind h (h.eat _) fun _ => .ite ?_ (.pure h _)
      exact .bind h (h.arguments_along hi) fun _ => .pure h _
  | keyword word =>
      cases word with
      | kwTrue | kwFalse => exact hskip (.pure h _) s
      | _ => exact Along.throw h _ s
  | mark sign =>
      cases sign with
      | atSign =>
          refine hskip (h.nameNext fun t name hname => ?_) s
          exact h.mentionRead hname fun _ => .pure h _
      | lparen =>
          exact hskip (.bind h hi fun _ => .bind h (.discard (h.expect _)) fun _ => .pure h _) s
      | _ => exact Along.throw h _ s
  | included path => exact Along.throw h _ s
  | invalid => exact hskip (.pure h _) s
  | eof => exact Along.throw h _ s

theorem indexRound_along (hi : Along R inner) (code : Code) :
    Along R (Parse.indexRound inner code) := by
  refine .bind h (h.check _) fun _ => .ite ?_ (.pure h _)
  exact .bind h h.advance fun _ => .bind h hi fun _ =>
    .bind h (.discard (h.expect _)) fun _ => .pure h _

theorem indices_along (hi : Along R inner) (code : Code) : Along R (Parse.indices inner code) :=
  .repeatRounds h (h.indexRound_along hi) code

theorem operand_along (hi : Along R inner) : Along R (Parse.operand scope inner) :=
  .bind h h.unaryRun_along fun _ => .bind h (h.primary_along hi) fun _ =>
    .bind h (h.indices_along hi _) fun _ => .pure h _

theorem linkRound_along (hi : Along R inner) (links : List (Operator × Code)) :
    Along R (Parse.linkRound scope inner links) := by
  refine .bind h h.kind fun kind => ?_
  split
  · exact .bind h h.advance fun _ => .bind h (h.operand_along hi) fun _ => .pure h _
  · exact .pure h _

theorem chainRun_along (hi : Along R inner) : Along R (Parse.chainRun scope inner) :=
  .repeatRounds h (h.linkRound_along hi) _

theorem expressionWith_along (hi : Along R inner) : Along R (Parse.expressionWith scope inner) :=
  .bind h (h.operand_along hi) fun _ => .bind h (h.chainRun_along hi) fun _ => .pure h _

theorem expressionTo_along (depth : Nat) : Along R (Parse.expressionTo scope depth) := by
  induction depth with
  | zero => exact .bind h h.cursor fun _ => .throw h _
  | succ depth ih => exact h.expressionWith_along ih

theorem expression_along : Along R (Parse.expression scope) :=
  .bind h h.cursor fun _ => h.expressionTo_along _

/-! ## Declarations -/

theorem qualifierRound_along (q : Qualifiers) : Along R (Parse.qualifierRound q) := by
  refine .bind h h.kind fun kind => ?_
  split
  · split
    · refine .bind h h.advance fun token => ?_
      split
      · exact .bind h (h.reported _) fun _ => .pure h _
      · exact .pure h _
    · exact .pure h _
  · exact .pure h _

theorem qualifiers_along : Along R Parse.qualifiers :=
  .repeatRounds h h.qualifierRound_along _

theorem declaredScope_along (context : Context) (q : Qualifiers) :
    Along R (Parse.declaredScope context q) := by
  unfold Parse.declaredScope
  split
  · exact .bind h (h.reportAll _) fun _ => .pure h _
  · refine .bind h (h.reportAll _) fun _ => ?_
    split
    · exact .bind h h.pos fun _ => .bind h (h.reported _) fun _ => .pure h _
    · exact .pure h _

theorem arrayLength_along : Along R Parse.arrayLength := by
  refine .bind h (h.eat _) fun _ => .ite (.bind h h.cursor fun c => ?_) (.pure h _)
  split
  · refine .ite ?_ (.ite (.throw h _) (.throw h _))
    exact .bind h (.discard h.advance) fun _ =>
      .bind h (.discard (h.expect _)) fun _ => .pure h _
  · exact .throw h _

theorem initializer_along : Along R (Parse.initializer scope) := by
  have hgiven : ∀ given : Bool, Along R (if given = true then do
      let pos ← Parse.pos
      return some (← Parse.expression scope, pos)
    else return none : Parse (Option (Code × Position))) := fun given =>
    .ite (.bind h h.pos fun _ => .bind h h.expression_along fun _ => .pure h _) (.pure h _)
  exact .bind h (h.eat _) fun _ => .ite (hgiven true) (.bind h (h.eat _) hgiven)

/-- Only a variable that is not imported is given a value. -/
theorem setInitial_at {s : ParserState} (symbol : Symbol) (kind : VarScope) (length : Nat)
    (name : String) (pos : Position) (code : Code) (start : Position)
    (ha : kind ≠ .importVar → ∀ {f : Variable → Variable}, (∀ v, (f v).label = v.label) →
      (∀ v, (f v).scope = v.scope) → R s { s with table := s.table.modifyVariable symbol f }) :
    R s ((Parse.setInitial symbol kind length name pos code start).after s) := by
  unfold Parse.setInitial
  by_cases hk : kind = .importVar
  · rw [if_pos hk]
    exact Along.bind h (h.reported _) (fun _ => .pure h _) s
  · rw [if_neg hk]
    split
    · exact Along.bind_at h (ha hk (fun _ => rfl) fun _ => rfl) fun _ => .pure h _
    · split
      · exact Along.bind_at h (ha hk (fun _ => rfl) fun _ => rfl) fun _ => .pure h _
      · exact Along.bind h (h.reported _) (fun _ => .pure h _) s

/-- What follows the name of a variable. -/
theorem declaredItem_at {context : Context} (hc : context.scope = scope) (kind : VarScope)
    (name : String) (pos : Position) (declared : Option Symbol) {s : ParserState}
    (hl : ∀ (t : ParserState) symbol length, declared = some symbol → R t { t with
      table := t.table.modifyVariable symbol fun v => { v with arrayLength := length } })
    (ha : ∀ t symbol, s.table.KeepsScopes t.table → declared = some symbol → kind ≠ .importVar →
      ∀ {f : Variable → Variable}, (∀ v, (f v).label = v.label) → (∀ v, (f v).scope = v.scope) →
      R t { t with table := t.table.modifyVariable symbol f }) :
    R s (Parse.after (do
      let length ← Parse.arrayLength
      let init ← Parse.initializer context.scope
      match declared with
      | none => return []
      | some symbol =>
        Parse.modifyVariable symbol fun v => { v with arrayLength := length }
        match init with
        | none => return []
        | some (code, start) =>
          Parse.setInitial symbol kind length name pos code start : Parse Code) s) := by
  -- The scope of the symbol is still known when it is given its value.
  have hboth := h.both (keepsScopes declares scope)
  have hinitializer := hc ▸ hboth.initializer_along
  refine (Along.bind_behind hboth (hboth.arrayLength_along s) fun length t ht =>
    Along.bind_behind hboth (hinitializer t) fun init u hu => ?_).1
  cases declared with
  | none => exact Along.pure hboth _ u
  | some symbol =>
      refine Along.bind_behind hboth ⟨hl u symbol length rfl,
        SymbolTable.keepsScopes_modifyVariable symbol fun _ => rfl⟩ fun _ w hw => ?_
      cases init with
      | none => exact Along.pure hboth _ w
      | some found =>
          have hkept := (ht.2.trans hu.2).trans hw.2
          exact hboth.setInitial_at symbol kind length name pos _ _ fun hk f hlabel hscope =>
            ⟨ha w symbol hkept rfl hk hlabel hscope,
              SymbolTable.keepsScopes_modifyVariable symbol hscope⟩

/-! ## Statements -/

theorem assign_along (target : Node) (index : Option Code) :
    Along R (Parse.assign scope target index) := by
  refine .bind h h.advance fun op => ?_
  split
  · exact .throw h _
  · exact .bind h h.expression_along fun _ => .pure h _
  · exact .bind h h.expression_along fun _ => .pure h _
  · exact .pure h _

theorem assignment_along : Along R (Parse.assignment scope) := by
  refine h.nameNext fun s name hname => h.mentionRead hname fun target => ?_
  refine .bind h (h.eat _) fun _ => .ite ?_ (h.assign_along target none)
  exact .bind h h.expression_along fun _ => .bind h (.discard (h.expect _)) fun _ =>
    h.assign_along target _

theorem simple_along : Along R (Parse.simple scope) :=
  .bind h h.cursor fun _ => .ite h.assignment_along (.bind h h.expression_along fun _ => .pure h _)

theorem forceProgress_along (start : Nat) :
    Along R (Parse.blockStatement.forceProgress start) :=
  .bind h h.cursor fun _ => .ite (.discard h.advance) (.pure h _)

theorem recover_along (boundary : KindSet) : Along R (Parse.recover boundary) :=
  .bind h (h.moveCursor fun c => c.follows_synchronize boundary) fun _ => .discard (h.eat _)

theorem blockStatement_along (hi : Along R inner) (code : Code) :
    Along R (Parse.blockStatement inner code) := by
  refine .bind h h.cursor fun c => .bind h hi.attempt fun found => ?_
  cases found with
  | ok more => exact .bind h (h.forceProgress_along _) fun _ => .pure h _
  | error e =>
      refine .ite (.pure h _) (.bind h (h.reported _) fun _ => ?_)
      exact .bind h (h.recover_along _) fun _ => .bind h (h.forceProgress_along _) fun _ =>
        .pure h _

theorem blockRound_along (hi : Along R inner) (opener : Token) (code : Code) :
    Along R (Parse.blockRound inner opener code) := by
  refine .bind h h.kind fun found => .ite ?_ (.ite (.pure h _) (h.blockStatement_along hi code))
  exact .bind h h.advance fun closer => .bind h (.ite (h.reported _) (.pure h _)) fun _ =>
    .pure h _

/-- The relation holds from behind the token that opens a block. -/
theorem openBlock_behind (hi : Along R inner) (s : ParserState) :
    R { s with cursor := s.cursor.advance } ((Parse.openBlock inner).after s) :=
  Along.repeatRounds h (h.blockRound_along hi s.cursor.current) []
    { s with cursor := s.cursor.advance }

theorem openBlock_along (hi : Along R inner) : Along R (Parse.openBlock inner) :=
  fun s => h.trans (h.move s s.cursor.follows_advance) (h.openBlock_behind hi s)

theorem block_along (hi : Along R inner) : Along R (Parse.block inner) := by
  refine .bind h (h.openBlock_along hi) fun found => ?_
  split
  · exact .throw h _
  · exact .pure h _

theorem ifStatement_along (hi : Along R inner) : Along R (Parse.ifStatement scope inner) := by
  refine .bind h h.advance fun _ => .bind h h.expression_along fun _ => ?_
  refine .bind h (.discard (h.expect _)) fun _ => .bind h hi fun _ => ?_
  refine .bind h (h.check _) fun _ => .ite ?_ ?_
  · exact .bind h h.advance fun _ => .bind h hi fun _ => .bind h (.pure h _) fun _ =>
      .bind h h.cursor fun _ => .pure h _
  · exact .bind h (.pure h _) fun _ => .bind h h.cursor fun _ => .pure h _

theorem whileStatement_along (hi : Along R inner) :
    Along R (Parse.whileStatement scope inner) :=
  .bind h h.advance fun _ => .bind h h.expression_along fun _ =>
    .bind h (.discard (h.expect _)) fun _ => .bind h hi fun _ =>
      .bind h h.cursor fun _ => .pure h _

theorem forStatement_along (hi : Along R inner) : Along R (Parse.forStatement scope inner) := by
  have hsimple : ∀ skip : Bool, Along R (if skip = true then pure [] else Parse.simple scope) :=
    fun _ => .ite (.pure h _) h.simple_along
  refine .bind h h.advance fun _ => .bind h (.discard (h.expect _)) fun _ => ?_
  refine .bind h (h.check _) fun _ => .join (.bind h (hsimple _) fun _ => ?_)
  refine .bind h (.discard (h.expect _)) fun _ => .bind h (h.check _) fun _ => .join ?_
  refine .bind h (.ite (.pure h _) h.expression_along) fun _ => ?_
  refine .bind h (.discard (h.expect _)) fun _ => .bind h (h.check _) fun _ => .join ?_
  refine .bind h (hsimple _) fun _ => .bind h (.discard (h.expect _)) fun _ => ?_
  exact .bind h hi fun _ => .bind h h.cursor fun _ => .pure h _

theorem returnStatement_along : Along R (Parse.returnStatement scope) := by
  refine .bind h h.advance fun _ => .bind h (h.check _) fun _ => .ite ?_ ?_
  · exact .bind h (.discard h.advance) fun _ => .pure h _
  · exact .bind h h.expression_along fun _ => .bind h (.discard (h.expect _)) fun _ => .pure h _

theorem jumpStatement_along (inLoop : Bool) : Along R (Parse.jumpStatement inLoop) := by
  have hend : ∀ code : Code, Along R (do
      discard <| Parse.expect (.mark .semicolon)
      return code : Parse Code) :=
    fun code => .bind h (.discard (h.expect _)) fun _ => .pure h _
  exact .bind h h.advance fun _ => .ite (.bind h (h.reported _) fun _ => hend _) (hend _)

theorem callStatement_along : Along R (Parse.callStatement scope) := by
  refine .bind h (.discard h.advance) fun _ => ?_
  refine h.nameNext fun s name hname => h.mentionRead hname fun callee => ?_
  have hend : ∀ found : Code × Nat, Along R (do
      discard <| Parse.expect (.mark .semicolon)
      return Parse.callCode found.1 callee found.2 s.cursor.pos ++
        [Node.op .pop s.cursor.pos] : Parse Code) :=
    fun found => .bind h (.discard (h.expect _)) fun _ => .pure h _
  exact .bind h (h.eat _) fun _ => .ite (.bind h (h.arguments_along h.expression_along) hend)
    (hend ([], 0))

end Within

theorem variableItem_along (h : HoldsInside scope R) {context : Context}
    (hc : context.scope = scope) (kind : VarScope) :
    Along R (Parse.variableItem context kind) :=
  h.nameNext fun s name hname => declareRead h hc hname fun declared t hin hdeclared => by
    refine h.declaredItem_at hc kind name s.cursor.pos declared (fun u symbol length hs =>
      h.adjust trivial u symbol (hin symbol hs) (.arrayLength _ _ length))
      fun u symbol hkept hs hk f hlabel hf => ?_
    refine h.adjust trivial u symbol (hin symbol hs) ⟨hlabel, hf, fun i v hi hv himported => ?_⟩
    obtain ⟨w, hw, hkind⟩ := hdeclared i (hi ▸ hs)
    obtain ⟨v', hv', hscope⟩ := hkept.exists hw
    obtain rfl := Option.some.inj (hv.symm.trans hv')
    exact absurd (hkind.symm.trans (hscope.symm.trans himported)) hk

end SslFrontend.HoldsWithin

namespace SslFrontend

open Parse (Along)

/-- The relation holds across whatever is done at a time in a scope where nothing is
declared, and along each variable of a declaration as a whole. -/
structure HoldsAtItems (scope : Option ScopeId) (R : ParserState → ParserState → Prop) :
    Prop where
  within : HoldsWithin False scope R
  item : ∀ {context : Context}, context.scope = scope → ∀ kind : VarScope,
    Along R (Parse.variableItem context kind)

namespace HoldsAtItems

variable {R : ParserState → ParserState → Prop} {scope : Option ScopeId} {context : Context}
  (h : HoldsAtItems scope R)

include h

theorem variableBlockRound_along (hc : context.scope = scope) (kind : VarScope) (opener : Token)
    (code : Code) : Along R (Parse.variableBlockRound context kind opener code) := by
  refine .bind h.within (h.within.eat _) fun _ => .ite (.pure h.within _) ?_
  refine .bind h.within h.within.cursor fun _ => .ite (.throw h.within _) ?_
  exact .bind h.within (h.item hc kind) fun _ =>
    .bind h.within (.discard (h.within.expect _)) fun _ => .pure h.within _

theorem variableBlock_along (hc : context.scope = scope) (kind : VarScope) (opener : Token) :
    Along R (Parse.variableBlock context kind opener) :=
  .repeatRounds h.within (h.variableBlockRound_along hc kind opener) _

theorem variableListRound_along (hc : context.scope = scope) (kind : VarScope) (code : Code) :
    Along R (Parse.variableListRound context kind code) := by
  have hcomma : ∀ code : Code, Along R (do
      if ← Parse.eat (.mark .comma) then return .inl code else return .inr code :
        Parse (Code ⊕ Code)) :=
    fun code => .bind h.within (h.within.eat _) fun _ => .ite (.pure h.within _) (.pure h.within _)
  refine .bind h.within (h.item hc kind).attempt fun found => ?_
  cases found with
  | ok item => exact hcomma _
  | error e =>
      exact .bind h.within (h.within.reported _) fun _ =>
        .bind h.within (h.within.moveCursor fun c => c.follows_synchronize _) fun _ => hcomma _

theorem variableList_along (hc : context.scope = scope) (kind : VarScope) :
    Along R (Parse.variableList context kind) :=
  .repeatRounds h.within (h.variableListRound_along hc kind) _

theorem variableDeclaration_along (hc : context.scope = scope) (q : Qualifiers) :
    Along R (Parse.variableDeclaration context q) := by
  refine .bind h.within (h.within.declaredScope_along context q) fun kind => ?_
  refine .bind h.within h.within.advance fun opener => ?_
  refine .bind h.within (h.within.eat _) fun _ => .ite (h.variableBlock_along hc kind opener) ?_
  exact .bind h.within (h.variableList_along hc kind) fun _ =>
    .bind h.within (.discard (h.within.expect _)) fun _ => .pure h.within _

/-! ## Statements with declarations -/

theorem declarationStatement_along {context : Context} (hc : context.scope = scope) :
    Along R (Parse.declarationStatement context) :=
  .bind h.within h.within.qualifiers_along fun q => .bind h.within (h.within.check _) fun _ =>
    .ite (h.variableDeclaration_along hc q)
      (.bind h.within h.within.cursor fun _ => .throw h.within _)

theorem statementWith_along {inner : Context → Parse Code}
    (hi : ∀ context, context.scope = scope → Along R (inner context)) {context : Context}
    (hc : context.scope = scope) : Along R (Parse.statementWith inner context) := by
  have hsame : Along R (inner context) := hi context hc
  have hloop : Along R (inner { context with inLoop := true }) := hi _ hc
  refine .bind h.within h.within.kind fun kind => ?_
  subst hc
  split
  · exact .bind h.within (.discard h.within.advance) fun _ => .pure h.within _
  · exact h.within.block_along hsame
  · exact h.within.block_along hsame
  · exact h.within.ifStatement_along hsame
  · exact h.within.whileStatement_along hloop
  · exact h.within.forStatement_along hloop
  · exact h.within.returnStatement_along
  · exact h.within.jumpStatement_along _
  · exact h.within.jumpStatement_along _
  · exact h.within.callStatement_along
  iterate 6 exact h.declarationStatement_along rfl
  · exact .bind h.within h.within.simple_along fun _ =>
      .bind h.within (.discard (h.within.expect _)) fun _ => .pure h.within _

theorem statementTo_along (depth : Nat) {context : Context} (hc : context.scope = scope) :
    Along R (Parse.statementTo depth context) := by
  induction depth generalizing context with
  | zero => exact .bind h.within h.within.cursor fun _ => .throw h.within _
  | succ depth ih => exact h.statementWith_along (fun _ hc => ih hc) hc

theorem statement_along {context : Context} (hc : context.scope = scope) :
    Along R (Parse.statement context) :=
  .bind h.within h.within.cursor fun _ => h.statementTo_along _ hc

end HoldsAtItems

namespace HoldsWithin

variable {R : ParserState → ParserState → Prop} {scope : Option ScopeId} {context : Context}
  (h : HoldsInside scope R)

include h

theorem items : HoldsAtItems scope R := ⟨h.silent, h.variableItem_along⟩

theorem variableBlockRound_along (hc : context.scope = scope) (kind : VarScope) (opener : Token)
    (code : Code) : Along R (Parse.variableBlockRound context kind opener code) :=
  h.items.variableBlockRound_along hc kind opener code

theorem variableListRound_along (hc : context.scope = scope) (kind : VarScope) (code : Code) :
    Along R (Parse.variableListRound context kind code) :=
  h.items.variableListRound_along hc kind code

theorem variableDeclaration_along (hc : context.scope = scope) (q : Qualifiers) :
    Along R (Parse.variableDeclaration context q) :=
  h.items.variableDeclaration_along hc q

theorem statementTo_along (depth : Nat) (hc : context.scope = scope) :
    Along R (Parse.statementTo depth context) :=
  h.items.statementTo_along depth hc

theorem statement_along (hc : context.scope = scope) : Along R (Parse.statement context) :=
  h.items.statement_along hc

end HoldsWithin

end SslFrontend

namespace SslFrontend.HoldsWithin

open Parse (Along)

/-! ## Parts of headers -/

variable {R : ParserState → ParserState → Prop} {declares : Prop}
  (h : HoldsWithin declares none R)

include h

theorem paramDefault_along : Along R Parse.paramDefault := by
  refine .bind h h.initializer_along fun given => ?_
  split
  · exact .pure h _
  · split
    · exact .pure h _
    · exact .bind h (h.reported _) fun _ => .pure h _

theorem timedTrigger_along (pos : Position) : Along R (Parse.timedTrigger pos) := by
  refine .bind h h.expression_along fun code => ?_
  split
  · exact .pure h _
  · exact .bind h (h.reported _) fun _ => .pure h _

theorem keepFirst_along (trigger : Trigger) (pos : Position) (found : Option Trigger) :
    Along R (Parse.keepFirst trigger pos found) := by
  cases found with
  | none => exact .pure h _
  | some t => exact .ite (.pure h _) (.bind h (h.reported _) fun _ => .pure h _)

theorem triggerRound_along (trigger : Trigger) : Along R (Parse.triggerRound trigger) := by
  refine .bind h h.pos fun pos => .bind h h.kind fun kind => ?_
  split
  · exact .bind h (.discard h.advance) fun _ => .bind h (h.timedTrigger_along pos) fun _ =>
      .bind h (h.keepFirst_along trigger pos _) fun _ => .pure h _
  · exact .bind h (.discard h.advance) fun _ => .bind h h.expression_along fun _ =>
      .bind h (h.keepFirst_along trigger pos _) fun _ => .pure h _
  · exact .pure h _

theorem trigger_along : Along R Parse.trigger := .repeatRounds h h.triggerRound_along _

variable (hr : Along R Parse.reserve)

include hr

theorem parameter_along (before : List Parse.NumberedParam) :
    Along R (Parse.parameter before) := by
  refine .bind h (.discard (h.eat _)) fun _ => ?_
  refine .bind h h.expectIdent fun found => .bind h hr fun number => ?_
  refine .bind h h.paramDefault_along fun default => ?_
  exact .ite (.bind h (h.reported _) fun _ => .pure h _) (.pure h _)

theorem parameterRound_along (params : List Parse.NumberedParam) :
    Along R (Parse.parameterRound params) :=
  .bind h (h.parameter_along hr params) fun _ => .bind h (h.eat _) fun _ =>
    .ite (.pure h _) (.pure h _)

theorem parameterRun_along : Along R Parse.parameterRun :=
  .repeatRounds h (h.parameterRound_along hr) _

theorem parameters_along : Along R Parse.parameters := by
  have hclose : ∀ params : List Parse.NumberedParam, Along R (do
      discard <| Parse.expect (.mark .rparen)
      return params : Parse (List Parse.NumberedParam)) :=
    fun params => .bind h (.discard (h.expect _)) fun _ => .pure h _
  refine .bind h (h.eat _) fun _ => .ite (.bind h (h.check _) fun _ => ?_) (.pure h _)
  exact .ite (hclose []) (.bind h (h.parameterRun_along hr) hclose)

end SslFrontend.HoldsWithin
