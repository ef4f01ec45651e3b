import SslFrontend.Parser.Declaration

/-! # Statements

A statement answers with its postfix code.  An assignment stores what it
computes in its target: `x += e` is `x e Add x Store`, and `a[i] := e` is
`e i a StoreIndex`.  A block reports and skips the malformed statements in it;
only a block that is never closed fails, and it still has the code of its
complete statements.

As with expressions, a production takes the production for the statements
inside it as its argument `inner`, and `statement` ties the knot.
-/

namespace SslFrontend

/-- How an assignment combines the old value with the new one. -/
inductive Assignment where
  | store
  /-- Combine with the value on the right. -/
  | compound (op : NodeKind)
  /-- Combine with one. -/
  | step (op : NodeKind)
deriving DecidableEq, Repr

namespace Assignment

def ofKind? : TokenKind → Option Assignment
  | .mark .assign | .mark .eq => some .store
  | .mark .plusAssign => some (.compound .add)
  | .mark .minusAssign => some (.compound .sub)
  | .mark .starAssign => some (.compound .mul)
  | .mark .slashAssign => some (.compound .div)
  | .mark .plusPlus => some (.step .add)
  | .mark .minusMinus => some (.step .sub)
  | _ => none

/-- What is behind the bracket that closes `depth + 1` open ones; none if a
semicolon or the end comes first. -/
def afterBrackets? : Nat → List Token → Option (List Token)
  | _, [] => none
  | depth, token :: rest =>
    match token.kind with
    | .mark .lbracket => afterBrackets? (depth + 1) rest
    | .mark .rbracket =>
      match depth with
      | 0 => some rest
      | outer + 1 => afterBrackets? outer rest
    | .mark .semicolon | .eof => none
    | _ => afterBrackets? depth rest

/-- The tokens behind a target that stands in front of `tokens`. -/
def afterTarget? : List Token → Option (List Token)
  | ⟨.ident _, _⟩ :: ⟨.mark .lbracket, _⟩ :: rest => afterBrackets? 0 rest
  | ⟨.ident _, _⟩ :: rest => some rest
  | _ => none

/-- Whether a target and an assignment operator come next. -/
def isNext (tokens : List Token) : Bool :=
  match afterTarget? tokens with
  | some (token :: _) => (ofKind? token.kind).isSome
  | _ => false

/-- Code that reads a target. -/
def targetValue (target : Node) (index : Option Code) (pos : Position) : Code :=
  match index with
  | some code => target :: code ++ [Node.op .index pos]
  | none => [target]

/-- Code that stores into a target. -/
def targetStore (target : Node) (index : Option Code) (pos : Position) : Code :=
  match index with
  | some code => code ++ [target, Node.op .storeIndex pos]
  | none => [target, Node.op .store pos]

end Assignment

namespace Parse

/-- The operator behind a target, and what it assigns. -/
def assign (scope : Option ScopeId) (target : Node) (index : Option Code) : Parse Code := do
  let op ← advance
  match Assignment.ofKind? op.kind with
  | none =>
    throw ⟨.unexpectedToken,
      s!"expected assignment operator, found `{op.kind.friendlyName}`", op.pos, none, []⟩
  | some .store =>
    let value ← expression scope
    return value ++ Assignment.targetStore target index op.pos
  | some (.compound kind) =>
    let value ← expression scope
    return Assignment.targetValue target index op.pos ++ value ++ [Node.op kind op.pos] ++
      Assignment.targetStore target index op.pos
  | some (.step kind) =>
    return Assignment.targetValue target index op.pos ++
      [⟨.int, .int 1, op.pos⟩, Node.op kind op.pos] ++
      Assignment.targetStore target index op.pos

def assignment (scope : Option ScopeId) : Parse Code := do
  let (name, pos) ← expectIdent
  let target ← mention scope name pos
  let index ←
    if ← eat (.mark .lbracket) then
      let code ← expression scope
      discard <| expect (.mark .rbracket)
      pure (some code)
    else pure none
  assign scope target index

/-- An assignment, or an expression whose value is dropped. -/
def simple (scope : Option ScopeId) : Parse Code := do
  let c ← cursor
  if Assignment.isNext c.rest then assignment scope
  else
    let code ← expression scope
    return code ++ [Node.op .pop c.pos]

/-- Code of a block, and why it is not closed. -/
structure Block where
  code : Code
  failure : Option ParseError

/-- A report on a block that is closed by the other kind of token. -/
def checkCloser (opener closer : Token) : Parse Unit := do
  let expected : TokenKind :=
    if opener.kind = .mark .lbrace then .mark .rbrace else .keyword .kwEnd
  if closer.kind ≠ expected then
    report
      ((Diagnostic.error .unexpectedToken
        s!"`{opener.kind.friendlyName}` closed by `{closer.kind.friendlyName}`" closer.pos
        "mismatched closer").withRelated opener.pos "block opened here")

/-- One statement of a block, behind the code of those before it.  A malformed
one is skipped; an unclosed block inside it ends this one too. -/
def blockStatement (inner : Parse Code) (code : Code) : Parse (Code ⊕ Block) := do
  let start := (← cursor).position
  match ← attempt inner with
  | .ok more =>
    forceProgress start
    return .inl (code ++ more)
  | .error e =>
    if e.cause = .unclosedBlock then return .inr ⟨code, some e⟩
    report e.diagnostic
    recover .statementBoundary
    forceProgress start
    return .inl code
where
  /-- Read a token if none was read since `start`. -/
  forceProgress (start : Nat) : Parse Unit := do
    if (← cursor).position = start then discard advance

/-- A block from its opening token. -/
def openBlock (inner : Parse Code) : Parse Block := do
  let opener ← advance
  repeatRounds
    (fun code => do
      let found ← kind
      if Cursor.closes found then
        checkCloser opener (← advance)
        return .inr ⟨code, none⟩
      else if found = .eof ∨ found = .keyword .kwProcedure then
        return .inr ⟨code, some (.unclosed opener "block")⟩
      else
        blockStatement inner code)
    []

def block (inner : Parse Code) : Parse Code := do
  let found ← openBlock inner
  match found.failure with
  | some e => throw e
  | none => return found.code

/-- `if condition then statement [else statement]` -/
def ifStatement (scope : Option ScopeId) (inner : Parse Code) : Parse Code := do
  let pos := (← advance).pos
  let condition ← expression scope
  discard <| expect (.keyword .kwThen)
  let thenCode ← inner
  let elseCode ←
    if ← check (.keyword .kwElse) then
      let elsePos := (← advance).pos
      pure (Node.op .otherwise elsePos :: (← inner))
    else pure []
  let last := (← cursor).previousPos
  return condition ++ [Node.op .branch pos] ++ thenCode ++ elseCode ++ [Node.op .endBranch last]

/-- `while condition do statement` -/
def whileStatement (scope : Option ScopeId) (body : Parse Code) : Parse Code := do
  let pos := (← advance).pos
  let condition ← expression scope
  discard <| expect (.keyword .kwDo)
  let bodyCode ← body
  let last := (← cursor).previousPos
  return [Node.op .loop pos] ++ condition ++ [Node.op .loopCond pos] ++ bodyCode ++
    [Node.op .endLoop last]

/-- `for ([start]; [condition]; [step]) statement`; a loop without a condition
runs for ever. -/
def forStatement (scope : Option ScopeId) (body : Parse Code) : Parse Code := do
  let pos := (← advance).pos
  discard <| expect (.mark .lparen)
  let start ← if ← check (.mark .semicolon) then pure [] else simple scope
  discard <| expect (.mark .semicolon)
  let condition ←
    if ← check (.mark .semicolon) then pure [⟨.int, .int 1, pos⟩] else expression scope
  discard <| expect (.mark .semicolon)
  let step ← if ← check (.mark .rparen) then pure [] else simple scope
  discard <| expect (.mark .rparen)
  let bodyCode ← body
  let stepCode := if step.isEmpty then [] else Node.op .loopStep pos :: step
  let last := (← cursor).previousPos
  return start ++ [Node.op .loop pos] ++ condition ++ [Node.op .loopCond pos] ++ bodyCode ++
    stepCode ++ [Node.op .endLoop last]

/-- `return [value];` -/
def returnStatement (scope : Option ScopeId) : Parse Code := do
  let pos := (← advance).pos
  if ← check (.mark .semicolon) then
    discard advance
    return [⟨.ret, .int 0, pos⟩]
  else
    let value ← expression scope
    discard <| expect (.mark .semicolon)
    return value ++ [⟨.ret, .int 1, pos⟩]

/-- `break;` and `continue;` -/
def jumpStatement (inLoop : Bool) : Parse Code := do
  let token ← advance
  if !inLoop then
    report (.error .unexpectedToken s!"`{token.kind.friendlyName}` outside of a loop" token.pos
      "not inside `while` or `for`")
  discard <| expect (.mark .semicolon)
  let op := if token.kind = .keyword .kwBreak then NodeKind.leave else .next
  return if inLoop then [Node.op op token.pos] else []

/-- `call name [(arguments)];` -/
def callStatement (scope : Option ScopeId) : Parse Code := do
  discard advance
  let (name, pos) ← expectIdent
  let callee ← mention scope name pos
  let (args, count) ←
    if ← eat (.mark .lparen) then arguments (expression scope) else pure ([], 0)
  discard <| expect (.mark .semicolon)
  return callCode args callee count pos ++ [Node.op .pop pos]

/-- A declaration among statements. -/
def declarationStatement (context : Context) : Parse Code := do
  let q ← qualifiers
  if ← check (.keyword .kwVariable) then variableDeclaration context q
  else throw (.expected "`variable`" (← cursor))

/-- A statement, given the production for the ones inside it. -/
def statementWith (inner : Context → Parse Code) (context : Context) : Parse Code := do
  let scope := context.scope
  let body := inner { context with inLoop := true }
  match ← kind with
  | .mark .semicolon =>
    discard advance
    return []
  | .keyword .kwBegin | .mark .lbrace => block (inner context)
  | .keyword .kwIf => ifStatement scope (inner context)
  | .keyword .kwWhile => whileStatement scope body
  | .keyword .kwFor => forStatement scope body
  | .keyword .kwReturn => returnStatement scope
  | .keyword .kwBreak | .keyword .kwContinue => jumpStatement context.inLoop
  | .keyword .kwCall => callStatement scope
  | .keyword .kwVariable | .keyword .kwImport | .keyword .kwExport | .keyword .kwCritical
  | .keyword .kwPure | .keyword .kwInline => declarationStatement context
  | _ =>
    let code ← simple scope
    discard <| expect (.mark .semicolon)
    return code

/-- A statement that holds others to a depth. -/
def statementTo : Nat → Context → Parse Code
  | 0, _ => do throw (.stalled (← cursor))
  | depth + 1, context => statementWith (statementTo depth) context

def statement (context : Context) : Parse Code := do
  statementTo ((← cursor).rest.length + 1) context

end Parse

end SslFrontend
