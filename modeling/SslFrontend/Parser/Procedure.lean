import SslFrontend.Parser.Statement

/-! # Procedures

A procedure is a header and, unless it only announces the procedure, a body.
The body of a header that is rejected is read for its diagnostics in a scope of
its own.  A body that is never closed still ends the procedure: it keeps its
complete statements.
-/

namespace SslFrontend.Parse

/-- A parameter, with the number of its mention. -/
structure NumberedParam where
  param : Param
  number : Nat

/-- The default of a parameter, which must be a constant. -/
def paramDefault : Parse (Option Value) := do
  match ← initializer none with
  | none => return none
  | some (code, start) =>
    match code.constant? with
    | some value => return some value
    | none =>
      report (.error .notConstant "parameter default must be a constant" start
        "not a constant expression")
      return some (.int 0)

/-- One parameter behind others. -/
def parameter (before : List NumberedParam) : Parse NumberedParam := do
  discard <| eat (.keyword .kwVariable)
  let (name, pos) ← expectIdent
  let number ← reserve
  let default ← paramDefault
  if default.isNone && before.any (·.param.default.isSome) then
    report (.error .requiredAfterOptional
      s!"required parameter `{name}` follows an optional one" pos "needs a default value")
  return ⟨⟨name, pos, default⟩, number⟩

def parameterRun : Parse (List NumberedParam) :=
  repeatRounds
    (fun params => do
      let params := params ++ [← parameter params]
      if ← eat (.mark .comma) then return .inl params else return .inr params)
    []

/-- Parameters in parentheses; none without parentheses. -/
def parameters : Parse (List NumberedParam) := do
  if ← eat (.mark .lparen) then
    let params ← if ← check (.mark .rparen) then pure [] else parameterRun
    discard <| expect (.mark .rparen)
    return params
  else
    return []

/-- What follows `in`: a constant whole number. -/
def timedTrigger (pos : Position) : Parse (Option Trigger) := do
  match (← expression none).constant? with
  | some (.int time) => return some (.timed time)
  | _ =>
    report (.error .badTriggerTime "trigger time must be a constant integer" pos
      "invalid trigger time")
    return none

/-- Keep the first trigger; a second one is reported. -/
def keepFirst (trigger : Trigger) (pos : Position) : Option Trigger → Parse Trigger
  | none => return trigger
  | some found =>
    if trigger = .none then return found
    else do
      report (.error .triggerConflict "a procedure can have only one trigger" pos
        "second trigger")
      return trigger

/-- `in time` or `when condition`. -/
def trigger : Parse Trigger :=
  repeatRounds
    (fun trigger => do
      let pos ← pos
      match ← kind with
      | .keyword .kwIn =>
        discard advance
        return .inl (← keepFirst trigger pos (← timedTrigger pos))
      | .keyword .kwWhen =>
        discard advance
        return .inl (← keepFirst trigger pos (some (.conditional (← expression none))))
      | _ => return .inr trigger)
    Trigger.none

/-- Give a procedure its body. -/
def attachBody (scope : ScopeId) (start finish : Position) (code : Code) : Parse Unit := do
  setTable ((← table).modifyScope scope fun p =>
    { p with
      body := code ++ [⟨.ret, .int 0, finish⟩]
      defined := true
      span := some (start, finish) })

/-- The body of a procedure, from its opening token. -/
def body (scope : ScopeId) : Parse Unit := do
  let start ← pos
  let found ← openBlock (statement ⟨some scope, false⟩)
  let finish := (← cursor).previousPos
  attachBody scope start finish found.code
  match found.failure with
  | some e => throw e
  | none => return ()

/-- Enter the mention of a parameter, if it is the one its procedure has by that
name. -/
def recordParam (scope : ScopeId) (p : NumberedParam) : Parse Unit := do
  let table ← table
  match table.lookupLocal scope p.param.name with
  | some symbol =>
    if table.siteOf? symbol = some p.param.pos then
      recordAt p.number symbol p.param.pos .declaration
  | none => return ()

/-- Read the body of a rejected header in a scope of its own. -/
def discardedBody (header : Header) : Parse Unit := do
  match (← table).declareDiscarded header with
  | .ok (scope, table, problems) =>
    setTable table
    reportAll problems
    body scope
  | .error problem =>
    report problem
    moveCursor Cursor.skipBlock

/-- Do what the verdict on a header says; `number` is that of the mention of its
name. -/
def follow (header : Header) (params : List NumberedParam) (number : Nat) :
    Verdict → Parse Unit
  | .define index => do
    recordAt number (.proc index) header.pos .declaration
    params.forM (recordParam (.proc index))
    body (.proc index)
  | .announce index => recordAt number (.proc index) header.pos .declaration
  | .reject named => do
    match named with
    | some index => recordAt number (.proc index) header.pos .declaration
    | none => pure ()
    if header.hasBody then discardedBody header

/-- A procedure from its `procedure`. -/
def procedure (q : Qualifiers) : Parse Unit := do
  discard advance
  let (name, pos) ← expectIdent
  let number ← reserve
  let params ← parameters
  let trigger ← trigger
  let hasBody := Cursor.opens (← kind)
  if !hasBody then discard <| expect (.mark .semicolon)
  let header : Header :=
    ⟨name, pos, q.modifiers, trigger, params.map NumberedParam.param, hasBody⟩
  let declared := (← table).declare header
  setTable declared.table
  reportAll declared.problems
  follow header params number declared.verdict

end SslFrontend.Parse
