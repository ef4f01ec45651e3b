import SslFrontend.Code.Fold
import SslFrontend.Parser.Expression

/-! # Variable declarations

Variables are declared in a list with commas or in a block, each with an
optional length and an optional initial value.  A constant value is kept with
the variable.  A local scalar may have any value: the declaration is then code
that stores it.
-/

namespace SslFrontend

/-- Qualifiers as written in front of a declaration. -/
structure Qualifiers where
  written : List (Qualifier × Position)
deriving DecidableEq, Repr

namespace Qualifiers

def modifiers (q : Qualifiers) : Modifiers :=
  q.written.foldl (fun m (qualifier, _) => m.insert qualifier) .none

def isEmpty (q : Qualifiers) : Bool := q.written.isEmpty

/-- A report on every qualifier that is not allowed on what is declared. -/
def misplaced (q : Qualifiers) (allowed : List Qualifier) (what : String) : List Diagnostic :=
  q.written.filterMap fun (qualifier, pos) =>
    if qualifier ∈ allowed then none
    else
      some (.error .misplacedQualifier
        s!"qualifier `{qualifier.word}` is not allowed on {what}" pos "not allowed here")

end Qualifiers

/-- The greatest length of an array. -/
def maxArrayLength : Nat := 65536

namespace Parse

/-- Read qualifiers; one that is written again is reported. -/
def qualifiers : Parse Qualifiers :=
  repeatRounds
    (fun (q : Qualifiers) => do
      match ← kind with
      | .keyword word =>
        match Qualifier.ofKeyword? word with
        | some qualifier =>
          let pos := (← advance).pos
          if q.modifiers.has qualifier then
            report (.warning .repeatedQualifier s!"duplicate `{qualifier.word}` qualifier" pos
              "already given")
          return .inl ⟨q.written ++ [(qualifier, pos)]⟩
        | none => return .inr q
      | _ => return .inr q)
    ⟨[]⟩

/-- The scope that qualifiers give a variable of the unit. -/
def unitScope (modifiers : Modifiers) : VarScope :=
  if modifiers.imported then .importVar
  else if modifiers.exported then .exportVar
  else .globalVar

/-- The scope of the variables a declaration declares. -/
def declaredScope (context : Context) (q : Qualifiers) : Parse VarScope := do
  match context.scope with
  | some _ =>
    reportAll (q.misplaced [] "local variables")
    return .localVar
  | none =>
    reportAll (q.misplaced [.imported, .exported] "variables")
    if q.modifiers.conflicts then
      let here ← pos
      report (.error .scopeConflict "a variable cannot be both import and export"
        ((q.written.head?.map Prod.snd).getD here) "conflicting qualifiers")
    return unitScope q.modifiers

/-- Declare a variable in its scope.  One that cannot be declared is
reported. -/
def declareVariable (context : Context) (scope : VarScope) (name : String) (pos : Position) :
    Parse (Option Symbol) := do
  match (← table).declareIn context.scope scope name pos with
  | .ok (symbol, table) =>
    setTable table
    record symbol pos .declaration
    return some symbol
  | .error problem =>
    report problem
    return none

/-- The length of an array in brackets; zero without brackets. -/
def arrayLength : Parse Nat := do
  if ← eat (.mark .lbracket) then
    let c ← cursor
    match c.kind with
    | .int n =>
      if 0 ≤ n.toInt ∧ n.toInt ≤ maxArrayLength then
        discard advance
        discard <| expect (.mark .rbracket)
        return n.toInt.toNat
      else if n.toInt < 0 then throw (noLength c)
      else
        throw ⟨.unexpectedToken,
          s!"array length {n.toInt} exceeds the limit of {maxArrayLength}", c.pos, none, []⟩
    | _ => throw (noLength c)
  else
    return 0
where
  noLength (c : Cursor) : ParseError :=
    ⟨.unexpectedToken,
      s!"array length must be a non-negative integer literal, found `{c.kind.friendlyName}`",
      c.pos, some "expected array length", []⟩

/-- The code of an initial value and where it starts. -/
def initializer (scope : Option ScopeId) : Parse (Option (Code × Position)) := do
  let given ← if ← eat (.mark .assign) then pure true else eat (.mark .eq)
  if given then
    let pos ← pos
    return some (← expression scope, pos)
  else
    return none

def modifyVariable (symbol : Symbol) (f : Variable → Variable) : Parse Unit := do
  setTable ((← table).modifyVariable symbol f)

/-- Give a variable the initial value that stands at `start`; what is left to do
when the code runs is the answer. -/
def setInitial (symbol : Symbol) (scope : VarScope) (length : Nat) (name : String)
    (pos : Position) (code : Code) (start : Position) : Parse Code := do
  if scope = .importVar then
    report (.error .importInitialized
      s!"imported variable `{name}` cannot have an initializer" start "initializer ignored")
    return []
  match code.constant? with
  | some value =>
    modifyVariable symbol fun v => v.withValue (some value)
    return []
  | none =>
    if scope = .localVar ∧ length = 0 then
      modifyVariable symbol fun v => { v with initialized := true }
      return code ++ [symbol.toNode pos, Node.op .store start]
    else
      report (.error .notConstant s!"initializer of `{name}` must be a constant" start
        "not a constant expression")
      return []

/-- One variable of a declaration. -/
def variableItem (context : Context) (scope : VarScope) : Parse Code := do
  let (name, pos) ← expectIdent
  let declared ← declareVariable context scope name pos
  let length ← arrayLength
  let init ← initializer context.scope
  match declared with
  | none => return []
  | some symbol =>
    modifyVariable symbol fun v => { v with arrayLength := length }
    match init with
    | none => return []
    | some (code, start) => setInitial symbol scope length name pos code start

/-- Variables of a block, through its `end`. -/
def variableBlock (context : Context) (scope : VarScope) (opener : Token) : Parse Code :=
  repeatRounds
    (fun code => do
      if ← eat (.keyword .kwEnd) then return .inr code
      let c ← cursor
      if c.atEnd || c.check (.keyword .kwProcedure) then
        throw (.unclosed opener "variable block")
      let item ← variableItem context scope
      discard <| expect (.mark .semicolon)
      return .inl (code ++ item))
    []

/-- Variables with commas between them.  A malformed one is reported and
skipped. -/
def variableList (context : Context) (scope : VarScope) : Parse Code :=
  repeatRounds
    (fun code => do
      let code ←
        match ← attempt (variableItem context scope) with
        | .ok item => pure (code ++ item)
        | .error e =>
          report e.diagnostic
          moveCursor (·.synchronize .declarationBoundary)
          pure code
      if ← eat (.mark .comma) then return .inl code else return .inr code)
    []

/-- A declaration, from its `variable`. -/
def variableDeclaration (context : Context) (q : Qualifiers) : Parse Code := do
  let scope ← declaredScope context q
  let opener ← advance
  if ← eat (.keyword .kwBegin) then
    variableBlock context scope opener
  else
    let code ← variableList context scope
    discard <| expect (.mark .semicolon)
    return code

end Parse

end SslFrontend
