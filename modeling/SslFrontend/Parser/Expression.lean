import SslFrontend.Parser.State

/-! # Expressions

An expression is a chain of operands with binary operators between them.  The
chain is put into postfix order with a stack of operators that still wait for
their right side: before an operator is stacked, those that bind at least as
tightly are written out.

Expressions stand inside expressions between parentheses and brackets only.  A
production here takes the production for those as its argument `inner`, and
`expression` ties the knot: each level stands behind a token of its own, so the
tokens that are left bound the depth.
-/

namespace SslFrontend

/-- A binary operator as written. -/
structure Operator where
  /-- How tightly it binds. -/
  level : Nat
  node : Node
deriving DecidableEq, Repr

namespace Operator

def binary? : TokenKind → Option (Nat × NodeKind)
  | .keyword .kwOr | .mark .pipePipe => some (1, .or)
  | .keyword .kwAnd | .mark .ampAmp => some (2, .and)
  | .keyword .kwBwOr => some (3, .bwOr)
  | .keyword .kwBwXor => some (4, .bwXor)
  | .keyword .kwBwAnd => some (5, .bwAnd)
  | .mark .eqEq => some (6, .eq)
  | .mark .notEq => some (6, .ne)
  | .mark .lt => some (7, .lt)
  | .mark .ltEq => some (7, .le)
  | .mark .gt => some (7, .gt)
  | .mark .gtEq => some (7, .ge)
  | .mark .plus => some (8, .add)
  | .mark .minus => some (8, .sub)
  | .mark .star => some (9, .mul)
  | .mark .slash => some (9, .div)
  | .mark .percent | .keyword .kwMod => some (9, .mod)
  | _ => none

def unary? : TokenKind → Option NodeKind
  | .mark .minus => some .neg
  | .keyword .kwNot | .mark .bang => some .not
  | .keyword .kwBwNot => some .bwNot
  | _ => none

/-- Write out the operators on top of the stack that bind at least as tightly
as `level`. -/
def release (level : Nat) : List Operator → Code × List Operator
  | [] => ([], [])
  | top :: below =>
    if level ≤ top.level then
      let (code, left) := release level below
      (top.node :: code, left)
    else ([], top :: below)

/-- Code of a chain behind its first operand, with operators that wait. -/
def chain : List Operator → List (Operator × Code) → Code
  | waiting, [] => waiting.map node
  | waiting, (op, operand) :: rest =>
    let (code, left) := release op.level waiting
    code ++ operand ++ chain (op :: left) rest

end Operator

namespace Parse

/-- Read a run of unary operators, the outermost first. -/
def unaryRun : Parse Code := do
  let run := (← cursor).rest.takeWhile fun token => (Operator.unary? token.kind).isSome
  moveCursor (·.skipWhile fun token => (Operator.unary? token.kind).isSome)
  return run.filterMap fun token => (Operator.unary? token.kind).map (Node.op · token.pos)

/-- Read expressions up to a token that is no comma. -/
def argumentRun (inner : Parse Code) : Parse (Code × Nat) :=
  repeatRounds
    (fun (code, count) => do
      let next := (code ++ (← inner), count + 1)
      if ← eat (.mark .comma) then return .inl next else return .inr next)
    ([], 0)

/-- Arguments behind an opening parenthesis, and the closing one. -/
def arguments (inner : Parse Code) : Parse (Code × Nat) := do
  let found ← if ← check (.mark .rparen) then pure ([], 0) else argumentRun inner
  discard <| expect (.mark .rparen)
  return found

/-- The code of a call. -/
def callCode (args : Code) (callee : Node) (count : Nat) (pos : Position) : Code :=
  args ++ [callee, ⟨.call, .ofIndex count, pos⟩]

/-- A text as an operand, which becomes part of the string space. -/
def stringOperand (text : String) (pos : Position) : Parse Code := do
  let table ← table
  match table.strings.intern text with
  | .ok (handle, strings) =>
    setTable { table with strings := strings }
    return [⟨.string, .string handle, pos⟩]
  | .error error =>
    report (SymbolTable.refused pos error)
    return [Node.op .error pos]

/-- A literal, a name, a call, an address, or an expression in parentheses. -/
def primary (scope : Option ScopeId) (inner : Parse Code) : Parse Code := do
  let token := (← cursor).current
  let pos := token.pos
  match token.kind with
  | .int n =>
    discard advance
    return [⟨.int, .int n, pos⟩]
  | .float x =>
    discard advance
    return [⟨.float, .float x, pos⟩]
  | .str text =>
    discard advance
    stringOperand text pos
  | .keyword .kwTrue =>
    discard advance
    return [⟨.int, .int 1, pos⟩]
  | .keyword .kwFalse =>
    discard advance
    return [⟨.int, .int 0, pos⟩]
  | .ident name =>
    discard advance
    let callee ← mention scope name pos
    if ← eat (.mark .lparen) then
      let (args, count) ← arguments inner
      return callCode args callee count pos
    else
      return [callee]
  | .mark .atSign =>
    discard advance
    let (name, namePos) ← expectIdent
    return [← mention scope name namePos, Node.op .procAddr pos]
  | .mark .lparen =>
    discard advance
    let code ← inner
    discard <| expect (.mark .rparen)
    return code
  | .invalid =>
    discard advance
    return [Node.op .error pos]
  | found =>
    throw ⟨.expectedExpression, s!"expected expression, found `{found.friendlyName}`", pos,
      some "expected expression", []⟩

/-- Indices behind an operand. -/
def indices (inner : Parse Code) (code : Code) : Parse Code :=
  repeatRounds
    (fun code => do
      if ← check (.mark .lbracket) then
        let pos := (← advance).pos
        let index ← inner
        discard <| expect (.mark .rbracket)
        return .inl (code ++ index ++ [Node.op .index pos])
      else
        return .inr code)
    code

/-- A primary with its unary operators and its indices. -/
def operand (scope : Option ScopeId) (inner : Parse Code) : Parse Code := do
  let unaries ← unaryRun
  let code ← indices inner (← primary scope inner)
  return code ++ unaries.reverse

/-- The rest of a chain behind an operand. -/
def chainRun (scope : Option ScopeId) (inner : Parse Code) :
    Parse (List (Operator × Code)) :=
  repeatRounds
    (fun links => do
      match Operator.binary? (← kind) with
      | some (level, kind) =>
        let pos := (← advance).pos
        let code ← operand scope inner
        return .inl (links ++ [(⟨level, Node.op kind pos⟩, code)])
      | none => return .inr links)
    []

/-- An expression, given the production for the ones inside it. -/
def expressionWith (scope : Option ScopeId) (inner : Parse Code) : Parse Code := do
  let first ← operand scope inner
  let links ← chainRun scope inner
  return first ++ Operator.chain [] links

/-- An expression that holds others to a depth. -/
def expressionTo (scope : Option ScopeId) : Nat → Parse Code
  | 0 => do throw (.stalled (← cursor))
  | depth + 1 => expressionWith scope (expressionTo scope depth)

def expression (scope : Option ScopeId) : Parse Code := do
  expressionTo scope ((← cursor).rest.length + 1)

end Parse

end SslFrontend
