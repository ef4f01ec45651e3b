import SslFrontend.Parser.Statement
import SslFrontend.Proofs.Grammar.ExpressionTree

/-! # Statement trees

The trees that statements stand for, the code of a tree, and the ways to write a
tree down.  A tree carries the position of its last token, which is where the
marker that ends a branch or a loop stands.  A branch without an else in front
of an else is written as a block.  `Stmt.print` is a way to write a tree
(`Stmt.prints_print`).
-/

namespace SslFrontend

open SslFrontend.Expr (bracketed)

/-- What an assignment stores in. -/
structure Target where
  name : String
  pos : Position
  index : Option Expr

/-- A token that assigns, and how. -/
structure AssignOp (how : Assignment) where
  token : TokenKind
  listed : Assignment.ofKind? token = some how

/-- What may stand before a semicolon, or in the head of a `for`. -/
inductive Simple where
  /-- `target := value` -/
  | store (target : Target) (op : AssignOp .store) (pos : Position) (value : Expr)
  /-- `target += value` -/
  | compound (target : Target) (kind : NodeKind) (op : AssignOp (.compound kind)) (pos : Position)
    (value : Expr)
  /-- `target++` -/
  | step (target : Target) (kind : NodeKind) (op : AssignOp (.step kind)) (pos : Position)
  /-- A value that is dropped, with the position of its first token. -/
  | dropped (pos : Position) (e : Expr)

/-- A statement.  The last position of each is that of its last token. -/
inductive Stmt where
  | empty (last : Position)
  | block (body : List Stmt) (last : Position)
  | branch (pos : Position) (condition : Expr) (yes : Stmt)
  | choice (pos : Position) (condition : Expr) (yes : Stmt) (elsePos : Position) (no : Stmt)
  | whileLoop (pos : Position) (condition : Expr) (body : Stmt)
  | forLoop (pos : Position) (start : Option Simple) (condition : Option Expr)
    (step : Option Simple) (body : Stmt)
  | ret (pos : Position) (value : Option Expr) (last : Position)
  | leave (pos last : Position)
  | next (pos last : Position)
  | call (name : String) (pos : Position) (args : Option (List Expr)) (last : Position)
  | simple (content : Simple) (last : Position)

variable (scope : Option ScopeId)

/-! ## Code -/

/-- The node of a target, and the code of its index. -/
def Target.emit (target : Target) : Making (Node × Option Code) := do
  let x ← Making.mention scope target.name target.pos
  match target.index with
  | none => return (x, none)
  | some index => return (x, some (← index.emit scope))

namespace Simple

def emit : Simple → Making Code
  | store target _ pos value => do
    let (x, index) ← target.emit scope
    let e ← value.emit scope
    match index with
    | none => return e ++ [x, .op .store pos]
    | some i => return e ++ i ++ [x, .op .storeIndex pos]
  | compound target kind _ pos value => do
    let (x, index) ← target.emit scope
    let e ← value.emit scope
    match index with
    | none => return [x] ++ e ++ [.op kind pos, x, .op .store pos]
    | some i =>
      return [x] ++ i ++ [.op .index pos] ++ e ++ [.op kind pos] ++ i ++ [x, .op .storeIndex pos]
  | step target kind _ pos => do
    let (x, index) ← target.emit scope
    match index with
    | none => return [x, ⟨.int, .int 1, pos⟩, .op kind pos, x, .op .store pos]
    | some i =>
      return [x] ++ i ++ [.op .index pos, ⟨.int, .int 1, pos⟩, .op kind pos] ++ i ++
        [x, .op .storeIndex pos]
  | dropped pos e => do return (← e.emit scope) ++ [.op .pop pos]

/-- The code of what may be left out. -/
def emit? : Option Simple → Making Code
  | none => return []
  | some x => x.emit scope

end Simple

namespace Stmt

/-- Position of the last token. -/
def last : Stmt → Position
  | empty last | block _ last | ret _ _ last | leave _ last | next _ last | call _ _ _ last
  | simple _ last => last
  | branch _ _ yes => yes.last
  | choice _ _ _ _ no => no.last
  | whileLoop _ _ body | forLoop _ _ _ _ body => body.last

mutual
def emit : Stmt → Making Code
  | empty _ => return []
  | block body _ => emitAll body
  | branch pos condition yes => do
    let c ← condition.emit scope
    return c ++ [.op .branch pos] ++ (← emit yes) ++ [.op .endBranch yes.last]
  | choice pos condition yes elsePos no => do
    let c ← condition.emit scope
    let s ← emit yes
    let t ← emit no
    return c ++ [.op .branch pos] ++ s ++ [.op .otherwise elsePos] ++ t ++
      [.op .endBranch no.last]
  | whileLoop pos condition body => do
    let c ← condition.emit scope
    let s ← emit body
    return [.op .loop pos] ++ c ++ [.op .loopCond pos] ++ s ++ [.op .endLoop body.last]
  | forLoop pos start condition step body => do
    let i ← Simple.emit? scope start
    let c ← condition.elim (pure [⟨.int, .int 1, pos⟩]) (·.emit scope)
    let t ← Simple.emit? scope step
    let s ← emit body
    let stepped := if step.isSome then [.op .loopStep pos] ++ t else []
    return i ++ [.op .loop pos] ++ c ++ [.op .loopCond pos] ++ s ++ stepped ++
      [.op .endLoop body.last]
  | ret pos none _ => return [⟨.ret, .int 0, pos⟩]
  | ret pos (some value) _ => do return (← value.emit scope) ++ [⟨.ret, .int 1, pos⟩]
  | leave pos _ => return [.op .leave pos]
  | next pos _ => return [.op .next pos]
  | call name pos args _ => do
    let f ← Making.mention scope name pos
    let given := args.getD []
    let code ← Expr.emitAll scope given
    return code ++ [f, ⟨.call, .ofIndex given.length, pos⟩, .op .pop pos]
  | simple content _ => content.emit scope

def emitAll : List Stmt → Making Code
  | [] => return []
  | s :: rest => do return (← emit s) ++ (← emitAll rest)
end

end Stmt

/-! ## Printing -/

/-- Ways to write a target. -/
inductive Target.Prints : Target → List Token → Prop
  | scalar (name : String) (pos : Position) : Prints ⟨name, pos, none⟩ [⟨.ident name, pos⟩]
  | element (name : String) (pos opened closed : Position) {index : Expr} {tokens : List Token}
      (h : index.Prints 1 tokens) :
      Prints ⟨name, pos, some index⟩ (⟨.ident name, pos⟩ :: bracketed opened closed tokens)

namespace Simple

inductive Prints : Simple → List Token → Prop
  | store {target : Target} {value : Expr} {front tokens : List Token} (op : AssignOp .store)
      (pos : Position) (ht : target.Prints front) (hv : value.Prints 1 tokens) :
      Prints (.store target op pos value) (front ++ ⟨op.token, pos⟩ :: tokens)
  | compound {target : Target} {value : Expr} {front tokens : List Token} {kind : NodeKind}
      (op : AssignOp (.compound kind)) (pos : Position) (ht : target.Prints front)
      (hv : value.Prints 1 tokens) :
      Prints (.compound target kind op pos value) (front ++ ⟨op.token, pos⟩ :: tokens)
  | step {target : Target} {front : List Token} {kind : NodeKind} (op : AssignOp (.step kind))
      (pos : Position) (ht : target.Prints front) :
      Prints (.step target kind op pos) (front ++ [⟨op.token, pos⟩])
  | dropped {e : Expr} {token : Token} {tokens : List Token} (h : e.Prints 1 (token :: tokens)) :
      Prints (.dropped token.pos e) (token :: tokens)

/-- Ways to write what may be left out. -/
inductive Prints? : Option Simple → List Token → Prop
  | none : Prints? none []
  | some {x : Simple} {tokens : List Token} (h : x.Prints tokens) : Prints? (some x) tokens

end Simple

/-- Ways to write an expression that may be left out. -/
inductive Expr.Prints? : Option Expr → List Token → Prop
  | none : Prints? none []
  | some {e : Expr} {tokens : List Token} (h : e.Prints 1 tokens) : Prints? (some e) tokens

/-- Ways to write the arguments of a `call`, which may be left out. -/
inductive Expr.PrintsArguments? : Option (List Expr) → List Token → Prop
  | none : PrintsArguments? none []
  | some {args : List (Expr × List Token)} {tokens : List Token} (opened closed : Position)
      (each : ∀ a ∈ args, a.1.Prints 1 a.2) (all : Separated (args.map Prod.snd) tokens) :
      PrintsArguments? (some (args.map Prod.fst)) (parenthesized opened closed tokens)

namespace Stmt

/-- Two tokens that open and close a block. -/
inductive Delimits : TokenKind → TokenKind → Prop
  | words : Delimits (.keyword .kwBegin) (.keyword .kwEnd)
  | braces : Delimits (.mark .lbrace) (.mark .rbrace)

/-- Whether an `else` behind the statement would be read as part of it. -/
def endsOpen : Stmt → Bool
  | branch .. => true
  | choice _ _ _ _ no => no.endsOpen
  | whileLoop _ _ body | forLoop _ _ _ _ body => body.endsOpen
  | _ => false

/-- Ways to write a statement, in a loop or not. -/
inductive Prints : Bool → Stmt → List Token → Prop
  | empty (inLoop : Bool) (last : Position) : Prints inLoop (.empty last) [⟨.mark .semicolon, last⟩]
  | block {inLoop : Bool} {body : List (Stmt × List Token)} {opener closer : TokenKind}
      (h : Delimits opener closer) (opened last : Position)
      (each : ∀ x ∈ body, Prints inLoop x.1 x.2) :
      Prints inLoop (.block (body.map Prod.fst) last)
        (⟨opener, opened⟩ :: body.flatMap Prod.snd ++ [⟨closer, last⟩])
  | branch {inLoop : Bool} {condition : Expr} {yes : Stmt} {c s : List Token}
      (pos thenPos : Position) (hc : condition.Prints 1 c) (hy : Prints inLoop yes s) :
      Prints inLoop (.branch pos condition yes)
        (⟨.keyword .kwIf, pos⟩ :: c ++ ⟨.keyword .kwThen, thenPos⟩ :: s)
  | choice {inLoop : Bool} {condition : Expr} {yes no : Stmt} {c s t : List Token}
      (pos thenPos elsePos : Position) (hc : condition.Prints 1 c) (closed : yes.endsOpen = false)
      (hy : Prints inLoop yes s) (hn : Prints inLoop no t) :
      Prints inLoop (.choice pos condition yes elsePos no)
        (⟨.keyword .kwIf, pos⟩ :: c ++ ⟨.keyword .kwThen, thenPos⟩ :: s ++
          ⟨.keyword .kwElse, elsePos⟩ :: t)
  /-- The statement before the `else` is written as a block. -/
  | choiceBlock {inLoop : Bool} {condition : Expr} {yes no : Stmt} {c s t : List Token}
      {opener closer : TokenKind} (pos thenPos opened closed elsePos : Position)
      (hc : condition.Prints 1 c) (h : Delimits opener closer) (hy : Prints inLoop yes s)
      (hn : Prints inLoop no t) :
      Prints inLoop (.choice pos condition yes elsePos no)
        (⟨.keyword .kwIf, pos⟩ :: c ++ ⟨.keyword .kwThen, thenPos⟩ ::
          (⟨opener, opened⟩ :: s ++ [⟨closer, closed⟩]) ++ ⟨.keyword .kwElse, elsePos⟩ :: t)
  | whileLoop {condition : Expr} {body : Stmt} {c s : List Token} (inLoop : Bool)
      (pos doPos : Position) (hc : condition.Prints 1 c) (hb : Prints true body s) :
      Prints inLoop (.whileLoop pos condition body)
        (⟨.keyword .kwWhile, pos⟩ :: c ++ ⟨.keyword .kwDo, doPos⟩ :: s)
  | forLoop {start step : Option Simple} {condition : Option Expr} {body : Stmt}
      {i c t s : List Token} (inLoop : Bool) (pos opened first second closed : Position)
      (hi : Simple.Prints? start i) (hc : Expr.Prints? condition c) (ht : Simple.Prints? step t)
      (hb : Prints true body s) :
      Prints inLoop (.forLoop pos start condition step body)
        (⟨.keyword .kwFor, pos⟩ :: ⟨.mark .lparen, opened⟩ :: i ++ ⟨.mark .semicolon, first⟩ :: c ++
          ⟨.mark .semicolon, second⟩ :: t ++ ⟨.mark .rparen, closed⟩ :: s)
  | ret {value : Option Expr} {tokens : List Token} (inLoop : Bool) (pos last : Position)
      (h : Expr.Prints? value tokens) :
      Prints inLoop (.ret pos value last)
        (⟨.keyword .kwReturn, pos⟩ :: tokens ++ [⟨.mark .semicolon, last⟩])
  | leave (pos last : Position) :
      Prints true (.leave pos last) [⟨.keyword .kwBreak, pos⟩, ⟨.mark .semicolon, last⟩]
  | next (pos last : Position) :
      Prints true (.next pos last) [⟨.keyword .kwContinue, pos⟩, ⟨.mark .semicolon, last⟩]
  | call {args : Option (List Expr)} {tokens : List Token} (inLoop : Bool) (name : String)
      (callPos pos last : Position) (h : Expr.PrintsArguments? args tokens) :
      Prints inLoop (.call name pos args last)
        (⟨.keyword .kwCall, callPos⟩ :: ⟨.ident name, pos⟩ :: tokens ++ [⟨.mark .semicolon, last⟩])
  | simple {content : Simple} {tokens : List Token} (inLoop : Bool) (last : Position)
      (h : content.Prints tokens) :
      Prints inLoop (.simple content last) (tokens ++ [⟨.mark .semicolon, last⟩])

/-- Behind a written statement stands its last token. -/
theorem Prints.getLast {inLoop : Bool} {s : Stmt} {tokens : List Token}
    (h : Prints inLoop s tokens) :
    ∃ token, tokens.getLast? = some token ∧ token.pos = s.last := by
  have behind : ∀ (front : List Token) {tokens : List Token} {last : Position},
      (∃ token, tokens.getLast? = some token ∧ token.pos = last) →
      ∃ token, (front ++ tokens).getLast? = some token ∧ token.pos = last := by
    rintro front tokens last ⟨token, htoken, hpos⟩
    exact ⟨token, by rw [List.getLast?_append, htoken]; rfl, hpos⟩
  induction h with
  | empty inLoop last => exact ⟨_, rfl, rfl⟩
  | block _ _ last => exact behind _ ⟨_, rfl, rfl⟩
  | branch _ thenPos _ _ ih => exact behind _ (behind [⟨_, thenPos⟩] ih)
  | choice _ _ elsePos _ _ _ _ _ ih => exact behind _ (behind [⟨_, elsePos⟩] ih)
  | choiceBlock _ _ _ _ elsePos _ _ _ _ _ ih => exact behind _ (behind [⟨_, elsePos⟩] ih)
  | whileLoop _ _ doPos _ _ ih => exact behind _ (behind [⟨_, doPos⟩] ih)
  | forLoop _ _ _ _ _ closed _ _ _ _ ih => exact behind _ (behind [⟨_, closed⟩] ih)
  | ret _ _ last => exact behind _ ⟨_, rfl, rfl⟩
  | leave pos last => exact ⟨_, rfl, rfl⟩
  | next pos last => exact ⟨_, rfl, rfl⟩
  | call _ _ _ _ last => exact behind _ ⟨_, rfl, rfl⟩
  | simple _ last => exact behind _ ⟨_, rfl, rfl⟩

/-- Whether a statement may begin with a token. -/
def begins : TokenKind → Bool
  | .mark .semicolon | .mark .lbrace | .keyword .kwBegin | .keyword .kwIf | .keyword .kwWhile
  | .keyword .kwFor | .keyword .kwReturn | .keyword .kwBreak | .keyword .kwContinue
  | .keyword .kwCall => true
  | kind => Expr.begins kind

theorem begins_of_expr {kind : TokenKind} (h : Expr.begins kind = true) : begins kind = true := by
  unfold begins
  split <;> first | rfl | exact h

end Stmt

theorem Target.Prints.begins {target : Target} {tokens : List Token} (h : target.Prints tokens) :
    ∃ rest, tokens = ⟨.ident target.name, target.pos⟩ :: rest := by
  cases h <;> exact ⟨_, rfl⟩

theorem Simple.Prints.begins {x : Simple} {tokens : List Token} (h : x.Prints tokens) :
    ∃ token rest, tokens = token :: rest ∧ Expr.begins token.kind = true := by
  have assigned : ∀ {target : Target} {front more : List Token}, target.Prints front →
      ∃ token rest, front ++ more = token :: rest ∧ Expr.begins token.kind = true := by
    intro target front more ht
    obtain ⟨rest, rfl⟩ := ht.begins
    exact ⟨_, _, rfl, rfl⟩
  cases h with
  | store _ _ ht _ => exact assigned ht
  | compound _ _ ht _ => exact assigned ht
  | step _ _ ht => exact assigned ht
  | dropped h => exact h.begins

theorem Stmt.Prints.begins {inLoop : Bool} {s : Stmt} {tokens : List Token}
    (h : Prints inLoop s tokens) :
    ∃ token rest, tokens = token :: rest ∧ Stmt.begins token.kind = true := by
  cases h with
  | simple _ _ h =>
      obtain ⟨token, rest, rfl, hbegins⟩ := h.begins
      exact ⟨token, _, rfl, begins_of_expr hbegins⟩
  | block h => cases h <;> exact ⟨_, _, rfl, rfl⟩
  | _ => exact ⟨_, _, rfl, rfl⟩

/-! ## A way to write every tree -/

variable (mark : Position)

def Target.print (target : Target) : List Token :=
  match target.index with
  | none => [⟨.ident target.name, target.pos⟩]
  | some index => ⟨.ident target.name, target.pos⟩ :: bracketed mark mark (index.print mark 1)

theorem Target.prints_print (target : Target) : target.Prints (target.print mark) := by
  obtain ⟨name, pos, index⟩ := target
  cases index with
  | none => exact .scalar name pos
  | some index => exact .element name pos mark mark (index.prints_print mark 1)

namespace Simple

/-- A value stands in parentheses, so that it begins where the tree says. -/
def print : Simple → List Token
  | store target op pos value => target.print mark ++ ⟨op.token, pos⟩ :: value.print mark 1
  | compound target _ op pos value => target.print mark ++ ⟨op.token, pos⟩ :: value.print mark 1
  | step target _ op pos => target.print mark ++ [⟨op.token, pos⟩]
  | dropped pos e => Expr.parenthesized pos mark (e.print mark 1)

theorem prints_print (x : Simple) : x.Prints (x.print mark) := by
  cases x with
  | store target op pos value =>
      exact .store op pos (target.prints_print mark) (value.prints_print mark 1)
  | compound target _ op pos value =>
      exact .compound op pos (target.prints_print mark) (value.prints_print mark 1)
  | step target _ op pos => exact .step op pos (target.prints_print mark)
  | dropped pos e => exact .dropped (.parens 1 pos mark (e.prints_print mark 1))

def print? : Option Simple → List Token
  | none => []
  | some x => x.print mark

theorem prints_print? (x : Option Simple) : Prints? x (print? mark x) := by
  cases x with
  | none => exact .none
  | some x => exact .some (x.prints_print mark)

end Simple

namespace Expr

def print? : Option Expr → List Token
  | none => []
  | some e => e.print mark 1

theorem prints_print? (e : Option Expr) : Prints? e (print? mark e) := by
  cases e with
  | none => exact .none
  | some e => exact .some (e.prints_print mark 1)

def printArguments? : Option (List Expr) → List Token
  | none => []
  | some args => parenthesized mark mark (separate mark (printAll mark args))

theorem prints_printArguments? (args : Option (List Expr)) :
    PrintsArguments? args (printArguments? mark args) := by
  cases args with
  | none => exact .none
  | some args =>
      obtain ⟨found, hexprs, hpieces, heach⟩ := printsAll_printAll mark args
      have hargs := PrintsArguments?.some mark mark heach (separated_separate mark _)
      rw [hexprs, hpieces] at hargs
      exact hargs

end Expr

namespace Stmt

mutual
/-- Whether `break` and `continue` stand in loops only. -/
def placed : Bool → Stmt → Bool
  | inLoop, leave _ _ | inLoop, next _ _ => inLoop
  | inLoop, block body _ => placedAll inLoop body
  | inLoop, branch _ _ yes => placed inLoop yes
  | inLoop, choice _ _ yes _ no => placed inLoop yes && placed inLoop no
  | _, whileLoop _ _ body | _, forLoop _ _ _ _ body => placed true body
  | _, _ => true

def placedAll : Bool → List Stmt → Bool
  | _, [] => true
  | inLoop, s :: rest => placed inLoop s && placedAll inLoop rest
end

/-- Statements between `begin` and `end`. -/
def framed (opened closed : Position) (tokens : List Token) : List Token :=
  ⟨.keyword .kwBegin, opened⟩ :: tokens ++ [⟨.keyword .kwEnd, closed⟩]

mutual
def print : Stmt → List Token
  | empty last => [⟨.mark .semicolon, last⟩]
  | block body last => framed mark last (printAll body)
  | branch pos condition yes =>
    ⟨.keyword .kwIf, pos⟩ :: condition.print mark 1 ++ ⟨.keyword .kwThen, mark⟩ :: print yes
  | choice pos condition yes elsePos no =>
    ⟨.keyword .kwIf, pos⟩ :: condition.print mark 1 ++ ⟨.keyword .kwThen, mark⟩ ::
      (if yes.endsOpen then framed mark mark (print yes) else print yes) ++
      ⟨.keyword .kwElse, elsePos⟩ :: print no
  | whileLoop pos condition body =>
    ⟨.keyword .kwWhile, pos⟩ :: condition.print mark 1 ++ ⟨.keyword .kwDo, mark⟩ :: print body
  | forLoop pos start condition step body =>
    ⟨.keyword .kwFor, pos⟩ :: ⟨.mark .lparen, mark⟩ :: Simple.print? mark start ++
      ⟨.mark .semicolon, mark⟩ :: Expr.print? mark condition ++
      ⟨.mark .semicolon, mark⟩ :: Simple.print? mark step ++ ⟨.mark .rparen, mark⟩ :: print body
  | ret pos value last =>
    ⟨.keyword .kwReturn, pos⟩ :: Expr.print? mark value ++ [⟨.mark .semicolon, last⟩]
  | leave pos last => [⟨.keyword .kwBreak, pos⟩, ⟨.mark .semicolon, last⟩]
  | next pos last => [⟨.keyword .kwContinue, pos⟩, ⟨.mark .semicolon, last⟩]
  | call name pos args last =>
    ⟨.keyword .kwCall, mark⟩ :: ⟨.ident name, pos⟩ :: Expr.printArguments? mark args ++
      [⟨.mark .semicolon, last⟩]
  | simple content last => content.print mark ++ [⟨.mark .semicolon, last⟩]

def printAll : List Stmt → List Token
  | [] => []
  | s :: rest => print s ++ printAll rest
end

mutual
/-- A statement whose jumps are placed in loops is written by its print. -/
theorem prints_print : ∀ (s : Stmt) (inLoop : Bool), placed inLoop s = true →
    Prints inLoop s (print mark s)
  | empty last, inLoop, _ => .empty inLoop last
  | block body last, inLoop, h => by
      obtain ⟨found, htrees, htokens, heach⟩ := printsAll_printAll body inLoop h
      have hblock := Prints.block .words mark last heach
      rw [htrees, htokens] at hblock
      exact hblock
  | branch pos condition yes, inLoop, h =>
      .branch pos mark (condition.prints_print mark 1) (prints_print yes inLoop h)
  | choice pos condition yes elsePos no, inLoop, h => by
      obtain ⟨hyes, hno⟩ := Bool.and_eq_true_iff.mp h
      have hc := condition.prints_print mark 1
      have hy := prints_print yes inLoop hyes
      have hn := prints_print no inLoop hno
      unfold print
      split
      · exact .choiceBlock pos mark mark mark elsePos hc .words hy hn
      · exact .choice pos mark elsePos hc (by simp_all) hy hn
  | whileLoop pos condition body, inLoop, h =>
      .whileLoop inLoop pos mark (condition.prints_print mark 1) (prints_print body true h)
  | forLoop pos start condition step body, inLoop, h =>
      .forLoop inLoop pos mark mark mark mark (Simple.prints_print? mark start)
        (Expr.prints_print? mark condition) (Simple.prints_print? mark step)
        (prints_print body true h)
  | ret pos value last, inLoop, _ => .ret inLoop pos last (Expr.prints_print? mark value)
  | leave pos last, true, _ => .leave pos last
  | next pos last, true, _ => .next pos last
  | call name pos args last, inLoop, _ =>
      .call inLoop name mark pos last (Expr.prints_printArguments? mark args)
  | simple content last, inLoop, _ => .simple inLoop last (content.prints_print mark)

theorem printsAll_printAll : ∀ (body : List Stmt) (inLoop : Bool), placedAll inLoop body = true →
    ∃ found : List (Stmt × List Token), found.map Prod.fst = body ∧
      found.flatMap Prod.snd = printAll mark body ∧ ∀ x ∈ found, Prints inLoop x.1 x.2
  | [], _, _ => ⟨[], rfl, rfl, by simp⟩
  | s :: rest, inLoop, h => by
      obtain ⟨hs, hrest⟩ := Bool.and_eq_true_iff.mp h
      obtain ⟨found, htrees, htokens, heach⟩ := printsAll_printAll rest inLoop hrest
      refine ⟨(s, print mark s) :: found, by simp [htrees], by simp [htokens, printAll], ?_⟩
      intro x hx
      rcases List.mem_cons.mp hx with rfl | hx
      · exact prints_print s inLoop hs
      · exact heach x hx
end

end Stmt

end SslFrontend
