import SslFrontend.Proofs.Grammar.Exact

/-! # Expression trees

The trees that expressions stand for, the code of a tree, and the ways to write
a tree down.  An operand is written for a place that wants a level: what binds
less tightly than the place wants stands in parentheses, and anything else may.
`Expr.print` writes no parentheses that are not needed: it is a way to write the
tree (`Expr.prints_print`), and none is shorter (`Expr.print_length_le`).
-/

namespace SslFrontend

inductive Literal where
  | int (n : Int32)
  | float (x : Binary32)
  | text (text : String)
  | truth (value : Bool)
  /-- Text that is no token. -/
  | invalid
deriving DecidableEq, Repr

namespace Literal

def kind : Literal → TokenKind
  | int n => .int n
  | float x => .float x
  | text t => .str t
  | truth true => .keyword .kwTrue
  | truth false => .keyword .kwFalse
  | invalid => .invalid

theorem kind_ne_eof (value : Literal) : value.kind ≠ .eof := by
  fun_cases kind value <;> simp

def emit (pos : Position) : Literal → Making Node
  | int n => return ⟨.int, .int n, pos⟩
  | float x => return ⟨.float, .float x, pos⟩
  | text t => Making.text t pos
  | truth true => return ⟨.int, .int 1, pos⟩
  | truth false => return ⟨.int, .int 0, pos⟩
  | invalid => return Node.op .error pos

end Literal

/-- A unary operator of the language. -/
structure UnaryOp where
  token : TokenKind
  node : NodeKind
  listed : Operator.unary? token = some node
deriving DecidableEq

/-- A binary operator of the language. -/
structure BinaryOp where
  token : TokenKind
  /-- How tightly it binds. -/
  level : Nat
  node : NodeKind
  listed : Operator.binary? token = some (level, node)
deriving DecidableEq

inductive Expr where
  | literal (value : Literal) (pos : Position)
  | name (name : String) (pos : Position)
  | call (name : String) (pos : Position) (args : List Expr)
  /-- The address of a procedure, with the position of `@` and that of the name. -/
  | address (pos : Position) (name : String) (namePos : Position)
  | index (base : Expr) (pos : Position) (inside : Expr)
  | unary (op : UnaryOp) (pos : Position) (operand : Expr)
  | binary (op : BinaryOp) (pos : Position) (left right : Expr)

namespace Expr

/-- What a unary operator wants of its operand, looser than which no operand of
a binary operator is. -/
def unaryLevel : Nat := 10

/-- What an index wants of what it indexes. -/
def primaryLevel : Nat := 11

/-! ## Code -/

mutual
/-- The code of a tree in postorder; a callee is mentioned before its arguments
and stands behind them. -/
def emit (scope : Option ScopeId) : Expr → Making Code
  | literal value pos => do return [← value.emit pos]
  | name n pos => do return [← Making.mention scope n pos]
  | call n pos args => do
    let callee ← Making.mention scope n pos
    return (← emitAll scope args) ++ [callee, ⟨.call, .ofIndex args.length, pos⟩]
  | address pos n namePos => do
    return [← Making.mention scope n namePos, Node.op .procAddr pos]
  | index base pos inside => do
    return (← emit scope base) ++ (← emit scope inside) ++ [Node.op .index pos]
  | unary op pos operand => do return (← emit scope operand) ++ [Node.op op.node pos]
  | binary op pos left right => do
    return (← emit scope left) ++ (← emit scope right) ++ [Node.op op.node pos]

def emitAll (scope : Option ScopeId) : List Expr → Making Code
  | [] => return []
  | e :: rest => do return (← emit scope e) ++ (← emitAll scope rest)
end

/-! ## Printing -/

/-- Pieces with a comma between any two neighbours. -/
inductive Separated : List (List Token) → List Token → Prop
  | none : Separated [] []
  | one (piece : List Token) : Separated [piece] piece
  | more {second tokens : List Token} {rest : List (List Token)} (first : List Token)
      (comma : Position) (h : Separated (second :: rest) tokens) :
      Separated (first :: second :: rest) (first ++ ⟨.mark .comma, comma⟩ :: tokens)

/-- Tokens in parentheses. -/
def parenthesized (opened closed : Position) (tokens : List Token) : List Token :=
  ⟨.mark .lparen, opened⟩ :: tokens ++ [⟨.mark .rparen, closed⟩]

/-- Tokens in brackets. -/
def bracketed (opened closed : Position) (tokens : List Token) : List Token :=
  ⟨.mark .lbracket, opened⟩ :: tokens ++ [⟨.mark .rbracket, closed⟩]

/-- Ways to write a tree where a level is wanted. -/
inductive Prints : Nat → Expr → List Token → Prop
  | literal (wanted : Nat) (value : Literal) (pos : Position) :
      Prints wanted (.literal value pos) [⟨value.kind, pos⟩]
  | name (wanted : Nat) (n : String) (pos : Position) :
      Prints wanted (.name n pos) [⟨.ident n, pos⟩]
  | call (wanted : Nat) (n : String) (pos opened closed : Position)
      {args : List (Expr × List Token)} {tokens : List Token}
      (each : ∀ a ∈ args, Prints 1 a.1 a.2) (all : Separated (args.map Prod.snd) tokens) :
      Prints wanted (.call n pos (args.map Prod.fst))
        (⟨.ident n, pos⟩ :: parenthesized opened closed tokens)
  | address (wanted : Nat) (pos : Position) (n : String) (namePos : Position) :
      Prints wanted (.address pos n namePos) [⟨.mark .atSign, pos⟩, ⟨.ident n, namePos⟩]
  | index {base inside : Expr} {first second : List Token} (wanted : Nat)
      (pos closed : Position) (h₁ : Prints primaryLevel base first)
      (h₂ : Prints 1 inside second) :
      Prints wanted (.index base pos inside) (first ++ bracketed pos closed second)
  | unary {wanted : Nat} {operand : Expr} {tokens : List Token} (op : UnaryOp)
      (pos : Position) (hw : wanted ≤ unaryLevel) (h : Prints unaryLevel operand tokens) :
      Prints wanted (.unary op pos operand) (⟨op.token, pos⟩ :: tokens)
  | binary {wanted : Nat} {left right : Expr} {first second : List Token} (op : BinaryOp)
      (pos : Position) (hw : wanted ≤ op.level) (h₁ : Prints op.level left first)
      (h₂ : Prints (op.level + 1) right second) :
      Prints wanted (.binary op pos left right) (first ++ ⟨op.token, pos⟩ :: second)
  | parens {e : Expr} {tokens : List Token} (wanted : Nat) (opened closed : Position)
      (h : Prints 1 e tokens) : Prints wanted e (parenthesized opened closed tokens)

/-- What may stand in one place may stand where less is wanted. -/
theorem Prints.mono {wanted less : Nat} {e : Expr} {tokens : List Token}
    (h : Prints wanted e tokens) (hle : less ≤ wanted) : Prints less e tokens := by
  cases h with
  | literal _ value pos => exact .literal less value pos
  | name _ n pos => exact .name less n pos
  | call _ n pos opened closed each all => exact .call less n pos opened closed each all
  | address _ pos n namePos => exact .address less pos n namePos
  | index _ pos closed h₁ h₂ => exact .index less pos closed h₁ h₂
  | unary op pos hw h => exact .unary op pos (Nat.le_trans hle hw) h
  | binary op pos hw h₁ h₂ => exact .binary op pos (Nat.le_trans hle hw) h₁ h₂
  | parens _ opened closed h => exact .parens less opened closed h

/-- Whether an expression may begin with a token. -/
def begins : TokenKind → Bool
  | .int _ | .float _ | .str _ | .ident _ | .invalid => true
  | .keyword .kwTrue | .keyword .kwFalse | .keyword .kwNot | .keyword .kwBwNot => true
  | .mark .lparen | .mark .atSign | .mark .minus | .mark .bang => true
  | _ => false

theorem begins_unary (op : UnaryOp) : begins op.token = true := by
  obtain ⟨token, node, listed⟩ := op
  unfold Operator.unary? at listed
  split at listed <;> first | rfl | cases listed

theorem Prints.begins {wanted : Nat} {e : Expr} {tokens : List Token}
    (h : Prints wanted e tokens) :
    ∃ token rest, tokens = token :: rest ∧ Expr.begins token.kind = true := by
  induction h with
  | literal _ value pos =>
      refine ⟨_, [], rfl, ?_⟩
      cases value with
      | truth b => cases b <;> rfl
      | _ => rfl
  | name _ n pos => exact ⟨_, _, rfl, rfl⟩
  | call _ n pos opened closed => exact ⟨_, _, rfl, rfl⟩
  | address _ pos n namePos => exact ⟨_, _, rfl, rfl⟩
  | parens _ opened closed => exact ⟨_, _, rfl, rfl⟩
  | unary op pos => exact ⟨_, _, rfl, begins_unary op⟩
  | index _ pos closed _ _ ih _ =>
      obtain ⟨token, rest, rfl, hbegins⟩ := ih
      exact ⟨token, _, rfl, hbegins⟩
  | binary op pos _ _ _ ih _ =>
      obtain ⟨token, rest, rfl, hbegins⟩ := ih
      exact ⟨token, _, rfl, hbegins⟩

/-- Pieces with commas at one position. -/
def separate (mark : Position) : List (List Token) → List Token
  | [] => []
  | [piece] => piece
  | first :: second :: rest => first ++ ⟨.mark .comma, mark⟩ :: separate mark (second :: rest)

theorem separated_separate (mark : Position) :
    ∀ pieces, Separated pieces (separate mark pieces)
  | [] => .none
  | [piece] => .one piece
  | first :: second :: rest => .more first mark (separated_separate mark (second :: rest))

/-- Parentheses where they are needed. -/
def wrap (needed : Bool) (mark : Position) (tokens : List Token) : List Token :=
  if needed then parenthesized mark mark tokens else tokens

theorem Prints.wrap {wanted level : Nat} {e : Expr} {tokens : List Token} {mark : Position}
    (hl : 1 ≤ level) (h : ∀ less ≤ level, Prints less e tokens) :
    Prints wanted e (wrap (level < wanted) mark tokens) := by
  unfold Expr.wrap
  split
  · exact .parens wanted mark mark (h 1 hl)
  · exact h wanted (by simp_all)

mutual
/-- A tree with the parentheses it needs and no others.  Parentheses, commas and
closing brackets are no part of a tree, and stand at `mark`. -/
def print (mark : Position) : Expr → Nat → List Token
  | literal value pos, _ => [⟨value.kind, pos⟩]
  | name n pos, _ => [⟨.ident n, pos⟩]
  | call n pos args, _ =>
    ⟨.ident n, pos⟩ :: parenthesized mark mark (separate mark (printAll mark args))
  | address pos n namePos, _ => [⟨.mark .atSign, pos⟩, ⟨.ident n, namePos⟩]
  | index base pos inside, _ =>
    print mark base primaryLevel ++ bracketed pos mark (print mark inside 1)
  | unary op pos operand, wanted =>
    wrap (unaryLevel < wanted) mark (⟨op.token, pos⟩ :: print mark operand unaryLevel)
  | binary op pos left right, wanted =>
    wrap (op.level < wanted) mark
      (print mark left op.level ++ ⟨op.token, pos⟩ :: print mark right (op.level + 1))

def printAll (mark : Position) : List Expr → List (List Token)
  | [] => []
  | e :: rest => print mark e 1 :: printAll mark rest
end

end Expr

theorem BinaryOp.level_pos (op : BinaryOp) : 1 ≤ op.level := by
  obtain ⟨token, level, node, listed⟩ := op
  unfold Operator.binary? at listed
  split at listed <;> cases listed <;> decide

theorem BinaryOp.level_lt (op : BinaryOp) : op.level < Expr.unaryLevel := by
  obtain ⟨token, level, node, listed⟩ := op
  unfold Operator.binary? at listed
  split at listed <;> cases listed <;> decide

namespace Expr

mutual
/-- A tree is written by its print. -/
theorem prints_print (mark : Position) :
    ∀ (e : Expr) (wanted : Nat), Prints wanted e (print mark e wanted)
  | literal value pos, wanted => .literal wanted value pos
  | name n pos, wanted => .name wanted n pos
  | call n pos args, wanted => by
      obtain ⟨found, hexprs, hpieces, heach⟩ := printsAll_printAll mark args
      have hcall := Prints.call wanted n pos mark mark heach (separated_separate mark _)
      rw [hexprs, hpieces] at hcall
      exact hcall
  | address pos n namePos, wanted => .address wanted pos n namePos
  | index base pos inside, wanted =>
      .index wanted pos mark (prints_print mark base primaryLevel) (prints_print mark inside 1)
  | unary op pos operand, wanted =>
      .wrap (by decide) fun _ hle => .unary op pos hle (prints_print mark operand unaryLevel)
  | binary op pos left right, wanted =>
      .wrap op.level_pos fun _ hle => .binary op pos hle (prints_print mark left op.level)
        (prints_print mark right (op.level + 1))

theorem printsAll_printAll (mark : Position) :
    ∀ es : List Expr, ∃ found : List (Expr × List Token), found.map Prod.fst = es ∧
      found.map Prod.snd = printAll mark es ∧ ∀ a ∈ found, Prints 1 a.1 a.2
  | [] => ⟨[], rfl, rfl, by simp⟩
  | e :: rest => by
      obtain ⟨found, hexprs, hpieces, heach⟩ := printsAll_printAll mark rest
      refine ⟨(e, print mark e 1) :: found, by simp [hexprs], by simp [hpieces, printAll], ?_⟩
      intro a ha
      rcases List.mem_cons.mp ha with rfl | ha
      · exact prints_print mark e 1
      · exact heach a ha
end

theorem length_wrap_le (needed : Bool) (mark : Position) (tokens : List Token) :
    (wrap needed mark tokens).length ≤ tokens.length + 2 := by
  unfold wrap
  split
  · simp [parenthesized]
  · omega

/-- Parentheses around a print are all that a place can ask for. -/
theorem length_print_le (mark : Position) (e : Expr) (wanted : Nat) :
    (print mark e wanted).length ≤ (print mark e 1).length + 2 := by
  cases e with
  | unary op pos operand => exact length_wrap_le _ mark _
  | binary op pos left right =>
      have hone : decide (op.level < 1) = false := decide_eq_false (Nat.not_lt.mpr op.level_pos)
      simp only [print, hone]
      exact length_wrap_le _ mark _
  | _ => simp [print]

theorem length_separate_le {mark : Position} {args : List (Expr × List Token)}
    {tokens : List Token} (all : Separated (args.map Prod.snd) tokens)
    (each : ∀ a ∈ args, (print mark a.1 1).length ≤ a.2.length) :
    (separate mark (printAll mark (args.map Prod.fst))).length ≤ tokens.length := by
  induction args generalizing tokens with
  | nil => simp [printAll, separate]
  | cons a rest ih =>
      have ha := each a List.mem_cons_self
      cases rest with
      | nil =>
          cases all
          exact ha
      | cons b rest =>
          obtain _ | _ | ⟨_, comma, hmore⟩ := all
          have hrest := ih hmore fun c hc => each c (List.mem_cons_of_mem _ hc)
          simp only [List.map_cons, printAll, separate, List.length_append, List.length_cons]
            at hrest ⊢
          omega

/-- No way to write a tree is shorter than its print. -/
theorem print_length_le {wanted : Nat} {e : Expr} {tokens : List Token}
    (h : Prints wanted e tokens) (mark : Position) :
    (print mark e wanted).length ≤ tokens.length := by
  induction h with
  | literal | name | address => exact Nat.le_refl _
  | call _ n pos opened closed each all ih =>
      have hinside := length_separate_le all ih
      simp only [print, parenthesized, List.length_append, List.length_cons]
      omega
  | index _ pos closed _ _ ih₁ ih₂ =>
      simp only [print, bracketed, List.length_append, List.length_cons]
      omega
  | unary op pos hw _ ih =>
      have hneeded : ¬ unaryLevel < _ := Nat.not_lt.mpr hw
      simp only [print, wrap, hneeded, decide_false, List.length_cons]
      exact Nat.succ_le_succ ih
  | binary op pos hw _ _ ih₁ ih₂ =>
      have hneeded : ¬ op.level < _ := Nat.not_lt.mpr hw
      simp only [print, wrap, hneeded, decide_false, List.length_append, List.length_cons]
      simpa using Nat.add_le_add ih₁ (Nat.succ_le_succ ih₂)
  | @parens e _ wanted opened closed _ ih =>
      have hle := length_print_le mark e wanted
      simp only [parenthesized, List.length_append, List.length_cons, List.length_nil]
      omega

end Expr

end SslFrontend
